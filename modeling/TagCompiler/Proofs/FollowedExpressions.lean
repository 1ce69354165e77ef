import TagCompiler.Proofs.ExpressionReads
import TagCompiler.Proofs.SpelledLexemes
/-!
# Expressions that more input follows

A reader of an expression that succeeds gives the same value when its input goes on with an opening
brace, as it does before the next tag, and when the end of a tag with a trim mark comes after the
expression, whatever stands after that: no name, number, operator or path can be continued with one.
The readers that look ahead find the same, and those that may fail keep at least their successes.
-/

namespace TagCompiler.Template

open Text Grammar

/-! ### What may follow -/

/-- The text starts with an opening brace. -/
def StartsWithBrace (t : List Char) : Prop := t.head? = some '\x7b'

theorem StartsWithBrace.eq_cons {t : List Char} (brace : StartsWithBrace t) :
    ∃ u, t = '\x7b' :: u :=
  List.head?_eq_some_iff.mp brace

/-- The ends of tags with a trim mark. -/
def trimEnds : List (List Char) := [['-', '\x7d', '\x7d'], ['-', '%', '\x7d']]

/-- The characters that an end of an expression can start with. -/
def stopSigns : List Char := ['\x7b', '-']

/-- No lexeme but an operator goes on into the text. -/
def Stops (t : List Char) : Prop := ∀ c ∈ t.head?, c ∈ stopSigns

/-- No expression goes on into the text. -/
inductive Bounds : List Char → Prop
  | nil : Bounds []
  | brace {t : List Char} : StartsWithBrace t → Bounds t
  | trim {w : List Char} (t : List Char) : w ∈ trimEnds → Bounds (w ++ t)

/-- The text `u` goes on where `t` does not: after nothing with a brace, after the end of a tag with
anything. -/
inductive Tails : List Char → List Char → Prop
  | brace {u : List Char} : StartsWithBrace u → Tails [] u
  | trim {w : List Char} (u : List Char) : w ∈ trimEnds → Tails w (w ++ u)

theorem StartsWithBrace.stops {t : List Char} (brace : StartsWithBrace t) : Stops t := by
  intro c hc
  rw [Option.mem_def, brace] at hc
  cases hc
  decide

theorem exists_of_mem_trimEnds {w : List Char} (hw : w ∈ trimEnds) :
    ∃ c, w = ['-', c, '\x7d'] ∧ c ∈ ['\x7d', '%'] := by
  simp only [trimEnds, List.mem_cons, List.not_mem_nil, or_false] at hw
  rcases hw with rfl | rfl
  · exact ⟨'\x7d', rfl, by decide⟩
  · exact ⟨'%', rfl, by decide⟩

namespace Bounds

variable {t : List Char}

theorem stops (bounds : Bounds t) : Stops t := by
  cases bounds with
  | nil => rintro c ⟨⟩
  | brace h => exact h.stops
  | trim t hw =>
    obtain ⟨d, rfl, -⟩ := exists_of_mem_trimEnds hw
    rintro c ⟨⟩
    decide

end Bounds

namespace Tails

variable {t u : List Char}

theorem left (tails : Tails t u) : Bounds t := by
  cases tails with
  | brace => exact .nil
  | trim u hw => simpa using Bounds.trim [] hw

theorem right (tails : Tails t u) : Bounds u := by
  cases tails with
  | brace h => exact .brace h
  | trim u hw => exact .trim u hw

/-- No string can end in what comes after the expression. -/
theorem not_quote (tails : Tails t u) {q : Char} (quote : isQuote q = true) : q ∉ t := by
  cases tails with
  | brace => exact List.not_mem_nil
  | trim u hw =>
    have free : ∀ w ∈ trimEnds, w.any isQuote = false := by decide
    intro mem
    exact List.any_eq_false.mp (free _ hw) q mem quote

end Tails

/-- What was read, with the text `t` after what is left. -/
def followed {α : Type} (t : List Char) (p : α × List Char) : α × List Char := (p.1, p.2 ++ t)

/-- If `x` succeeds, then `y` does so with the same value, and leaves `u` where `x` leaves `t`. -/
def CarriesOver {α : Type} (t u : List Char) (x y : Except Failure (α × List Char)) : Prop :=
  ∀ v r, x = .ok (v, r) → ∃ r₀, r = r₀ ++ t ∧ y = .ok (v, r₀ ++ u)

namespace CarriesOver

variable {α β : Type} {t u : List Char} {x y : Except Failure (α × List Char)}

theorem ok (v : α) (r : List Char) : CarriesOver t u (.ok (v, r ++ t)) (.ok (v, r ++ u)) := by
  rintro v r ⟨⟩
  exact ⟨_, rfl, rfl⟩

theorem error (f : Failure) : CarriesOver t u (.error f) y := by
  rintro v r ⟨⟩

theorem bind {f g : α × List Char → Except Failure (β × List Char)} (first : CarriesOver t u x y)
    (second : ∀ v r, x = .ok (v, r ++ t) → CarriesOver t u (f (v, r ++ t)) (g (v, r ++ u))) :
    CarriesOver t u (x >>= f) (y >>= g) := by
  rcases x with e | ⟨v, r⟩
  · exact error e
  · obtain ⟨r, rfl, same⟩ := first v r rfl
    rw [same]
    exact second v r rfl

end CarriesOver

/-- If `x` succeeds, then `y` does so with the same value, and leaves `t` after what `x` leaves. -/
def Extends {α : Type} (t : List Char) (x y : Except Failure (α × List Char)) : Prop :=
  ∀ v r, x = .ok (v, r) → y = .ok (v, r ++ t)

/-- A reader that carries over to every text keeps its successes when more input follows. -/
theorem CarriesOver.follows {α : Type} {t s : List Char}
    {f : List Char → Except Failure (α × List Char)}
    (h : CarriesOver [] t (f (s ++ [])) (f (s ++ t))) : Extends t (f s) (f (s ++ t)) := by
  intro v r ok
  rw [List.append_nil] at h
  obtain ⟨r₀, rfl, same⟩ := h v r ok
  rwa [List.append_nil]

namespace Extends

variable {α β : Type} {t : List Char} {x y : Except Failure (α × List Char)}

theorem ok (v : α) (r : List Char) : Extends t (.ok (v, r)) (.ok (v, r ++ t)) := by
  rintro v r ⟨⟩
  rfl

theorem error (f : Failure) : Extends t (.error f) y := by
  rintro v r ⟨⟩

theorem bind {f g : α × List Char → Except Failure (β × List Char)} (first : Extends t x y)
    (second : ∀ v r, x = .ok (v, r) → Extends t (f (v, r)) (g (v, r ++ t))) :
    Extends t (x >>= f) (y >>= g) := by
  rcases x with e | ⟨v, r⟩
  · exact error e
  · rw [first v r rfl]
    exact second v r rfl

end Extends

theorem shorter_of_plain {α : Type} {k : Nat} {s r t : List Char} {v : α}
    {x : Except Failure (Reading k α (s ++ t))} (h : plain x = .ok (v, r ++ t)) :
    r.length + k ≤ s.length := by
  have := length_of_plain h
  simp only [List.length_append] at this
  omega

theorem plain_word? (w : String) (s : List Char) :
    plain (word? w s) = if w = "" then none else plain (after? w.toList s) := by
  refine Option.ext fun p => ?_
  obtain ⟨u, r⟩ := p
  rw [plain_word?_eq_some]
  split
  · simp_all
  · rename_i nonempty
    rw [plain_after?_eq_some]
    exact and_iff_right nonempty

theorem startsWith_eq_isSome (w : String) (s : List Char) :
    startsWith w s = (plain (word? w s)).isSome := (isSome_plain _).symm

theorem fraction_digit {c : Char} (h : isDigit c = true) (r : List Char) :
    (fraction ('.' :: c :: r)).value = some ((c :: r).takeWhile isDigit) ∧
      (fraction ('.' :: c :: r)).rest = (c :: r).dropWhile isDigit := by
  simp only [fraction, h, ↓reduceDIte]
  exact ⟨rfl, rfl⟩

/-- A number has no fraction where no point with a digit after it stands. -/
theorem fraction_end {s : List Char} (point : ∀ c r, s = '.' :: c :: r → isDigit c = false) :
    (fraction s).value = none ∧ (fraction s).rest = s := by
  unfold fraction
  split
  · rename_i c r
    rw [dif_neg (by simp [point c r rfl])]
    exact ⟨rfl, rfl⟩
  · exact ⟨rfl, rfl⟩

/-! ### Words and runs of characters -/

section
variable {t : List Char}

/-- What stands at the front of a text that goes on stands at its front before, if it does not reach
into what follows. -/
theorem exists_of_append_eq {w s r : List Char} (apart : ∀ c ∈ t.head?, ∀ b, w ≠ s ++ c :: b)
    (h : s ++ t = w ++ r) : ∃ r₀, s = w ++ r₀ ∧ r = r₀ ++ t := by
  rcases List.append_eq_append_iff.mp h with ⟨b, rfl, ht⟩ | ⟨r₀, hs, hr⟩
  · cases b with
    | nil => exact ⟨[], by simp, by simpa using ht.symm⟩
    | cons c b =>
      subst ht
      exact absurd rfl (apart c rfl b)
  · exact ⟨r₀, hs, hr⟩

theorem after?_followed_of_apart {w s : List Char}
    (apart : ∀ c ∈ t.head?, ∀ b, w ≠ s ++ c :: b) :
    plain (after? w (s ++ t)) = (plain (after? w s)).map (followed t) := by
  refine Option.ext fun p => ?_
  obtain ⟨u, r⟩ := p
  rw [plain_after?_eq_some, Option.map_eq_some_iff]
  constructor
  · intro h
    obtain ⟨r₀, hs, rfl⟩ := exists_of_append_eq apart h
    exact ⟨(u, r₀), plain_after?_eq_some.mpr hs, rfl⟩
  · rintro ⟨⟨v, r₀⟩, found, h⟩
    cases h
    rw [plain_after?_eq_some.mp found, List.append_assoc]

theorem word?_followed_of_apart {w : String} {s : List Char}
    (apart : ∀ c ∈ t.head?, ∀ b, w.toList ≠ s ++ c :: b) :
    plain (word? w (s ++ t)) = (plain (word? w s)).map (followed t) := by
  rw [plain_word?, plain_word?, after?_followed_of_apart apart]
  split <;> rfl

/-- A word without a brace does not reach into what starts with one. -/
theorem StartsWithBrace.apart (brace : StartsWithBrace t) {w : List Char} (free : '\x7b' ∉ w)
    (s : List Char) : ∀ c ∈ t.head?, ∀ b, w ≠ s ++ c :: b := by
  rintro c hc b rfl
  rw [Option.mem_def, brace] at hc
  cases hc
  simp at free

theorem dash_followed (brace : StartsWithBrace t) (s : List Char) :
    plain (word? "-" (s ++ t)) = (plain (word? "-" s)).map (followed t) :=
  word?_followed_of_apart (brace.apart (by decide) s)

variable (stops : Stops t)
include stops

theorem Stops.eq_false {p : Char → Bool} (h : stopSigns.any p = false) :
    ∀ c ∈ t.head?, p c = false :=
  fun c hc => Bool.eq_false_iff.mpr (List.any_eq_false.mp h c (stops c hc))

theorem Stops.not_mem {w : List Char} (free : stopSigns.any w.contains = false) :
    ∀ c ∈ t.head?, c ∉ w := by
  intro c hc
  simpa using stops.eq_false free c hc

theorem head?_any_followed {p : Char → Bool} (h : stopSigns.any p = false) (s : List Char) :
    (s ++ t).head?.any p = s.head?.any p := by
  cases s with
  | nil =>
    cases t with
    | nil => rfl
    | cons c t => exact stops.eq_false h c rfl
  | cons c s => rfl

theorem span_followed {p : Char → Bool} (h : stopSigns.any p = false) (s : List Char) :
    (s ++ t).takeWhile p = s.takeWhile p ∧ (s ++ t).dropWhile p = s.dropWhile p ++ t := by
  induction s with
  | nil =>
    cases t with
    | nil => exact ⟨rfl, rfl⟩
    | cons c t => simp [stops.eq_false h c rfl]
  | cons c s ih =>
    cases hc : p c
    · simp [hc]
    · simpa [hc] using ih

theorem skipBlanks_followed (s : List Char) : skipBlanks (s ++ t) = skipBlanks s ++ t :=
  (span_followed stops (by decide) s).2

theorem word?_followed {w : String} (free : stopSigns.any w.toList.contains = false)
    (s : List Char) :
    plain (word? w (s ++ t)) = (plain (word? w s)).map (followed t) :=
  word?_followed_of_apart fun c hc b h => stops.not_mem free c hc (by simp [h])

/-- After at least one character, only the rest of a word can reach into what follows. -/
theorem word?_followed_of_ne_nil {w : String} (free : stopSigns.any w.toList.tail.contains = false)
    {s : List Char} (nonempty : s ≠ []) :
    plain (word? w (s ++ t)) = (plain (word? w s)).map (followed t) := by
  obtain ⟨d, s, rfl⟩ := List.exists_cons_of_ne_nil nonempty
  exact word?_followed_of_apart fun c hc b h => stops.not_mem free c hc (by simp [h])

theorem startsWith_followed {w : String} (free : stopSigns.any w.toList.contains = false)
    (s : List Char) :
    startsWith w (s ++ t) = startsWith w s := by
  rw [startsWith_eq_isSome, startsWith_eq_isSome, word?_followed stops free, Option.isSome_map]

theorem startsWith_followed_of_ne_nil {w : String}
    (free : stopSigns.any w.toList.tail.contains = false) {s : List Char} (nonempty : s ≠ []) :
    startsWith w (s ++ t) = startsWith w s := by
  rw [startsWith_eq_isSome, startsWith_eq_isSome, word?_followed_of_ne_nil stops free nonempty,
    Option.isSome_map]

theorem keyword?_followed {w : String} (free : stopSigns.any w.toList.contains = false)
    (s : List Char) :
    plain (keyword? w (s ++ t)) = (plain (keyword? w s)).map (followed t) := by
  rw [plain_keyword?, plain_keyword?, word?_followed stops free, Option.filter_map]
  congr 2
  funext p
  exact congrArg _ (head?_any_followed stops (by decide) p.2)

/-! ### Lexemes -/

theorem spaced?_followed {w : String} (free : stopSigns.any w.toList.contains = false)
    (s : List Char) :
    plain (spaced? w (s ++ t)) = (plain (spaced? w s)).map (followed t) := by
  rw [plain_spaced?, plain_spaced?, skipBlanks_followed stops, word?_followed stops free]

theorem spacedKeyword?_followed {w : String} (free : stopSigns.any w.toList.contains = false)
    (s : List Char) :
    plain (spacedKeyword? w (s ++ t)) = (plain (spacedKeyword? w s)).map (followed t) := by
  rw [plain_spacedKeyword?, plain_spacedKeyword?, skipBlanks_followed stops,
    keyword?_followed stops free]

theorem nameHere_followed_iff {s r : List Char} {n : String} :
    plain (nameHere (s ++ t)) = .ok (n, r) ↔
      ∃ r₀, plain (nameHere s) = .ok (n, r₀) ∧ r = r₀ ++ t := by
  have outside := stops.eq_false (p := isNameChar) (by decide)
  simp only [plain_nameHere_eq_ok]
  constructor
  · rintro ⟨name, h, ends⟩
    have inside := all_isNameChar_of_isName name
    have apart : ∀ c ∈ t.head?, ∀ b, n.toList ≠ s ++ c :: b := by
      intro c hc b same
      have := inside c (by simp [same])
      rw [outside c hc] at this
      cases this
    obtain ⟨r₀, hs, rfl⟩ := exists_of_append_eq apart h
    refine ⟨r₀, ⟨name, hs, fun c hc => ends c ?_⟩, rfl⟩
    rw [List.head?_append, Option.mem_def.mp hc]
    rfl
  · rintro ⟨r₀, ⟨name, rfl, ends⟩, rfl⟩
    refine ⟨name, by rw [List.append_assoc], fun c hc => ?_⟩
    cases r₀ with
    | nil => exact outside c hc
    | cons d r₀ => exact ends c hc

theorem name?_followed (s : List Char) :
    plain (name? (s ++ t)) = (plain (name? s)).map (followed t) := by
  rw [plain_name?, plain_name?, plain_name, plain_name, skipBlanks_followed stops]
  cases h : plain (nameHere (skipBlanks s)) with
  | ok p =>
    rw [(nameHere_followed_iff stops).mpr ⟨p.2, h, rfl⟩]
    rfl
  | error f =>
    cases h' : plain (nameHere (skipBlanks s ++ t)) with
    | error => rfl
    | ok p =>
      obtain ⟨r₀, found, -⟩ := (nameHere_followed_iff stops).mp h'
      rw [h] at found
      cases found

/-- What follows does not put a character of a kind after a point that has none after it. -/
theorem not_pointed_followed {p : Char → Bool} (h : stopSigns.any p = false) {s : List Char}
    (point : ¬ ∃ c r, s = '.' :: c :: r ∧ p c = true) :
    ∀ c r, s ++ t = '.' :: c :: r → p c = false := by
  intro c r hs
  rcases s with _ | ⟨a, _ | ⟨b, s⟩⟩
  · have dot := stops '.' (by rw [← List.nil_append t, hs]; rfl)
    cases (by decide : ¬ '.' ∈ stopSigns) dot
  · obtain ⟨-, rfl⟩ := List.cons.inj hs
    exact stops.eq_false h c rfl
  · cases hs
    by_contra hc
    exact point ⟨_, _, rfl, by simpa using hc⟩

theorem dottedTail_followed (s : List Char) :
    (dottedTail (s ++ t)).value = (dottedTail s).value ∧
      (dottedTail (s ++ t)).rest = (dottedTail s).rest ++ t := by
  induction hn : s.length using Nat.strongRecOn generalizing s with
  | ind n ih =>
    by_cases dot : ∃ c r, s = '.' :: c :: r ∧ isNameChar c = true
    · obtain ⟨c, r, rfl, hc⟩ := dot
      obtain ⟨value, rest⟩ := dottedTail_dot hc r
      obtain ⟨value', rest'⟩ := dottedTail_dot hc (r ++ t)
      obtain ⟨take, drop⟩ := span_followed stops (p := isNameChar) (by decide) (c :: r)
      have shorter := length_dropWhile_lt hc r
      obtain ⟨same, left⟩ := ih _ (by simp only [List.length_cons] at *; omega)
        ((c :: r).dropWhile isNameChar) rfl
      rw [List.cons_append] at take drop
      rw [List.cons_append, List.cons_append, value, rest, value', rest', take, drop, same, left]
      exact ⟨rfl, rfl⟩
    · obtain ⟨value, rest⟩ := dottedTail_end (s := s) fun c r hs => by
        by_contra hc
        exact dot ⟨c, r, hs, by simpa using hc⟩
      obtain ⟨value', rest'⟩ := dottedTail_end (not_pointed_followed stops (by decide) dot)
      rw [value, rest, value', rest']
      exact ⟨rfl, rfl⟩

theorem fraction_followed (s : List Char) : (fraction (s ++ t)).value = (fraction s).value ∧
    (fraction (s ++ t)).rest = (fraction s).rest ++ t := by
  by_cases point : ∃ c r, s = '.' :: c :: r ∧ isDigit c = true
  · obtain ⟨c, r, rfl, hc⟩ := point
    obtain ⟨value, rest⟩ := fraction_digit hc r
    obtain ⟨value', rest'⟩ := fraction_digit hc (r ++ t)
    obtain ⟨take, drop⟩ := span_followed stops (p := isDigit) (by decide) (c :: r)
    rw [List.cons_append] at take drop
    rw [List.cons_append, List.cons_append, value, rest, value', rest', take, drop]
    exact ⟨rfl, rfl⟩
  · obtain ⟨value, rest⟩ := fraction_end (s := s) fun c r hs => by
      by_contra hc
      exact point ⟨c, r, hs, by simpa using hc⟩
    obtain ⟨value', rest'⟩ := fraction_end (not_pointed_followed stops (by decide) point)
    rw [value, rest, value', rest']
    exact ⟨rfl, rfl⟩

/-! ### Operators -/

theorem connective?_followed (s : List Char) :
    plain (connective? (s ++ t)) = (plain (connective? s)).map (followed t) := by
  rw [plain_connective?, plain_connective?, skipBlanks_followed stops,
    keyword?_followed stops (by decide), keyword?_followed stops (by decide),
    word?_followed stops (by decide), word?_followed stops (by decide)]
  simp only [← Option.map_or, Option.map_map]
  generalize (plain (keyword? "and" (skipBlanks s))).or _ = both
  generalize (plain (keyword? "or" (skipBlanks s))).or _ = either
  cases both <;> cases either <;> rfl

theorem negation?_followed (s : List Char) :
    plain (negation? (s ++ t)) = (plain (negation? s)).map (followed t) := by
  rw [plain_negation?, plain_negation?, skipBlanks_followed stops,
    startsWith_followed stops (by decide), keyword?_followed stops (by decide),
    word?_followed stops (by decide)]
  rcases plain (keyword? "not" (skipBlanks s)) with _ | ⟨_, r⟩
  · dsimp only [Option.map_none]
    split <;> rfl
  · rfl

theorem pipe?_followed (s : List Char) :
    plain (pipe? (s ++ t)) = (plain (pipe? s)).map (followed t) := by
  rw [plain_pipe?, plain_pipe?, skipBlanks_followed stops, startsWith_followed stops (by decide),
    word?_followed stops (by decide)]
  split <;> rfl

theorem keywordArgument?_followed (s : List Char) :
    plain (keywordArgument? (s ++ t)) = (plain (keywordArgument? s)).map (followed t) := by
  rw [plain_keywordArgument?, plain_keywordArgument?, name?_followed stops]
  rcases plain (name? s) with _ | ⟨n, r⟩
  · rfl
  · show (if startsWith "==" (skipBlanks (r ++ t)) then none else _) =
      Option.map (followed t) (if startsWith "==" (skipBlanks r) then none else _)
    rw [skipBlanks_followed stops, startsWith_followed stops (by decide)]
    split
    · rfl
    · dsimp only [followed]
      rw [spaced?_followed stops (by decide)]
      rcases plain (spaced? "=" r) with _ | ⟨_, r⟩ <;> rfl

theorem sign_followed {signs : List String}
    (free : ∀ w ∈ signs, stopSigns.any w.toList.tail.contains = false) {s : List Char}
    (nonempty : s ≠ []) :
    (signs.findSome? fun w => (plain (word? w (s ++ t))).map fun p => (w, p.2)) =
      (signs.findSome? fun w => (plain (word? w s)).map fun p => (w, p.2)).map (followed t) := by
  induction signs with
  | nil => rfl
  | cons w signs ih =>
    obtain ⟨first, others⟩ := List.forall_mem_cons.mp free
    rw [List.findSome?_cons, List.findSome?_cons, word?_followed_of_ne_nil stops first nonempty,
      ih others]
    cases plain (word? w s) <;> rfl

end

theorem operator?_of_bounds {t : List Char} (bounds : Bounds t) : plain (operator? t) = none := by
  cases bounds with
  | nil => rfl
  | brace h =>
    obtain ⟨u, rfl⟩ := h.eq_cons
    rw [plain_operator?]
    rfl
  | trim t hw =>
    obtain ⟨c, rfl, hc⟩ := exists_of_mem_trimEnds hw
    simp only [List.mem_cons, List.not_mem_nil, or_false] at hc
    rcases hc with rfl | rfl
    · rw [plain_operator?]
      rfl
    · rw [plain_operator?]
      rfl

/-- A minus sign that ends a tag is no operator, so none is found where there was none before. -/
theorem operator?_followed {t : List Char} (bounds : Bounds t) (s : List Char) :
    plain (operator? (s ++ t)) = (plain (operator? s)).map (followed t) := by
  have stops := bounds.stops
  have start : ∀ s, plain (operator? (skipBlanks s)) = plain (operator? s) := by
    intro s
    rw [plain_operator?, plain_operator?, skipBlanks_skipBlanks]
  by_cases nonempty : skipBlanks s = []
  · rw [← start s, ← start (s ++ t), skipBlanks_followed stops, nonempty, List.nil_append,
      operator?_of_bounds bounds]
    rfl
  · rw [plain_operator?, plain_operator?, skipBlanks_followed stops,
      startsWith_followed_of_ne_nil stops (by decide) nonempty,
      startsWith_followed_of_ne_nil stops (by decide) nonempty,
      startsWith_followed_of_ne_nil stops (by decide) nonempty,
      keyword?_followed stops (by decide)]
    split
    · rfl
    · rcases plain (keyword? "in" (skipBlanks s)) with _ | ⟨_, r⟩
      · exact sign_followed stops (by decide) nonempty
      · rfl

/-! ### Readers that can fail -/

theorem quotedBody?_of_not_mem {q : Char} {s : List Char} (free : q ∉ s) :
    plain (quotedBody? q s) = none := by
  induction s using quotedBody?.induct q with
  | case1 => rfl
  | case2 => simp at free
  | case3 c hc => rw [quotedBody?, if_neg hc]; rfl
  | case4 e s => simp at free
  | case5 e s hq ih =>
    rw [plain_quotedBody?_cons, if_neg hq, if_pos rfl, ih (fun mem => free (by simp [mem]))]
    rfl
  | case6 c e s hq hc ih =>
    rw [plain_quotedBody?_cons, if_neg hq, if_neg hc, ih (fun mem => free (by simp [mem]))]
    rfl

theorem quotedBody?_followed (t : List Char) {q : Char} {s v r : List Char}
    (h : plain (quotedBody? q s) = some (v, r)) :
    plain (quotedBody? q (s ++ t)) = some (v, r ++ t) := by
  induction s using quotedBody?.induct q generalizing v with
  | case1 => cases h
  | case2 =>
    rw [quotedBody?, if_pos rfl] at h
    cases h
    cases t with
    | nil => simp [quotedBody?, Reading.head]
    | cons e t => rw [List.singleton_append, plain_quotedBody?_cons, if_pos rfl]; rfl
  | case3 c hc =>
    rw [quotedBody?, if_neg hc] at h
    cases h
  | case4 e s =>
    rw [plain_quotedBody?_cons, if_pos rfl] at h
    cases h
    rw [List.cons_append, List.cons_append, plain_quotedBody?_cons, if_pos rfl]
  | case5 e s hq ih =>
    rw [plain_quotedBody?_cons, if_neg hq, if_pos rfl] at h
    obtain ⟨p, hp, h⟩ := Option.map_eq_some_iff.mp h
    cases h
    rw [List.cons_append, List.cons_append, plain_quotedBody?_cons, if_neg hq, if_pos rfl, ih hp]
    rfl
  | case6 c e s hq hc ih =>
    rw [plain_quotedBody?_cons, if_neg hq, if_neg hc] at h
    obtain ⟨p, hp, h⟩ := Option.map_eq_some_iff.mp h
    cases h
    have rest := ih hp
    rw [List.cons_append] at rest
    rw [List.cons_append, List.cons_append, plain_quotedBody?_cons, if_neg hq, if_neg hc, rest]
    rfl

/-- A string that does not end has no end in a text without its quote. -/
theorem quotedBody?_eq_none_append {q : Char} {s t : List Char} (free : q ∉ t)
    (h : plain (quotedBody? q s) = none) : plain (quotedBody? q (s ++ t)) = none := by
  induction s using quotedBody?.induct q with
  | case1 => exact quotedBody?_of_not_mem free
  | case2 => simp [quotedBody?] at h
  | case3 c hc => exact quotedBody?_of_not_mem (by simp [free, Ne.symm hc])
  | case4 e s =>
    rw [plain_quotedBody?_cons, if_pos rfl] at h
    cases h
  | case5 e s hq ih =>
    rw [plain_quotedBody?_cons, if_neg hq, if_pos rfl, Option.map_eq_none_iff] at h
    rw [List.cons_append, List.cons_append, plain_quotedBody?_cons, if_neg hq, if_pos rfl, ih h]
    rfl
  | case6 c e s hq hc ih =>
    rw [plain_quotedBody?_cons, if_neg hq, if_neg hc, Option.map_eq_none_iff] at h
    have rest := ih h
    rw [List.cons_append] at rest
    rw [List.cons_append, List.cons_append, plain_quotedBody?_cons, if_neg hq, if_neg hc, rest]
    rfl

section
variable {t u : List Char} (tails : Tails t u)
include tails

theorem quoted_carries {q : Char} (quote : isQuote q = true) (r : List Char) :
    CarriesOver t u (plain (quoted (q :: (r ++ t)))) (plain (quoted (q :: (r ++ u)))) := by
  rw [plain_quoted, plain_quoted]
  rcases found : plain (quotedBody? q r) with _ | ⟨v, rest⟩
  · rw [quotedBody?_eq_none_append (tails.not_quote quote) found]
    exact .error _
  · rw [quotedBody?_followed t found, quotedBody?_followed u found]
    exact .ok _ rest

theorem demand_carries {w : String} (free : stopSigns.any w.toList.contains = false)
    (s : List Char) :
    CarriesOver t u (plain (demand w (s ++ t))) (plain (demand w (s ++ u))) := by
  rw [plain_demand, plain_demand, word?_followed tails.left.stops free,
    word?_followed tails.right.stops free]
  rcases plain (word? w s) with _ | ⟨_, r⟩
  · dsimp only [Option.map_none]
    split <;> exact .error _
  · exact .ok _ r

theorem demandSpaced_carries {w : String} (free : stopSigns.any w.toList.contains = false)
    (s : List Char) :
    CarriesOver t u (plain (demandSpaced w (s ++ t))) (plain (demandSpaced w (s ++ u))) := by
  rw [plain_demandSpaced, plain_demandSpaced, skipBlanks_followed tails.left.stops,
    skipBlanks_followed tails.right.stops]
  exact demand_carries tails free _

theorem nameHere_carries (s : List Char) :
    CarriesOver t u (plain (nameHere (s ++ t))) (plain (nameHere (s ++ u))) := by
  intro n r h
  obtain ⟨r₀, found, rfl⟩ := (nameHere_followed_iff tails.left.stops).mp h
  exact ⟨r₀, rfl, (nameHere_followed_iff tails.right.stops).mpr ⟨r₀, found, rfl⟩⟩

theorem name_carries (s : List Char) :
    CarriesOver t u (plain (name (s ++ t))) (plain (name (s ++ u))) := by
  rw [plain_name, plain_name, skipBlanks_followed tails.left.stops,
    skipBlanks_followed tails.right.stops]
  exact nameHere_carries tails _

theorem dottedName_carries (s : List Char) :
    CarriesOver t u (plain (dottedName (s ++ t))) (plain (dottedName (s ++ u))) := by
  rw [plain_dottedName, plain_dottedName]
  refine (name_carries tails s).bind fun first r _ => ?_
  obtain ⟨value, rest⟩ := dottedTail_followed tails.left.stops r
  obtain ⟨value', rest'⟩ := dottedTail_followed tails.right.stops r
  dsimp only
  rw [value, rest, value', rest']
  exact .ok _ _

theorem numberTail_carries (negative : Bool) (first : Char) (s : List Char) :
    CarriesOver t u (plain (numberTail negative first (s ++ t)))
      (plain (numberTail negative first (s ++ u))) := by
  obtain ⟨take, drop⟩ := span_followed tails.left.stops (p := isDigit) (by decide) s
  obtain ⟨take', drop'⟩ := span_followed tails.right.stops (p := isDigit) (by decide) s
  obtain ⟨value, rest⟩ := fraction_followed tails.left.stops (s.dropWhile isDigit)
  obtain ⟨value', rest'⟩ := fraction_followed tails.right.stops (s.dropWhile isDigit)
  rw [plain_numberTail, plain_numberTail, take, drop, take', drop']
  dsimp only
  rw [value, rest, value', rest']
  split
  · exact .ok _ _
  · exact .error _

omit tails in
theorem number?_minus {r : List Char} (h : r.head?.any isDigit = false) :
    number? ('-' :: r) = none := by
  cases r with
  | nil => rfl
  | cons c r =>
    refine Option.map_eq_none_iff.mp ((plain_number? ('-' :: c :: r)).trans (if_neg ?_))
    simpa using h

/-- A number stands at the front of a text whatever the text goes on with. -/
theorem number?_carries (c : Char) (r : List Char) :
    (number? (c :: (r ++ t)) = none ∧ number? (c :: (r ++ u)) = none) ∨
      ∃ x y, number? (c :: (r ++ t)) = some x ∧ number? (c :: (r ++ u)) = some y ∧
        CarriesOver t u (plain x) (plain y) := by
  have both : ∀ {s s' : List Char} {x y : Except Failure (Node × List Char)},
      (number? s).map plain = some x → (number? s').map plain = some y → CarriesOver t u x y →
      ∃ x y, number? s = some x ∧ number? s' = some y ∧ CarriesOver t u (plain x) (plain y) := by
    intro s s' x y hx hy carries
    obtain ⟨x, found, rfl⟩ := Option.map_eq_some_iff.mp hx
    obtain ⟨y, found', rfl⟩ := Option.map_eq_some_iff.mp hy
    exact ⟨x, y, found, found', carries⟩
  by_cases digit : isDigit c = true
  · exact .inr (both (number?_digit digit) (number?_digit digit)
      (numberTail_carries tails false c r))
  rw [Bool.not_eq_true] at digit
  by_cases minus : c = '-'
  · subst minus
    by_cases next : r.head?.any isDigit = true
    · obtain ⟨d, hd, digit⟩ := (Option.any_eq_true _ _).mp next
      obtain ⟨r, rfl⟩ := List.head?_eq_some_iff.mp hd
      exact .inr (both (number?_negative digit) (number?_negative digit)
        (numberTail_carries tails true d r))
    · rw [Bool.not_eq_true] at next
      refine .inl ⟨number?_minus ?_, number?_minus ?_⟩
      · rw [head?_any_followed tails.left.stops (by decide), next]
      · rw [head?_any_followed tails.right.stops (by decide), next]
  · exact .inl ⟨number?_other digit minus, number?_other digit minus⟩

/-! ### Paths -/

theorem mapKey_carries (s : List Char) :
    CarriesOver t u (plain (mapKey (s ++ t))) (plain (mapKey (s ++ u))) := by
  rw [plain_mapKey, plain_mapKey, skipBlanks_followed tails.left.stops,
    skipBlanks_followed tails.right.stops, head?_any_followed tails.left.stops (by decide),
    head?_any_followed tails.right.stops (by decide)]
  split
  · rename_i quote
    cases hs : skipBlanks s with
    | nil => simp [hs] at quote
    | cons q r => exact quoted_carries tails (by simpa [hs] using quote) r
  · exact nameHere_carries tails _

theorem index_carries (s : List Char) :
    CarriesOver t u (plain (index (s ++ t))) (plain (index (s ++ u))) := by
  cases s with
  | nil =>
    cases tails with
    | brace => exact .error _
    | trim u hw =>
      obtain ⟨c, rfl, -⟩ := exists_of_mem_trimEnds hw
      exact .error _
  | cons c r =>
    rw [List.cons_append, List.cons_append]
    unfold index
    dsimp only
    split
    · rename_i quote
      exact quoted_carries tails quote r
    · split
      · obtain ⟨take, drop⟩ := span_followed tails.left.stops (p := isNameChar) (by decide) (c :: r)
        obtain ⟨take', drop'⟩ :=
          span_followed tails.right.stops (p := isNameChar) (by decide) (c :: r)
        rw [List.cons_append] at take drop take' drop'
        show CarriesOver t u (.ok (String.ofList ((c :: (r ++ t)).takeWhile isNameChar),
            (c :: (r ++ t)).dropWhile isNameChar))
          (.ok (String.ofList ((c :: (r ++ u)).takeWhile isNameChar),
            (c :: (r ++ u)).dropWhile isNameChar))
        rw [take, drop, take', drop']
        exact .ok _ _
      · exact .error _

omit tails in
theorem plain_pathTail_dot {c : Char} (hc : isNameChar c = true) (r : List Char) :
    plain (pathTail ('.' :: c :: r)) = (do
      let (more, t) ← plain (pathTail ((c :: r).dropWhile isNameChar))
      return (String.ofList ((c :: r).takeWhile isNameChar) :: more, t)) :=
  (plain_pathTail _).trans (if_pos hc)

omit tails in
theorem plain_pathTail_bracket (r : List Char) : plain (pathTail ('[' :: r)) = (do
    let (part, t) ← plain (index (skipBlanks r))
    let (_, t) ← plain (demandSpaced "]" t)
    let (more, t) ← plain (pathTail t)
    return (part :: more, t)) := plain_pathTail _

omit tails in
/-- A path ends where neither a dot with a name character after it nor a bracket stands. -/
theorem plain_pathTail_end {s : List Char} (dot : ∀ c r, s = '.' :: c :: r → isNameChar c = false)
    (bracket : ∀ r, s ≠ '[' :: r) : plain (pathTail s) = .ok ([], s) := by
  rw [plain_pathTail]
  split
  · rename_i c r
    exact if_neg (by simp [dot c r rfl])
  · exact absurd rfl (bracket _)
  · rfl

omit tails in
theorem pathTail_end_followed (stops : Stops t) {s : List Char}
    (dot : ¬ ∃ c r, s = '.' :: c :: r ∧ isNameChar c = true) (bracket : ¬ ∃ r, s = '[' :: r) :
    plain (pathTail (s ++ t)) = .ok ([], s ++ t) := by
  refine plain_pathTail_end (not_pointed_followed stops (by decide) dot) fun r hs => ?_
  cases s with
  | nil =>
    have sign := stops '[' (by rw [← List.nil_append t, hs]; rfl)
    cases (by decide : ¬ '[' ∈ stopSigns) sign
  | cons a s =>
    cases hs
    exact bracket ⟨s, rfl⟩

theorem pathTail_carries (s : List Char) :
    CarriesOver t u (plain (pathTail (s ++ t))) (plain (pathTail (s ++ u))) := by
  induction hn : s.length using Nat.strongRecOn generalizing s with
  | ind n ih =>
    subst hn
    by_cases dot : ∃ c r, s = '.' :: c :: r ∧ isNameChar c = true
    · obtain ⟨c, r, rfl, hc⟩ := dot
      obtain ⟨take, drop⟩ := span_followed tails.left.stops (p := isNameChar) (by decide) (c :: r)
      obtain ⟨take', drop'⟩ :=
        span_followed tails.right.stops (p := isNameChar) (by decide) (c :: r)
      have := length_dropWhile_lt hc r
      have rest := ih _ (by simp only [List.length_cons] at *; omega)
        ((c :: r).dropWhile isNameChar) rfl
      simp only [List.cons_append] at take drop take' drop' ⊢
      rw [plain_pathTail_dot hc, plain_pathTail_dot hc, take, drop, take', drop']
      exact rest.bind fun more t _ => .ok _ _
    by_cases bracket : ∃ r, s = '[' :: r
    · obtain ⟨r, rfl⟩ := bracket
      rw [List.cons_append, List.cons_append, plain_pathTail_bracket, plain_pathTail_bracket,
        skipBlanks_followed tails.left.stops, skipBlanks_followed tails.right.stops]
      have := skipBlanks_length_le r
      refine (index_carries tails _).bind fun part r h => ?_
      have := shorter_of_plain h
      refine (demandSpaced_carries tails (by decide) r).bind fun _ r h => ?_
      have := shorter_of_plain h
      have rest := ih _ (by simp only [List.length_cons] at *; omega) r rfl
      exact rest.bind fun more t _ => .ok _ _
    · rw [pathTail_end_followed tails.left.stops dot bracket,
        pathTail_end_followed tails.right.stops dot bracket]
      exact .ok _ _

end

/-! ### Expressions -/

variable {t u : List Char}

theorem primary_tails (tails : Tails t u) : ∃ f, plain (primary t) = .error f := by
  cases tails with
  | brace => exact ⟨_, by rw [primary]; rfl⟩
  | trim u hw =>
    obtain ⟨c, rfl, hc⟩ := exists_of_mem_trimEnds hw
    have noNumber : number? ['-', c, '\x7d'] = none := by
      refine number?_minus ?_
      have digit : ['\x7d', '%'].any isDigit = false := by decide
      exact Bool.eq_false_iff.mpr (List.any_eq_false.mp digit c hc)
    rw [plain_primary_other (by decide) (by decide) (by decide), noNumber]
    exact ⟨_, rfl⟩

mutual

theorem condition_carries (tails : Tails t u) (s : List Char) :
    CarriesOver t u (plain (condition (s ++ t))) (plain (condition (s ++ u))) := by
  rw [plain_condition, plain_condition]
  refine (expression_carries tails s).bind fun first r h => ?_
  have := shorter_of_plain h
  exact (connectives_carries tails r).bind fun more r _ => .ok _ r
termination_by 16 * s.length + 9
decreasing_by all_goals omega

theorem connectives_carries (tails : Tails t u) (s : List Char) :
    CarriesOver t u (plain (connectives (s ++ t))) (plain (connectives (s ++ u))) := by
  rw [plain_connectives, plain_connectives, connective?_followed tails.left.stops,
    connective?_followed tails.right.stops, skipBlanks_followed tails.left.stops,
    skipBlanks_followed tails.right.stops]
  rcases found : plain (connective? s) with _ | ⟨op, r⟩
  · exact .ok _ _
  · have := length_of_plain_some found
    refine (expression_carries tails r).bind fun e r h => ?_
    have := shorter_of_plain h
    exact (connectives_carries tails r).bind fun more r _ => .ok _ r
termination_by 16 * s.length
decreasing_by all_goals omega

theorem expression_carries (tails : Tails t u) (s : List Char) :
    CarriesOver t u (plain (expression (s ++ t))) (plain (expression (s ++ u))) := by
  rw [plain_expression, plain_expression]
  refine (operand_carries tails s).bind fun first r h => ?_
  have := shorter_of_plain h
  exact (operators_carries tails r).bind fun more r _ => .ok _ r
termination_by 16 * s.length + 8
decreasing_by all_goals omega

theorem operators_carries (tails : Tails t u) (s : List Char) :
    CarriesOver t u (plain (operators (s ++ t))) (plain (operators (s ++ u))) := by
  rw [plain_operators, plain_operators, operator?_followed tails.left,
    operator?_followed tails.right, skipBlanks_followed tails.left.stops,
    skipBlanks_followed tails.right.stops]
  rcases found : plain (operator? s) with _ | ⟨op, r⟩
  · exact .ok _ _
  · have := length_of_plain_some found
    refine (operand_carries tails r).bind fun e r h => ?_
    have := shorter_of_plain h
    exact (operators_carries tails r).bind fun more r _ => .ok _ r
termination_by 16 * s.length
decreasing_by all_goals omega

theorem operand_carries (tails : Tails t u) (s : List Char) :
    CarriesOver t u (plain (operand (s ++ t))) (plain (operand (s ++ u))) := by
  rw [plain_operand, plain_operand, negation?_followed tails.left.stops,
    negation?_followed tails.right.stops, skipBlanks_followed tails.left.stops,
    skipBlanks_followed tails.right.stops]
  rcases found : plain (negation? s) with _ | ⟨_, r⟩
  · have := skipBlanks_length_le s
    refine (primary_carries tails (skipBlanks s)).bind fun e r h => ?_
    have := shorter_of_plain h
    exact filters_carries tails e r
  · have := length_of_plain_some found
    exact (operand_carries tails r).bind fun e r _ => .ok _ r
termination_by 16 * s.length + 7
decreasing_by all_goals omega

theorem filters_carries (tails : Tails t u) (subject : Node) (s : List Char) :
    CarriesOver t u (plain (filters subject (s ++ t))) (plain (filters subject (s ++ u))) := by
  rw [plain_filters, plain_filters, pipe?_followed tails.left.stops,
    pipe?_followed tails.right.stops, skipBlanks_followed tails.left.stops,
    skipBlanks_followed tails.right.stops]
  rcases found : plain (pipe? s) with _ | ⟨_, r⟩
  · exact .ok _ _
  · have := length_of_plain_some found
    refine (name_carries tails r).bind fun n r h => ?_
    have := shorter_of_plain h
    dsimp only
    rw [spaced?_followed tails.left.stops (by decide),
    spaced?_followed tails.right.stops (by decide)]
    rcases found : plain (spaced? "(" r) with _ | ⟨_, r⟩
    · exact filters_carries tails _ r
    · have := length_of_plain_some found
      refine (arguments_carries tails r).bind fun args r h => ?_
      have := shorter_of_plain h
      exact filters_carries tails _ r
termination_by 16 * s.length
decreasing_by all_goals omega

theorem primary_carries (tails : Tails t u) (s : List Char) :
    CarriesOver t u (plain (primary (s ++ t))) (plain (primary (s ++ u))) := by
  cases hs : s with
  | nil =>
    obtain ⟨f, failed⟩ := primary_tails tails
    rw [List.nil_append, failed]
    exact .error f
  | cons c r =>
    have shorter : s.length = r.length + 1 := by rw [hs, List.length_cons]
    rw [List.cons_append, List.cons_append]
    by_cases group : c = '('
    · subst group
      rw [plain_primary_group, plain_primary_group]
      refine (condition_carries tails r).bind fun e r _ => ?_
      exact (demandSpaced_carries tails (by decide) r).bind fun _ r _ => .ok _ r
    by_cases array : c = '['
    · subst array
      rw [plain_primary_array, plain_primary_array]
      exact (items_carries tails r).bind fun cs r _ => .ok _ r
    by_cases map : c = '\x7b'
    · subst map
      rw [plain_primary_map, plain_primary_map]
      exact (entries_carries tails r).bind fun es r _ => .ok _ r
    rw [plain_primary_other group array map, plain_primary_other group array map]
    split
    · rename_i quote
      exact (quoted_carries tails quote r).bind fun v r _ => .ok _ r
    · rcases number?_carries tails c r with ⟨none_, none_'⟩ | ⟨x, y, some_, some_', extends_⟩
      · rw [none_, none_']
        dsimp only
        split
        · have rest := reference_carries tails s
          rwa [hs] at rest
        · exact .error _
      · rw [some_, some_']
        exact extends_
termination_by 16 * s.length + 6
decreasing_by all_goals simp only [List.length_cons] at *; omega

theorem reference_carries (tails : Tails t u) (s : List Char) :
    CarriesOver t u (plain (reference (s ++ t))) (plain (reference (s ++ u))) := by
  rw [plain_reference, plain_reference]
  refine (nameHere_carries tails s).bind fun n r h => ?_
  have := shorter_of_plain h
  dsimp only
  split
  · exact .ok _ r
  · refine (pathTail_carries tails r).bind fun parts r h => ?_
    have := shorter_of_plain h
    dsimp only
    rw [word?_followed tails.left.stops (by decide),
    word?_followed tails.right.stops (by decide)]
    rcases found : plain (word? "(" r) with _ | ⟨_, r⟩
    · exact .ok _ _
    · have := length_of_plain_some found
      exact (arguments_carries tails r).bind fun args r _ => .ok _ r
termination_by 16 * s.length + 5
decreasing_by all_goals omega

theorem arguments_carries (tails : Tails t u) (s : List Char) :
    CarriesOver t u (plain (arguments (s ++ t))) (plain (arguments (s ++ u))) := by
  rw [plain_arguments, plain_arguments, spaced?_followed tails.left.stops (by decide),
    spaced?_followed tails.right.stops (by decide)]
  rcases plain (spaced? ")" s) with _ | ⟨_, r⟩
  · refine (argument_carries tails s).bind fun a r h => ?_
    have := shorter_of_plain h
    dsimp only
    rw [spaced?_followed tails.left.stops (by decide),
    spaced?_followed tails.right.stops (by decide)]
    rcases found : plain (spaced? "," r) with _ | ⟨_, r⟩
    · exact (demandSpaced_carries tails (by decide) r).bind fun _ r _ => .ok _ r
    · have := length_of_plain_some found
      exact (arguments_carries tails r).bind fun more r _ => .ok _ r
  · exact .ok _ r
termination_by 16 * s.length + 11
decreasing_by all_goals omega

theorem argument_carries (tails : Tails t u) (s : List Char) :
    CarriesOver t u (plain (argument (s ++ t))) (plain (argument (s ++ u))) := by
  rw [plain_argument, plain_argument, keywordArgument?_followed tails.left.stops,
    keywordArgument?_followed tails.right.stops]
  rcases found : plain (keywordArgument? s) with _ | ⟨n, r⟩
  · exact (condition_carries tails s).bind fun e r _ => .ok _ r
  · have := length_of_plain_some found
    exact (condition_carries tails r).bind fun e r _ => .ok _ r
termination_by 16 * s.length + 10
decreasing_by all_goals omega

theorem items_carries (tails : Tails t u) (s : List Char) :
    CarriesOver t u (plain (items (s ++ t))) (plain (items (s ++ u))) := by
  rw [plain_items, plain_items, spaced?_followed tails.left.stops (by decide),
    spaced?_followed tails.right.stops (by decide)]
  rcases plain (spaced? "]" s) with _ | ⟨_, r⟩
  · refine (condition_carries tails s).bind fun e r h => ?_
    have := shorter_of_plain h
    dsimp only
    rw [spaced?_followed tails.left.stops (by decide),
    spaced?_followed tails.right.stops (by decide)]
    rcases found : plain (spaced? "," r) with _ | ⟨_, r⟩
    · exact (demandSpaced_carries tails (by decide) r).bind fun _ r _ => .ok _ r
    · have := length_of_plain_some found
      exact (items_carries tails r).bind fun more r _ => .ok _ r
  · exact .ok _ r
termination_by 16 * s.length + 10
decreasing_by all_goals omega

theorem entries_carries (tails : Tails t u) (s : List Char) :
    CarriesOver t u (plain (entries (s ++ t))) (plain (entries (s ++ u))) := by
  rw [plain_entries, plain_entries, spaced?_followed tails.left.stops (by decide),
    spaced?_followed tails.right.stops (by decide)]
  rcases plain (spaced? "\x7d" s) with _ | ⟨_, r⟩
  · refine (mapKey_carries tails s).bind fun key r h => ?_
    have := shorter_of_plain h
    refine (demandSpaced_carries tails (by decide) r).bind fun _ r h => ?_
    have := shorter_of_plain h
    refine (condition_carries tails r).bind fun e r h => ?_
    have := shorter_of_plain h
    dsimp only
    rw [spaced?_followed tails.left.stops (by decide),
    spaced?_followed tails.right.stops (by decide)]
    rcases found : plain (spaced? "," r) with _ | ⟨_, r⟩
    · exact (demandSpaced_carries tails (by decide) r).bind fun _ r _ => .ok _ r
    · have := length_of_plain_some found
      exact (entries_carries tails r).bind fun more r _ => .ok _ r
  · exact .ok _ r
termination_by 16 * s.length + 10
decreasing_by all_goals omega

end

/-! ### Before the next tag -/

section
variable (brace : StartsWithBrace u)
include brace

theorem demand_followed {w : String} (free : '\x7b' ∉ w.toList) (s : List Char) :
    Extends u (plain (demand w s)) (plain (demand w (s ++ u))) := by
  rw [plain_demand, plain_demand, word?_followed_of_apart (brace.apart free s)]
  rcases plain (word? w s) with _ | ⟨_, r⟩
  · dsimp only
    split <;> exact .error _
  · exact .ok _ r

theorem demandSpaced_followed {w : String} (free : '\x7b' ∉ w.toList) (s : List Char) :
    Extends u (plain (demandSpaced w s)) (plain (demandSpaced w (s ++ u))) := by
  rw [plain_demandSpaced, plain_demandSpaced, skipBlanks_followed brace.stops]
  exact demand_followed brace free _

theorem tagEnd_followed {closer : String} (free : '\x7b' ∉ closer.toList) (s : List Char) :
    Extends u (plain (tagEnd closer s)) (plain (tagEnd closer (s ++ u))) := by
  have dash : plain (spaced? "-" (s ++ u)) = (plain (spaced? "-" s)).map (followed u) := by
    rw [plain_spaced?, plain_spaced?, skipBlanks_followed brace.stops, dash_followed brace]
  rw [plain_tagEnd, plain_tagEnd, dash]
  rcases plain (spaced? "-" s) with _ | ⟨_, r⟩
  · exact (demandSpaced_followed brace free s).bind fun _ r _ => .ok _ r
  · exact (demand_followed brace free r).bind fun _ r _ => .ok _ r

theorem name_followed (s : List Char) : Extends u (plain (name s)) (plain (name (s ++ u))) :=
  (name_carries (.brace brace) s).follows (f := fun s => plain (name s))

theorem dottedName_followed (s : List Char) :
    Extends u (plain (dottedName s)) (plain (dottedName (s ++ u))) :=
  (dottedName_carries (.brace brace) s).follows (f := fun s => plain (dottedName s))

theorem condition_followed (s : List Char) :
    Extends u (plain (condition s)) (plain (condition (s ++ u))) :=
  (condition_carries (.brace brace) s).follows (f := fun s => plain (condition s))

theorem arguments_followed (s : List Char) :
    Extends u (plain (arguments s)) (plain (arguments (s ++ u))) :=
  (arguments_carries (.brace brace) s).follows (f := fun s => plain (arguments s))

end

end TagCompiler.Template
