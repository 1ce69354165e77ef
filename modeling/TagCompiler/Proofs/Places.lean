import TagCompiler.Proofs.ExpressionEquations
import TagCompiler.Proofs.Grammar
/-!
# Where a reader stops and where it fails

A reader of `s` that succeeds leaves an end of `s` unread. One that fails does so at a place inside
`s`, and at that place stands what its cause says. `Reads` holds both facts together with a
property of the value that was read, and its `bind` rule carries all three through a sequence of
readers.
-/

namespace TagCompiler.Template

open Text

/-! ### What a cause says about its place -/

/-- The keywords that a statement can start with. -/
def statementKeywords : List String := ["macro", "call", "set", "if", "for", "from", "import"]

/-- What is missing at the front of `s` does not stand there. -/
def Lacks (what : String) (s : List Char) : Prop :=
  (what = "identifier" ∧ ∀ c ∈ s.head?, isPunctuation c = true) ∨
  (what = "expression" ∧ ∃ c ∈ s.head?, isNameStart c = false ∧ isQuote c = false ∧
    isDigit c = false ∧ c ≠ '(' ∧ c ≠ '[' ∧ c ≠ '\x7b') ∨
  (what = "string or integer index" ∧ ∀ c ∈ s.head?, isQuote c = false ∧ isDigit c = false) ∨
  (what = "'in'" ∧ plain (keyword? "in" s) = none)

/-- What is not terminated starts at the front of `s` and does not end in `s`. -/
def Unclosed (what : String) (s : List Char) : Prop :=
  (what = "string literal" ∧ ∃ q r, s = q :: r ∧ isQuote q = true ∧ quotedBody? q r = none) ∨
  (what = "comment" ∧ ∃ r, s = "\x7b#".toList ++ r ∧ ¬ "#\x7d".toList <:+: r)

/-- The cause is found at the place between `before` and `after`. -/
def Cause.ShowsAt : Cause → List Char → List Char → Prop
  | .unexpected expected found, _, after =>
    after ≠ [] ∧ ∃ w : String, expected = "'" ++ w ++ "'" ∧ ¬ w.toList <+: after ∧
      found = String.ofList (after.take w.length)
  | .endOfInput _, _, after => after = []
  | .badName start, _, after =>
    after.head? = some start ∧ isNameStart start = false ∧ isPunctuation start = false
  | .unknownKeyword keyword, before, _ =>
    isName keyword = true ∧ keyword ∉ statementKeywords ∧ keyword.toList <:+ before
  | .missing what, _, after => Lacks what after
  | .unterminated what, _, after => Unclosed what after
  | .badNumber numeral, before, _ => numeral ≠ "" ∧ numeral.toList <:+ before
  | .severalTargets, _, after => after.head? = some ','

theorem Cause.ShowsAt.extend {cause : Cause} {before after : List Char}
    (h : cause.ShowsAt before after) (pre : List Char) : cause.ShowsAt (pre ++ before) after := by
  cases cause with
  | unknownKeyword keyword => exact ⟨h.1, h.2.1, h.2.2.trans (List.suffix_append _ _)⟩
  | badNumber numeral => exact ⟨h.1, h.2.trans (List.suffix_append _ _)⟩
  | unexpected | endOfInput | badName | missing | unterminated | severalTargets => exact h

/-- The failure is at a place of `s`, and its cause is found there. -/
def Failure.StandsIn (f : Failure) (s : List Char) : Prop :=
  ∃ before after, s = before ++ after ∧ f.unread = after.length ∧ f.cause.ShowsAt before after

theorem Failure.StandsIn.of_suffix {f : Failure} {r s : List Char} (h : f.StandsIn r)
    (end_ : r <:+ s) : f.StandsIn s := by
  obtain ⟨before, after, rfl, unread, shows⟩ := h
  obtain ⟨pre, rfl⟩ := end_
  exact ⟨pre ++ before, after, by rw [List.append_assoc], unread, shows.extend pre⟩

/-- A failure at the front of `s`. -/
theorem Failure.standsIn_front {cause : Cause} {s : List Char} (h : cause.ShowsAt [] s) :
    (⟨cause, s.length⟩ : Failure).StandsIn s := ⟨[], s, rfl, rfl, h⟩

/-! ### Readers -/

/-- What a reader of `s` may come to: a value with the property `P` and an end of `s` that is left
unread, or a failure at a place of `s`. -/
def Reads {α : Type} (s : List Char) (P : α → Prop) : Except Failure (α × List Char) → Prop
  | .ok (v, r) => r <:+ s ∧ P v
  | .error f => f.StandsIn s

namespace Reads

variable {α β : Type} {s r : List Char} {P Q : α → Prop} {x : Except Failure (α × List Char)}

theorem ok {v : α} (end_ : r <:+ s) (h : P v) : Reads s P (.ok (v, r)) := ⟨end_, h⟩

theorem here {v : α} (h : P v) : Reads s P (.ok (v, s)) := ⟨List.suffix_refl s, h⟩

theorem mono (h : Reads s P x) (imp : ∀ v, P v → Q v) : Reads s Q x := by
  rcases x with f | ⟨v, r⟩
  · exact h
  · exact ⟨h.1, imp v h.2⟩

theorem of_suffix (h : Reads r P x) (end_ : r <:+ s) : Reads s P x := by
  rcases x with f | ⟨v, t⟩
  · exact Failure.StandsIn.of_suffix h end_
  · exact ⟨h.1.trans end_, h.2⟩

/-- One reader after another, where the second may look back to where the first one started. -/
theorem bindWithin {R : β → Prop} {f : α × List Char → Except Failure (β × List Char)}
    (first : Reads s P x)
    (second : ∀ v r, x = .ok (v, r) → r <:+ s → P v → Reads s R (f (v, r))) :
    Reads s R (x >>= f) := by
  rcases x with e | ⟨v, r⟩
  · exact first
  · exact second v r rfl first.1 first.2

/-- One reader after another: the second one reads what the first one left. -/
theorem bind {R : β → Prop} {f : α × List Char → Except Failure (β × List Char)}
    (first : Reads s P x) (second : ∀ v r, x = .ok (v, r) → P v → Reads r R (f (v, r))) :
    Reads s R (x >>= f) :=
  first.bindWithin fun v r h end_ hv => (second v r h hv).of_suffix end_

theorem fail {cause : Cause} (h : cause.ShowsAt [] s) : Reads s P (fail cause s) :=
  Failure.standsIn_front h

theorem of_skipBlanks (h : Reads (skipBlanks s) P x) : Reads s P x :=
  h.of_suffix (skipBlanks_suffix s)

end Reads

/-! ### Lexemes -/

open Grammar

theorem demand_reads {w : String} (nonempty : w ≠ "") (s : List Char) :
    Reads s (fun _ => True) (plain (demand w s)) := by
  rw [plain_demand]
  split
  · rename_i p h
    exact .ok (suffix_of_word? h) trivial
  · rename_i h
    split
    · rename_i empty
      exact .fail (List.isEmpty_iff.mp empty)
    · rename_i more
      refine .fail ⟨by simpa using more, w, rfl, ?_, rfl⟩
      rintro ⟨r, hr⟩
      rw [plain_word?_eq_some (u := ()) |>.mpr ⟨nonempty, hr.symm⟩] at h
      cases h

theorem demandSpaced_reads {w : String} (nonempty : w ≠ "") (s : List Char) :
    Reads s (fun _ => True) (plain (demandSpaced w s)) := by
  rw [plain_demandSpaced]
  exact (demand_reads nonempty _).of_skipBlanks

theorem suffix_of_spaced? {w : String} {s r : List Char} {u : Unit}
    (h : plain (spaced? w s) = some (u, r)) : r <:+ s :=
  (suffix_of_word? (plain_spaced? w s ▸ h)).trans (skipBlanks_suffix s)

theorem suffix_of_keyword? {w : String} {s r : List Char} {u : Unit}
    (h : plain (keyword? w s) = some (u, r)) : r <:+ s :=
  ⟨w.toList, (plain_keyword?_eq_some.mp h).2.1.symm⟩

theorem tagEnd_reads {closer : String} (nonempty : closer ≠ "") (s : List Char) :
    Reads s (fun _ => True) (plain (tagEnd closer s)) := by
  rw [plain_tagEnd]
  split
  · rename_i r h
    refine Reads.of_suffix ?_ (suffix_of_spaced? h)
    exact (demand_reads nonempty r).bind fun _ t _ _ => .here trivial
  · exact (demandSpaced_reads nonempty s).bind fun _ t _ _ => .here trivial

theorem nameHere_reads (s : List Char) :
    Reads s (fun n => isName n = true) (plain (nameHere s)) := by
  cases h : plain (nameHere s) with
  | ok p =>
    obtain ⟨n, r⟩ := p
    obtain ⟨hn, rfl, -⟩ := plain_nameHere_eq_ok.mp h
    exact .ok (List.suffix_append _ _) hn
  | error f =>
    rw [← h]
    unfold nameHere at h ⊢
    split
    · exact .fail (Or.inl ⟨rfl, by simp⟩)
    · rename_i c r
      dsimp only at h
      split
      · rename_i start
        rw [dif_pos start] at h
        cases h
      · rename_i notStart
        split
        · rename_i punctuation
          exact .fail (Or.inl ⟨rfl, by simpa using punctuation⟩)
        · rename_i notPunctuation
          exact .fail ⟨rfl, by simpa using notStart, by simpa using notPunctuation⟩

theorem name_reads (s : List Char) : Reads s (fun n => isName n = true) (plain (name s)) := by
  rw [plain_name]
  exact (nameHere_reads _).of_skipBlanks

theorem name?_finds {s r : List Char} {n : String} (h : plain (name? s) = some (n, r)) :
    r <:+ s ∧ isName n = true := by
  have reads := name_reads s
  rw [plain_name?] at h
  cases hn : plain (name s) with
  | error f =>
    rw [hn] at h
    cases h
  | ok p =>
    rw [hn] at h reads
    cases h
    exact reads

theorem dottedTail_reads (s : List Char) : (dottedTail s).rest <:+ s ∧
    ∀ part ∈ (dottedTail s).value, part ≠ "" ∧ ∀ c ∈ part.toList, isNameChar c = true := by
  induction hn : s.length using Nat.strongRecOn generalizing s with
  | ind n ih =>
    by_cases dot : ∃ c r, s = '.' :: c :: r ∧ isNameChar c = true
    · obtain ⟨c, r, rfl, hc⟩ := dot
      obtain ⟨value, rest⟩ := dottedTail_dot hc r
      have shorter := length_dropWhile_lt hc r
      obtain ⟨suffix, parts⟩ := ih _ (by simp only [List.length_cons] at *; omega)
        ((c :: r).dropWhile isNameChar) rfl
      rw [value, rest]
      refine ⟨suffix.trans ((List.dropWhile_suffix _).trans (List.suffix_cons _ _)), ?_⟩
      intro part hp
      rcases List.mem_cons.mp hp with rfl | hp
      · refine ⟨by simp [hc], fun d hd => ?_⟩
        rw [String.toList_ofList] at hd
        exact List.all_eq_true.mp List.all_takeWhile d hd
      · exact parts part hp
    · obtain ⟨value, rest⟩ := dottedTail_end (s := s) fun c r hs => by
        by_contra hc
        exact dot ⟨c, r, hs, by simpa using hc⟩
      rw [value, rest]
      exact ⟨List.suffix_refl s, by simp⟩

theorem dottedName_reads (s : List Char) : Reads s IsDotted (plain (dottedName s)) := by
  rw [plain_dottedName]
  refine (name_reads s).bind fun first r _ hf => ?_
  obtain ⟨suffix, parts⟩ := dottedTail_reads r
  exact .ok suffix ⟨first, _, rfl, hf, parts⟩

theorem suffix_of_quotedBody? {q : Char} {s r v : List Char}
    (h : plain (quotedBody? q s) = some (v, r)) : r <:+ s := by
  induction s using quotedBody?.induct q generalizing v with
  | case1 => cases h
  | case2 =>
    rw [quotedBody?, if_pos rfl] at h
    cases h
    exact List.suffix_cons _ _
  | case3 c hc =>
    rw [quotedBody?, if_neg hc] at h
    cases h
  | case4 e s =>
    rw [plain_quotedBody?_cons, if_pos rfl] at h
    cases h
    exact List.suffix_cons _ _
  | case5 e s hq ih =>
    rw [plain_quotedBody?_cons, if_neg hq, if_pos rfl] at h
    obtain ⟨p, hp, h⟩ := Option.map_eq_some_iff.mp h
    cases h
    exact (ih hp).trans ((List.suffix_cons _ _).trans (List.suffix_cons _ _))
  | case6 c e s hq hc ih =>
    rw [plain_quotedBody?_cons, if_neg hq, if_neg hc] at h
    obtain ⟨p, hp, h⟩ := Option.map_eq_some_iff.mp h
    cases h
    exact (ih hp).trans (List.suffix_cons _ _)

theorem quoted_reads {q : Char} (quote : isQuote q = true) (r : List Char) :
    Reads (q :: r) (fun _ => True) (plain (quoted (q :: r))) := by
  rw [plain_quoted]
  split
  · rename_i h
    exact .ok ((suffix_of_quotedBody? h).trans (List.suffix_cons _ _)) trivial
  · rename_i h
    refine .fail (Or.inl ⟨rfl, q, r, rfl, quote, ?_⟩)
    rcases hb : quotedBody? q r with _ | x
    · rfl
    · rw [hb] at h
      cases h

theorem numberOf?_isLiteral {negative : Bool} {whole : List Char} {part : Option (List Char)}
    {n : Number} (h : numberOf? negative whole part = some n) :
    IsLiteral (.literal (.number n) .number) := by
  unfold numberOf? at h
  split at h
  · simp only [integer?, Option.ite_none_right_eq_some] at h
    obtain ⟨bounds, h⟩ := h
    cases h
    exact .int bounds.1 bounds.2
  · obtain ⟨x, -, rfl⟩ := Option.map_eq_some_iff.mp h
    exact .float x

theorem numberTail_reads (negative : Bool) (first : Char) (s : List Char) :
    Reads (sign negative ++ first :: s) IsLiteral (plain (numberTail negative first s)) := by
  rw [plain_numberTail]
  have whole := numeral_append negative first s
  dsimp only
  split
  · rename_i h
    exact .ok ⟨_, whole⟩ (numberOf?_isLiteral h)
  · refine ⟨_, _, whole.symm, rfl, ?_, ?_⟩
    · simp [numeral]
    · simp

theorem number_reads {s : List Char} {x : Except Failure (Node × List Char)}
    (h : (number? s).map plain = some x) : Reads s IsLiteral x := by
  rw [plain_number?] at h
  split at h
  · cases h
  · split at h
    · cases h
      exact numberTail_reads true _ _
    · cases h
  · split at h
    · cases h
      exact numberTail_reads false _ _
    · cases h

end TagCompiler.Template
