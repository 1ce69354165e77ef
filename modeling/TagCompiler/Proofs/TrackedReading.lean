import TagCompiler.Proofs.PlainReading
import TagCompiler.Template.Parse
/-!
# Input with a place is read like its characters

The readers of `Template.Tracked` find in an input what the readers of lists of characters find in
the rest of the input, and the place they come to is that after the characters they passed, counted
one by one. `Retraces` says so for readers that may fail and `Finds` for those that may find
nothing; both are kept by everything that readers are put together from. Going on by bytes agrees
with counting characters because the words, names and numbers that are passed in this way have no
newline in them.
-/

namespace TagCompiler.Template

open Text

/-! ### Places -/

/-- The place after a text that starts at `p`. -/
def Place.after (p : Place) (text : List Char) : Place := text.foldl Place.afterChar p

theorem Place.after_append (p : Place) (a b : List Char) :
    p.after (a ++ b) = (p.after a).after b := List.foldl_append

theorem byteLength_eq (s : List Char) : byteLength s = (String.ofList s).utf8ByteSize := by
  induction s with
  | nil => rfl
  | cons c r ih =>
    rw [String.ofList_cons, String.utf8ByteSize_append, String.utf8ByteSize_singleton, ← ih]
    rfl

theorem byteLength_cons (c : Char) (s : List Char) :
    byteLength (c :: s) = c.utf8Size + byteLength s := rfl

theorem byteLength_toList (w : String) : byteLength w.toList = w.utf8ByteSize := by
  rw [byteLength_eq, String.ofList_toList]

/-- Text without a newline stays in the line. -/
theorem Place.after_eq_afterBytes (p : Place) {text : List Char} (inLine : '\n' ∉ text) :
    p.after text = p.afterBytes (byteLength text) := by
  induction text generalizing p with
  | nil => rfl
  | cons c text ih =>
    obtain ⟨other, inLine⟩ := not_or.mp (mt List.mem_cons.mpr inLine)
    have step : p.afterChar c = p.afterBytes c.utf8Size := by
      rw [afterChar, if_neg (Ne.symm other)]
      rfl
    show (p.afterChar c).after text = _
    rw [step, ih _ inLine, byteLength_cons, afterBytes, afterBytes, afterBytes, Nat.add_assoc]

theorem dropBytes_append (text s : List Char) : dropBytes (byteLength text) (text ++ s) = s := by
  induction text with
  | nil => cases s <;> rfl
  | cons c text ih =>
    have positive := c.utf8Size_pos
    obtain ⟨n, hn⟩ : ∃ n, c.utf8Size + byteLength text = n + 1 :=
      ⟨c.utf8Size + byteLength text - 1, by omega⟩
    have left : n + 1 - c.utf8Size = byteLength text := by omega
    rw [byteLength_cons, hn, List.cons_append, dropBytes, left, ih]

/-- An offset that is the end of a text at the front is reached after that text. -/
theorem Input.upToOffset_append (p : Place) (text s : List Char) :
    upToOffset (p.offset + byteLength text) p (text ++ s) = ⟨p.after text, s⟩ := by
  induction text generalizing p with
  | nil =>
    cases s with
    | nil => rfl
    | cons c s => exact if_neg (Nat.lt_irrefl _)
  | cons c text ih =>
    have positive := c.utf8Size_pos
    have offset : (p.afterChar c).offset = p.offset + c.utf8Size := by
      unfold Place.afterChar
      split <;> rfl
    rw [byteLength_cons, List.cons_append, upToOffset, if_pos (by omega), ← Nat.add_assoc,
      ← offset, ih]
    rfl

/-- `j` is what is left of `i` after some text, with the place after that text. -/
def Input.Reaches (i j : Input) : Prop :=
  ∃ text, i.rest = text ++ j.rest ∧ j.place = i.place.after text

namespace Input.Reaches

variable {i j k : Input}

theorem refl (i : Input) : i.Reaches i := ⟨[], rfl, rfl⟩

theorem trans (h : i.Reaches j) (h' : j.Reaches k) : i.Reaches k := by
  obtain ⟨a, rest, place⟩ := h
  obtain ⟨b, rest', place'⟩ := h'
  refine ⟨a ++ b, ?_, ?_⟩
  · rw [rest, rest', List.append_assoc]
  · rw [place', place, Place.after_append]

theorem char (p : Place) (c : Char) (s : List Char) :
    Reaches ⟨p, c :: s⟩ ⟨p.afterChar c, s⟩ := ⟨[c], rfl, rfl⟩

theorem bytes (p : Place) {t : List Char} (inLine : '\n' ∉ t) (s : List Char) :
    Reaches ⟨p, t ++ s⟩ ⟨p.afterBytes (byteLength t), s⟩ :=
  ⟨t, rfl, (p.after_eq_afterBytes inLine).symm⟩

/-- One byte on, past a character that is one byte long and no newline. -/
theorem byte (p : Place) {c : Char} (short : c.utf8Size = 1) (other : c ≠ '\n') (s : List Char) :
    Reaches ⟨p, c :: s⟩ ⟨p.afterBytes 1, s⟩ := by
  have reached := bytes p (t := [c]) (by simpa using Ne.symm other) s
  rw [show byteLength [c] = 1 from short] at reached
  exact reached

theorem afterChars (q : Char → Bool) (p : Place) (s : List Char) :
    Reaches ⟨p, s⟩ (Input.afterChars q p s) := by
  induction s generalizing p with
  | nil => exact refl _
  | cons c s ih =>
    rw [Input.afterChars]
    split
    · exact (char p c s).trans (ih _)
    · exact refl _

theorem skipBlanks (i : Input) : i.Reaches i.skipBlanks := afterChars isBlank i.place i.rest

theorem afterRun {q : Char → Bool} (short : ∀ c, q c = true → c.utf8Size = 1 ∧ c ≠ '\n')
    (p : Place) (s : List Char) : Reaches ⟨p, s⟩ (Input.afterRun q p s) := by
  induction s generalizing p with
  | nil => exact refl _
  | cons c s ih =>
    rw [Input.afterRun]
    split
    · rename_i inside
      exact (byte p (short c inside).1 (short c inside).2 s).trans (ih _)
    · exact refl _

end Input.Reaches

/-! ### Readers -/

/-- Readers of an input `i` and of its characters find the same value and leave the same rest. -/
inductive Agrees {k : Nat} {α : Type} {s : List Char} {i₀ : Input} (i : Input) :
    Reading k α s → Advance k α i₀ → Prop
  | intro {v : α} {j : Input} {u : j.rest.length + k ≤ s.length}
      {u' : j.rest.length + k ≤ i₀.rest.length} (reached : i.Reaches j) :
      Agrees i ⟨v, j.rest, u⟩ ⟨v, j, u'⟩

/-- A reader that may find nothing finds the same in an input `i` as in its characters. -/
inductive Finds {k : Nat} {α : Type} {s : List Char} {i₀ : Input} (i : Input) :
    Option (Reading k α s) → Option (Advance k α i₀) → Prop
  | none : Finds i none none
  | some {x : Reading k α s} {y : Advance k α i₀} (same : Agrees i x y) :
      Finds i (some x) (some y)

/-- A reader that may fail comes to the same in an input `i` as in its characters; if it fails, then
at a place that `i` leads to. -/
inductive Retraces {k : Nat} {α : Type} {s : List Char} {i₀ : Input} (i : Input) :
    Except Failure (Reading k α s) → Except Fault (Advance k α i₀) → Prop
  | ok {x : Reading k α s} {y : Advance k α i₀} (same : Agrees i x y) : Retraces i (.ok x) (.ok y)
  | error {cause : Cause} {j : Input} (reached : i.Reaches j) :
      Retraces i (.error ⟨cause, j.rest.length⟩) (.error ⟨cause, j.place⟩)

section

variable {k l : Nat} {α β : Type} {r s : List Char} {i i₀ i₁ j : Input}

namespace Agrees

variable {x : Reading k α s} {y : Advance k α i₀}

theorem of_reaches (h : Agrees j x y) (reached : i.Reaches j) : Agrees i x y := by
  cases h with
  | intro onward => exact .intro (reached.trans onward)

theorem nothing {v : α} (reached : i.Reaches j) :
    Agrees i (Reading.nothing v j.rest) (Advance.nothing v j) := .intro reached

theorem map (f : α → β) (h : Agrees i x y) : Agrees i (x.map f) (y.map f) := by
  cases h with
  | intro reached => exact .intro reached

theorem loosen (h : Agrees i x y) : Agrees i x.loosen y.loosen := by
  cases h with
  | intro reached => exact .intro reached

theorem past (h : Agrees i x y) {u : s.length + 1 ≤ r.length}
    {u' : i₀.rest.length + 1 ≤ i₁.rest.length} : Agrees i (x.past u) (y.past u') := by
  cases h with
  | intro reached => exact .intro reached

theorem skipping (h : Agrees i x y) {u : s.length ≤ r.length}
    {u' : i₀.rest.length ≤ i₁.rest.length} : Agrees i (x.skipping u) (y.skipping u') := by
  cases h with
  | intro reached => exact .intro reached

theorem cons {p q : Place} {c : Char} {x : Reading k α s} {y : Advance k α ⟨q, s⟩}
    (h : Agrees i x y) : Agrees i (x.cons c) (y.cons (p := p) c) := by
  cases h with
  | intro reached => exact .intro reached

end Agrees

namespace Finds

variable {x : Option (Reading k α s)} {y : Option (Advance k α i₀)}

theorem cases (h : Finds i x y) : (x = Option.none ∧ y = Option.none) ∨
    ∃ v j u u', i.Reaches j ∧ x = Option.some ⟨v, j.rest, u⟩ ∧ y = Option.some ⟨v, j, u'⟩ := by
  cases h with
  | none => exact .inl ⟨rfl, rfl⟩
  | some same =>
    cases same with
    | intro reached => exact .inr ⟨_, _, _, _, reached, rfl, rfl⟩

theorem of_reaches (h : Finds j x y) (reached : i.Reaches j) : Finds i x y := by
  cases h with
  | none => exact .none
  | some same => exact .some (same.of_reaches reached)

theorem map (f : α → β) (h : Finds i x y) :
    Finds i (x.map (Reading.map f)) (y.map (Advance.map f)) := by
  cases h with
  | none => exact .none
  | some same => exact .some (same.map f)

theorem past (h : Finds i x y) {u : s.length + 1 ≤ r.length}
    {u' : i₀.rest.length + 1 ≤ i₁.rest.length} :
    Finds i (Text.past u x) (Tracked.past u' y) := by
  cases h with
  | none => exact .none
  | some same => exact .some same.past

theorem skipping (h : Finds i x y) {u : s.length ≤ r.length}
    {u' : i₀.rest.length ≤ i₁.rest.length} :
    Finds i (Text.skipping u x) (Tracked.skipping u' y) := by
  cases h with
  | none => exact .none
  | some same => exact .some same.skipping

theorem orElse {x' : Option (Reading k α s)} {y' : Option (Advance k α i₀)} (h : Finds i x y)
    (h' : Finds i x' y') : Finds i (x <|> x') (y <|> y') := by
  cases h with
  | none => exact h'
  | some same => exact .some same

/-- One reader after another. -/
theorem bind {f : Reading k α s → Option (Reading l β r)}
    {g : Advance k α i₀ → Option (Advance l β i₁)} (h : Finds i x y)
    (next : ∀ v j u u', i.Reaches j → Finds j (f ⟨v, j.rest, u⟩) (g ⟨v, j, u'⟩)) :
    Finds i (x >>= f) (y >>= g) := by
  cases h with
  | none => exact .none
  | some same =>
    cases same with
    | intro reached => exact (next _ _ _ _ reached).of_reaches reached

end Finds

namespace Retraces

variable {x : Except Failure (Reading k α s)} {y : Except Fault (Advance k α i₀)}

/-- The two readers are told the same word, each of its own. -/
theorem apart {f : String → Except Failure (Reading k α s)}
    {g : String → Except Fault (Advance k α i₀)} (w : String)
    (h : ∀ v, v = w → Retraces i (f w) (g v)) : Retraces i (f w) (g w) := h w rfl

/-- A value that is found without reading on. -/
theorem here {v : α} {u : i.rest.length + k ≤ s.length} {u' : i.rest.length + k ≤ i₀.rest.length} :
    Retraces i (.ok ⟨v, i.rest, u⟩) (.ok ⟨v, i, u'⟩) := .ok (.intro (.refl i))

/-- A value that is found after the blanks. -/
theorem afterBlanks {v : α} : Retraces i
    (.ok ⟨v, skipBlanks i.rest, skipBlanks_length_le i.rest⟩ : Except Failure (Reading 0 α i.rest))
    (.ok ⟨v, i.skipBlanks, i.skipBlanks_length_le⟩ : Except Fault (Advance 0 α i)) := by
  have skipped := Input.Reaches.skipBlanks i
  simp only [← Input.rest_skipBlanks]
  exact .ok (.intro skipped)

theorem fail (cause : Cause) (i : Input) :
    Retraces i (fail cause i.rest : Except Failure (Reading k α s))
      (failAt cause i : Except Fault (Advance k α i₀)) := .error (.refl i)

theorem of_reaches (h : Retraces j x y) (reached : i.Reaches j) : Retraces i x y := by
  cases h with
  | ok same => exact .ok (same.of_reaches reached)
  | error onward => exact .error (reached.trans onward)

/-- One reader after another. -/
theorem bind {f : Reading k α s → Except Failure (Reading l β r)}
    {g : Advance k α i₀ → Except Fault (Advance l β i₁)} (h : Retraces i x y)
    (next : ∀ v j u u', i.Reaches j → Retraces j (f ⟨v, j.rest, u⟩) (g ⟨v, j, u'⟩)) :
    Retraces i (x >>= f) (y >>= g) := by
  cases h with
  | ok same =>
    cases same with
    | intro reached => exact (next _ _ _ _ reached).of_reaches reached
  | error reached => exact .error reached

theorem map {f : Reading k α s → Reading l β r} {g : Advance k α i₀ → Advance l β i₁}
    (h : Retraces i x y) (same : ∀ {x y}, Agrees i x y → Agrees i (f x) (g y)) :
    Retraces i (x.map f) (y.map g) := by
  cases h with
  | ok agreed => exact .ok (same agreed)
  | error reached => exact .error reached

theorem past (h : Retraces i x y) {u : s.length + 1 ≤ r.length}
    {u' : i₀.rest.length + 1 ≤ i₁.rest.length} :
    Retraces i (Text.past u x) (Tracked.past u' y) := h.map fun same => same.past

theorem skipping (h : Retraces i x y) {u : s.length ≤ r.length}
    {u' : i₀.rest.length ≤ i₁.rest.length} :
    Retraces i (Text.skipping u x) (Tracked.skipping u' y) := h.map fun same => same.skipping

theorem toOption (h : Retraces i x y) : Finds i x.toOption y.toOption := by
  cases h with
  | ok same => exact .some same
  | error reached => exact .none

end Retraces

end

/-! ### Lexemes -/

namespace Tracked

theorem word?_finds {w : String} (inLine : '\n' ∉ w.toList) (i : Input) :
    Finds i (Text.word? w i.rest) (word? w i) := by
  obtain ⟨p, s⟩ := i
  obtain ⟨x, hx⟩ : ∃ x, Text.word? w s = x := ⟨_, rfl⟩
  rcases x with _ | ⟨_, r, u⟩
  · have absent : ¬ startsWith w s = true := by simp [startsWith, hx]
    show Finds _ (Text.word? w s) _
    rw [hx, word?, dif_neg absent]
    exact .none
  · have found : plain (Text.word? w s) = some ((), r) := by rw [hx]; rfl
    obtain ⟨-, rfl⟩ := plain_word?_eq_some.mp found
    have present : startsWith w (w.toList ++ r) = true := by simp [startsWith, hx]
    have after : Input.afterBytes w.utf8ByteSize ⟨p, w.toList ++ r⟩ =
        ⟨p.afterBytes w.utf8ByteSize, r⟩ := by
      rw [Input.afterBytes, ← byteLength_toList, dropBytes_append]
    have reached : Input.Reaches ⟨p, w.toList ++ r⟩ ⟨p.afterBytes w.utf8ByteSize, r⟩ :=
      byteLength_toList w ▸ Input.Reaches.bytes p inLine r
    show Finds _ (Text.word? w (w.toList ++ r)) _
    rw [hx, word?, dif_pos present]
    simp only [after]
    exact .some (.intro reached)

theorem keyword?_finds {w : String} (inLine : '\n' ∉ w.toList) (i : Input) :
    Finds i (Template.keyword? w i.rest) (keyword? w i) := by
  unfold Template.keyword? keyword?
  rcases (word?_finds inLine i).cases with ⟨hx, hy⟩ | ⟨v, j, u, u', reached, hx, hy⟩
  · rw [hx, hy]
    exact .none
  · rw [hx, hy]
    dsimp only
    split
    · exact .none
    · exact .some (.intro reached)

theorem spaced?_finds {w : String} (inLine : '\n' ∉ w.toList) (i : Input) :
    Finds i (Template.spaced? w i.rest) (spaced? w i) := by
  have found := word?_finds inLine i.skipBlanks
  rw [Input.rest_skipBlanks] at found
  exact found.skipping.of_reaches (.skipBlanks i)

theorem spacedKeyword?_finds {w : String} (inLine : '\n' ∉ w.toList) (i : Input) :
    Finds i (Template.spacedKeyword? w i.rest) (spacedKeyword? w i) := by
  have found := keyword?_finds inLine i.skipBlanks
  rw [Input.rest_skipBlanks] at found
  exact found.skipping.of_reaches (.skipBlanks i)

theorem demand_retraces {w : String} (inLine : '\n' ∉ w.toList) (i : Input) :
    Retraces i (Template.demand w i.rest) (demand w i) := by
  unfold Template.demand demand
  rcases (word?_finds inLine i).cases with ⟨hx, hy⟩ | ⟨v, j, u, u', reached, hx, hy⟩
  · rw [hx, hy]
    dsimp only
    split
    · exact .fail _ i
    · exact .fail _ i
  · rw [hx, hy]
    exact .ok (.intro reached)

theorem demandSpaced_retraces {w : String} (inLine : '\n' ∉ w.toList) (i : Input) :
    Retraces i (Template.demandSpaced w i.rest) (demandSpaced w i) := by
  have tracked := demand_retraces inLine i.skipBlanks
  rw [Input.rest_skipBlanks] at tracked
  exact tracked.skipping.of_reaches (.skipBlanks i)

theorem tagEnd_retraces {closer : String} (inLine : '\n' ∉ closer.toList) (i : Input) :
    Retraces i (Template.tagEnd closer i.rest) (tagEnd closer i) := by
  unfold Template.tagEnd tagEnd
  rcases (spaced?_finds (w := "-") (by decide) i).cases with
    ⟨hx, hy⟩ | ⟨v, j, u, u', reached, hx, hy⟩
  · rw [hx, hy]
    exact (demandSpaced_retraces inLine i).bind fun _ j _ _ _ => .here
  · rw [hx, hy]
    refine Retraces.of_reaches ?_ reached
    exact (demand_retraces inLine j).past.bind fun _ j _ _ _ => .here

/-! ### Names -/

/-- The characters of names and numbers are one byte long and no newlines. -/
theorem isNameChar_short {c : Char} (h : isNameChar c = true) : c.utf8Size = 1 ∧ c ≠ '\n' := by
  simp only [isNameChar, isNameStart, isDigit, Bool.or_eq_true, Bool.and_eq_true,
    decide_eq_true_eq, beq_iff_eq, Char.le_def] at h
  constructor
  · refine if_pos ?_
    rcases h with ((⟨-, h⟩ | ⟨-, h⟩) | rfl) | ⟨-, h⟩
    · exact UInt32.le_trans h (by decide)
    · exact UInt32.le_trans h (by decide)
    · decide
    · exact UInt32.le_trans h (by decide)
  · rintro rfl
    revert h
    decide

theorem isDigit_short {c : Char} (h : isDigit c = true) : c.utf8Size = 1 ∧ c ≠ '\n' :=
  isNameChar_short (isNameChar_of_isDigit h)

theorem takeAll_agrees {q : Char → Bool} (short : ∀ {c}, q c = true → c.utf8Size = 1 ∧ c ≠ '\n')
    (p : Place) (s : List Char) : Agrees ⟨p, s⟩ (Text.takeAll q s) (takeAll q p s) := by
  have reached := Input.Reaches.afterRun (fun _ => short) p s
  unfold Text.takeAll takeAll
  simp only [← Input.rest_afterRun q p s]
  exact .intro reached

theorem takeSome_agrees {q : Char → Bool} (short : ∀ {c}, q c = true → c.utf8Size = 1 ∧ c ≠ '\n')
    (p : Place) {c : Char} (s : List Char) (h : q c = true) :
    Agrees ⟨p, c :: s⟩ (Text.takeSome q c s h) (takeSome q p c s h) := by
  have reached := Input.Reaches.afterRun (fun _ => short) p (c :: s)
  unfold Text.takeSome takeSome
  simp only [← Input.rest_afterRun q p (c :: s)]
  exact .intro reached

theorem nameHere_retraces (i : Input) : Retraces i (Template.nameHere i.rest) (nameHere i) := by
  obtain ⟨p, s⟩ := i
  unfold Template.nameHere nameHere
  cases s with
  | nil => exact .fail _ ⟨p, []⟩
  | cons c s =>
    dsimp only
    split
    · exact .ok ((takeSome_agrees isNameChar_short p s _).map _)
    · split
      · exact .fail _ ⟨p, c :: s⟩
      · exact .fail _ ⟨p, c :: s⟩

theorem name_retraces (i : Input) : Retraces i (Template.name i.rest) (name i) := by
  have tracked := nameHere_retraces i.skipBlanks
  rw [Input.rest_skipBlanks] at tracked
  exact tracked.skipping.of_reaches (.skipBlanks i)

theorem name?_finds (i : Input) : Finds i (Template.name? i.rest) (name? i) :=
  (name_retraces i).toOption

/-- One byte on, past a dot or a bracket. -/
theorem reaches_sign {c : Char} (short : c.utf8Size = 1 ∧ c ≠ '\n') (p : Place) (s : List Char) :
    Input.Reaches ⟨p, c :: s⟩ ⟨p.afterBytes 1, s⟩ := .byte p short.1 short.2 s

theorem dottedTail_agrees (i : Input) :
    Agrees i (Template.dottedTail i.rest) (dottedTail i) := by
  induction hn : i.rest.length using Nat.strongRecOn generalizing i with
  | ind n ih =>
    subst hn
    obtain ⟨p, s⟩ := i
    show Agrees _ (Template.dottedTail s) _
    by_cases dot : ∃ c r, s = '.' :: c :: r
    · obtain ⟨c, r, rfl⟩ := dot
      rw [Template.dottedTail, dottedTail]
      split
      · rename_i hc
        have part := takeSome_agrees isNameChar_short (p.afterBytes 1) r hc
        generalize Text.takeSome isNameChar c r hc = x at part ⊢
        generalize takeSome isNameChar (p.afterBytes 1) c r hc = y at part ⊢
        cases part with
        | @intro _ j u u' reached =>
          have tail := ih j.rest.length (Nat.lt_of_lt_of_le u' (Nat.le_succ _)) j rfl
          refine Agrees.of_reaches ?_ ((reaches_sign (by decide) p (c :: r)).trans reached)
          exact (tail.past.map _).cons.loosen
      · exact .nothing (.refl _)
    · rw [Template.dottedTail.eq_2 s (fun c r h => dot ⟨c, r, h⟩),
        dottedTail.eq_2 ⟨p, s⟩ (fun _ c r h => dot ⟨c, r, (Input.mk.inj h).2⟩)]
      exact .nothing (.refl ⟨p, s⟩)

theorem dottedName_retraces (i : Input) :
    Retraces i (Template.dottedName i.rest) (dottedName i) := by
  unfold Template.dottedName dottedName
  refine (name_retraces i).bind fun first j _ _ _ => ?_
  exact .ok ((dottedTail_agrees j).past.map _)

/-! ### Strings and numbers -/

theorem quotedBody?_finds (quote : Char) (p : Place) (s : List Char) :
    Finds ⟨p, s⟩ (Template.quotedBody? quote s) (quotedBody? quote p s) := by
  induction s using Template.quotedBody?.induct quote generalizing p with
  | case1 => exact .none
  | case2 =>
    rw [Template.quotedBody?, quotedBody?, if_pos rfl, if_pos rfl]
    exact .some (Agrees.cons (.nothing (.char p quote [])))
  | case3 c other =>
    rw [Template.quotedBody?, quotedBody?, if_neg other, if_neg other]
    exact .none
  | case4 e s =>
    rw [Template.quotedBody?, quotedBody?, if_pos rfl, if_pos rfl]
    exact .some (Agrees.cons (.nothing (.char p quote (e :: s))))
  | case5 e s other ih =>
    rw [Template.quotedBody?, quotedBody?, if_neg other, if_neg other, if_pos rfl, if_pos rfl]
    have found := ih ((p.afterChar '\\').afterChar e)
    generalize Template.quotedBody? quote s = x at found ⊢
    generalize quotedBody? quote ((p.afterChar '\\').afterChar e) s = y at found ⊢
    cases found with
    | none => exact .none
    | some same =>
      refine .some (Agrees.of_reaches ?_ ((Input.Reaches.char p _ _).trans (.char _ e s)))
      exact (same.map _).cons.cons
  | case6 c e s other notSlash ih =>
    rw [Template.quotedBody?, quotedBody?, if_neg other, if_neg other, if_neg notSlash,
      if_neg notSlash]
    have found := ih (p.afterChar c)
    generalize Template.quotedBody? quote (e :: s) = x at found ⊢
    generalize quotedBody? quote (p.afterChar c) (e :: s) = y at found ⊢
    cases found with
    | none => exact .none
    | some same => exact .some (Agrees.of_reaches (same.map _).cons (.char p c (e :: s)))

theorem ne_newline_of_isQuote {c : Char} (h : isQuote c = true) : c ≠ '\n' := by
  rintro rfl
  cases h

theorem quoted_retraces {p : Place} {q : Char} (quote : isQuote q = true) (s : List Char) :
    Retraces ⟨p, q :: s⟩ (Template.quoted (q :: s)) (quoted ⟨p, q :: s⟩) := by
  unfold Template.quoted quoted
  have opened : Input.Reaches ⟨p, q :: s⟩ ⟨p.afterBytes q.utf8Size, s⟩ :=
    .bytes p (t := [q]) (by simpa using Ne.symm (ne_newline_of_isQuote quote)) s
  have found := quotedBody?_finds q (p.afterBytes q.utf8Size) s
  dsimp only
  generalize Template.quotedBody? q s = x at found ⊢
  generalize quotedBody? q (p.afterBytes q.utf8Size) s = y at found ⊢
  cases found with
  | none => exact .fail _ ⟨p, q :: s⟩
  | some same => exact .ok (((same.map _).cons).of_reaches opened)

theorem fraction_agrees (i : Input) : Agrees i (Template.fraction i.rest) (fraction i) := by
  obtain ⟨p, s⟩ := i
  show Agrees _ (Template.fraction s) _
  by_cases dot : ∃ c r, s = '.' :: c :: r
  · obtain ⟨c, r, rfl⟩ := dot
    rw [Template.fraction, fraction]
    split
    · rename_i digit
      have run := takeSome_agrees isDigit_short (p.afterBytes 1) r digit
      exact (run.map _).cons.loosen.of_reaches (reaches_sign (by decide) p (c :: r))
    · exact .nothing (.refl _)
  · rw [Template.fraction.eq_2 s (fun c r h => dot ⟨c, r, h⟩),
      fraction.eq_2 ⟨p, s⟩ (fun _ c r h => dot ⟨c, r, (Input.mk.inj h).2⟩)]
    exact .nothing (.refl ⟨p, s⟩)

theorem numberTail_retraces (negative : Bool) (first : Char) (p : Place) (s : List Char) :
    Retraces ⟨p, s⟩ (Template.numberTail negative first s) (numberTail negative first p s) := by
  have digits := takeAll_agrees isDigit_short p s
  unfold Template.numberTail numberTail
  generalize Text.takeAll isDigit s = x at digits ⊢
  generalize takeAll isDigit p s = y at digits ⊢
  cases digits with
  | @intro more j u u' reached =>
    have part := fraction_agrees j
    dsimp only
    generalize Template.fraction j.rest = x at part ⊢
    generalize fraction j = y at part ⊢
    cases part with
    | @intro part j' u u' onward =>
      refine Retraces.of_reaches ?_ (reached.trans onward)
      rcases part with _ | ds
      · dsimp only [Reading.skipping, Advance.skipping]
        cases integer? negative (first :: more) with
        | none => exact .fail _ j'
        | some n => exact .here
      · dsimp only [Reading.skipping, Advance.skipping]
        cases float? negative (first :: more) ds with
        | none => exact .fail _ j'
        | some n => exact .here

theorem number?_retraces (i : Input) :
    Option.Rel (Retraces i) (Template.number? i.rest) (number? i) := by
  obtain ⟨p, s⟩ := i
  show Option.Rel _ (Template.number? s) _
  by_cases minus : ∃ c r, s = '-' :: c :: r
  · obtain ⟨c, r, rfl⟩ := minus
    rw [Template.number?, number?]
    split
    · rename_i digit
      have passed := (reaches_sign (c := '-') (by decide) p (c :: r)).trans
        (reaches_sign (isDigit_short digit) (p.afterBytes 1) r)
      refine .some (Retraces.of_reaches ?_ passed)
      exact (numberTail_retraces true c _ r).map fun same => same.cons.cons
    · exact .none
  · cases s with
    | nil => exact .none
    | cons c r =>
      rw [Template.number?.eq_2 c r (fun d t h h' => minus ⟨d, t, by rw [h, h']⟩),
        number?.eq_2 p c r (fun d t h h' => minus ⟨d, t, by rw [h, h']⟩)]
      split
      · rename_i digit
        exact .some (((numberTail_retraces false c _ r).map fun same => same.cons).of_reaches
          (reaches_sign (isDigit_short digit) p r))
      · exact .none

end Tracked

end TagCompiler.Template
