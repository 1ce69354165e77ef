import TagCompiler.Template.Document
/-!
# Readers without their progress proofs

A reader returns what it found together with the fact that it moved on, which its recursion needs
and its meaning does not. `plain` drops that fact. The small readers are described here by what
they accept: a word, a name or a keyword is read exactly where it stands and cannot go on.
-/

namespace TagCompiler

theorem ok_of_bind {ε α β : Type} {x : Except ε α} {f : α → Except ε β} {b : β}
    (h : (x >>= f) = .ok b) : ∃ a, x = .ok a ∧ f a = .ok b := by
  cases x with
  | error e => cases h
  | ok a => exact ⟨a, rfl, h⟩

end TagCompiler

namespace TagCompiler.Text

section
variable {f : Type → Type} [Functor f] {k : Nat} {α : Type} {r s : List Char}

/-- The value that was read and the rest of the input. -/
def plain (x : f (Reading k α s)) : f (α × List Char) := (fun y => (y.value, y.rest)) <$> x

variable [LawfulFunctor f]

@[simp] theorem plain_past (h : r.length + 1 ≤ s.length) (x : f (Reading k α r)) :
    plain (past h x) = plain x := by
  simp only [plain, past, Functor.map_map]
  rfl

@[simp] theorem plain_skipping (h : r.length ≤ s.length) (x : f (Reading k α r)) :
    plain (skipping h x) = plain x := by
  simp only [plain, skipping, Functor.map_map]
  rfl

end

variable {j k : Nat} {α β ε : Type} {r s t : List Char}

@[simp] theorem plain_ok (x : Reading k α s) :
    plain (Except.ok x : Except ε _) = .ok (x.value, x.rest) := rfl

@[simp] theorem plain_error (e : ε) :
    plain (Except.error e : Except ε (Reading k α s)) = .error e := rfl

@[simp] theorem plain_some (x : Reading k α s) : plain (some x) = some (x.value, x.rest) := rfl

@[simp] theorem plain_none : plain (none : Option (Reading k α s)) = none := rfl

theorem isSome_plain (x : Option (Reading k α s)) : (plain x).isSome = x.isSome := by
  cases x <;> rfl

theorem plain_bind {x : Except ε (Reading k α r)} {g : Reading k α r → Except ε (Reading j β s)}
    {g' : α × List Char → Except ε (β × List Char)}
    (h : ∀ v t u, plain (g ⟨v, t, u⟩) = g' (v, t)) : plain (x >>= g) = plain x >>= g' := by
  rcases x with e | ⟨v, t, u⟩
  · rfl
  · exact h v t u

theorem plain_past_bind {u : r.length + 1 ≤ t.length} {x : Except ε (Reading k α r)}
    {g : Reading 1 α t → Except ε (Reading j β s)} {g' : α × List Char → Except ε (β × List Char)}
    (h : ∀ v t u, plain (g ⟨v, t, u⟩) = g' (v, t)) : plain (past u x >>= g) = plain x >>= g' := by
  rw [plain_bind h, plain_past]

theorem plain_skipping_bind {u : r.length ≤ t.length} {x : Except ε (Reading k α r)}
    {g : Reading k α t → Except ε (Reading j β s)} {g' : α × List Char → Except ε (β × List Char)}
    (h : ∀ v t u, plain (g ⟨v, t, u⟩) = g' (v, t)) :
    plain (skipping u x >>= g) = plain x >>= g' := by
  rw [plain_bind h, plain_skipping]

/-- What was used up is no longer than it was. -/
theorem length_of_plain {x : Except ε (Reading k α s)} {v : α} (h : plain x = .ok (v, r)) :
    r.length + k ≤ s.length := by
  rcases x with e | x
  · cases h
  · cases h
    exact x.used

theorem length_of_plain_some {x : Option (Reading k α s)} {v : α} (h : plain x = some (v, r)) :
    r.length + k ≤ s.length := by
  rcases x with _ | x
  · cases h
  · cases h
    exact x.used

/-! ### Words -/

theorem plain_after?_eq_some {w s r : List Char} {u : Unit} :
    plain (after? w s) = some (u, r) ↔ s = w ++ r := by
  induction w generalizing s with
  | nil => simp [after?, Reading.nothing, eq_comm]
  | cons c w ih =>
    cases s with
    | nil => simp [after?]
    | cons d s =>
      rw [after?]
      split
      · rename_i h
        subst h
        rw [List.cons_append, List.cons.injEq, ← ih]
        rcases after? w s with _ | x <;> simp [plain, Reading.cons, Reading.loosen]
      · rename_i h
        simp [Ne.symm h]

theorem plain_word?_eq_some {w : String} {s r : List Char} {u : Unit} :
    plain (word? w s) = some (u, r) ↔ w ≠ "" ∧ s = w.toList ++ r := by
  unfold word?
  cases hw : w.toList with
  | nil =>
    have empty : w = "" := by simpa using hw
    simp [empty]
  | cons c v =>
    have nonempty : w ≠ "" := by
      rintro rfl
      cases hw
    cases s with
    | nil => simp
    | cons d s =>
      dsimp only
      split
      · rename_i h
        subst h
        rw [List.cons_append, List.cons.injEq, ← plain_after?_eq_some (u := u)]
        rcases after? v s with _ | x <;> simp [plain, Reading.cons, nonempty]
      · rename_i h
        simp [Ne.symm h]

theorem suffix_of_word? {w : String} {s r : List Char} {u : Unit}
    (h : plain (word? w s) = some (u, r)) : r <:+ s :=
  ⟨w.toList, (plain_word?_eq_some.mp h).2.symm⟩

theorem startsWith_iff {w : String} (nonempty : w ≠ "") {s : List Char} :
    startsWith w s = true ↔ w.toList <+: s := by
  have found : startsWith w s = true ↔ ∃ r, plain (word? w s) = some ((), r) := by
    unfold startsWith
    rcases word? w s with _ | x <;> simp
  rw [found]
  constructor
  · rintro ⟨r, h⟩
    exact ⟨r, (plain_word?_eq_some.mp h).2.symm⟩
  · rintro ⟨r, h⟩
    exact ⟨r, plain_word?_eq_some.mpr ⟨nonempty, h.symm⟩⟩

theorem plain_upTo?_nil (w : List Char) :
    plain (upTo? w []) = (plain (after? w [])).map fun p => ([], p.2) := by
  rw [upTo?]
  rcases after? w [] with _ | x <;> rfl

theorem plain_upTo?_cons (w : List Char) (c : Char) (s : List Char) : plain (upTo? w (c :: s)) =
    (match plain (after? w (c :: s)) with
    | some (_, r) => some ([], r)
    | none => (plain (upTo? w s)).map fun p => (c :: p.1, p.2)) := by
  rw [upTo?]
  rcases after? w (c :: s) with _ | x
  · rcases upTo? w s with _ | x <;> rfl
  · rfl

theorem eq_of_upTo? {w s v r : List Char} (h : plain (upTo? w s) = some (v, r)) :
    s = v ++ (w ++ r) := by
  induction s generalizing v with
  | nil =>
    rw [plain_upTo?_nil, Option.map_eq_some_iff] at h
    obtain ⟨p, hp, h⟩ := h
    cases h
    rw [List.nil_append]
    exact plain_after?_eq_some.mp hp
  | cons c s ih =>
    rw [plain_upTo?_cons] at h
    split at h
    · rename_i hp
      cases h
      rw [List.nil_append]
      exact plain_after?_eq_some.mp hp
    · obtain ⟨p, hp, h⟩ := Option.map_eq_some_iff.mp h
      cases h
      rw [List.cons_append, ← ih hp]

theorem not_infix_of_upTo? {w s : List Char} (h : plain (upTo? w s) = none) : ¬ w <:+: s := by
  induction s with
  | nil =>
    rw [plain_upTo?_nil, Option.map_eq_none_iff] at h
    rintro ⟨a, b, hw⟩
    have : w = [] := by simp_all
    subst this
    cases h
  | cons c s ih =>
    rw [plain_upTo?_cons] at h
    split at h
    · cases h
    · rename_i hp
      rw [List.infix_cons_iff]
      rintro (⟨r, hr⟩ | hs)
      · rw [plain_after?_eq_some (u := ()) |>.mpr hr.symm] at hp
        cases hp
      · exact ih (Option.map_eq_none_iff.mp h) hs

/-! ### Runs of characters -/

theorem dropWhile_head {p : Char → Bool} (s : List Char) :
    ∀ c ∈ (s.dropWhile p).head?, p c = false := by
  intro c hc
  have := List.head?_dropWhile_not p s
  rw [Option.mem_def.mp hc] at this
  simpa using this

theorem span_append {p : Char → Bool} {w r : List Char} (inside : ∀ c ∈ w, p c = true)
    (outside : ∀ c ∈ r.head?, p c = false) :
    (w ++ r).takeWhile p = w ∧ (w ++ r).dropWhile p = r := by
  rw [List.takeWhile_append_of_pos inside, List.dropWhile_append_of_pos inside]
  cases r with
  | nil => simp
  | cons c r => simp [outside c rfl]

theorem skipBlanks_suffix (s : List Char) : skipBlanks s <:+ s := List.dropWhile_suffix _

theorem skipBlanks_append {b : List Char} (blank : ∀ c ∈ b, isBlank c = true) (s : List Char) :
    skipBlanks (b ++ s) = skipBlanks s := by
  unfold skipBlanks
  rw [List.dropWhile_append_of_pos blank]

theorem skipBlanks_cons {c : Char} (solid : isBlank c = false) (s : List Char) :
    skipBlanks (c :: s) = c :: s := by
  simp [skipBlanks, solid]

theorem skipBlanks_head {s : List Char} : ∀ c ∈ (skipBlanks s).head?, isBlank c = false :=
  dropWhile_head s

theorem skipBlanks_of_head {s : List Char} (solid : ∀ c ∈ s.head?, isBlank c = false) :
    skipBlanks s = s := by
  cases s with
  | nil => rfl
  | cons c s => exact skipBlanks_cons (solid c rfl) s

@[simp] theorem skipBlanks_skipBlanks (s : List Char) : skipBlanks (skipBlanks s) = skipBlanks s :=
  skipBlanks_of_head skipBlanks_head

end TagCompiler.Text

namespace TagCompiler.Template

open Text

variable {k : Nat} {α : Type}

/-! ### Names -/

/-- A name: a letter or an underscore, then any letters, underscores and digits. -/
def isName (n : String) : Bool :=
  match n.toList with
  | [] => false
  | c :: r => isNameStart c && r.all isNameChar

/-- No name goes on at the front of `s`. -/
def EndsName (s : List Char) : Prop := ∀ c ∈ s.head?, isNameChar c = false

theorem all_isNameChar_of_isName {n : String} (h : isName n = true) :
    ∀ c ∈ n.toList, isNameChar c = true := by
  unfold isName at h
  split at h
  · cases h
  · rename_i c r hn
    rw [Bool.and_eq_true, List.all_eq_true] at h
    rw [hn]
    intro d hd
    rcases List.mem_cons.mp hd with rfl | hd
    · exact isNameChar_of_isNameStart h.1
    · exact h.2 d hd

theorem exists_cons_of_isName {n : String} (h : isName n = true) :
    ∃ c r, n.toList = c :: r ∧ isNameStart c = true := by
  unfold isName at h
  split at h
  · cases h
  · rename_i c r hn
    exact ⟨c, r, hn, (Bool.and_eq_true _ _ ▸ h).1⟩

theorem plain_nameHere_eq_ok {s r : List Char} {n : String} :
    plain (nameHere s) = .ok (n, r) ↔ isName n = true ∧ s = n.toList ++ r ∧ EndsName r := by
  constructor
  · intro h
    unfold nameHere at h
    split at h
    · cases h
    · rename_i c t
      split at h
      · rename_i start
        cases h
        refine ⟨?_, ?_, dropWhile_head _⟩
        · simp [isName, takeSome, Reading.map, isNameChar_of_isNameStart start, start]
        · simp [takeSome, Reading.map]
      · split at h <;> cases h
  · rintro ⟨hn, rfl, hr⟩
    obtain ⟨c, t, ht, start⟩ := exists_cons_of_isName hn
    obtain ⟨take, drop⟩ := span_append (all_isNameChar_of_isName hn) hr
    rw [ht, List.cons_append] at take drop
    unfold nameHere
    rw [ht, List.cons_append]
    simp only [start, ↓reduceDIte, plain_ok]
    simp [takeSome, Reading.map, take, drop, ← ht]

theorem plain_keyword? (w : String) (s : List Char) :
    plain (keyword? w s) =
      (plain (word? w s)).filter (fun p => !p.2.head?.any isNameChar) := by
  unfold keyword?
  rcases word? w s with _ | ⟨v, r, h⟩
  · rfl
  · cases hr : r.head?.any isNameChar <;> simp [hr, Option.filter]

theorem plain_keyword?_eq_some {w : String} {s r : List Char} {u : Unit} :
    plain (keyword? w s) = some (u, r) ↔ w ≠ "" ∧ s = w.toList ++ r ∧ EndsName r := by
  rw [plain_keyword?, Option.filter_eq_some_iff, plain_word?_eq_some, and_assoc]
  cases r <;> simp [EndsName]

/-! ### Lexemes -/

theorem plain_spaced? (w : String) (s : List Char) :
    plain (spaced? w s) = plain (word? w (skipBlanks s)) := plain_skipping _ _

theorem plain_spacedKeyword? (w : String) (s : List Char) :
    plain (spacedKeyword? w s) = plain (keyword? w (skipBlanks s)) := plain_skipping _ _

theorem plain_demandSpaced (w : String) (s : List Char) :
    plain (demandSpaced w s) = plain (demand w (skipBlanks s)) := plain_skipping _ _

theorem plain_name (s : List Char) : plain (name s) = plain (nameHere (skipBlanks s)) :=
  plain_skipping _ _

theorem plain_name? (s : List Char) : plain (name? s) = (plain (name s)).toOption := by
  unfold name?
  rcases name s with e | x <;> rfl

theorem plain_demand (w : String) (s : List Char) : plain (demand w s) =
    (match plain (word? w s) with
    | some p => .ok p
    | none =>
      if s.isEmpty then fail (.endOfInput w) s
      else fail (.unexpected ("'" ++ w ++ "'") (String.ofList (s.take w.length))) s) := by
  unfold demand
  rcases word? w s with _ | x
  · cases s.isEmpty <;> rfl
  · rfl

theorem plain_tagEnd (closer : String) (s : List Char) : plain (tagEnd closer s) =
    (match plain (spaced? "-" s) with
    | some (_, r) => do
      let (_, r) ← plain (demand closer r)
      return (true, r)
    | none => do
      let (_, r) ← plain (demandSpaced closer s)
      return (false, r)) := by
  unfold tagEnd
  rcases spaced? "-" s with _ | ⟨_, r, h⟩
  · exact plain_bind fun _ r _ => rfl
  · exact plain_past_bind fun _ r _ => rfl

theorem dottedTail_dot {c : Char} (h : isNameChar c = true) (r : List Char) :
    (dottedTail ('.' :: c :: r)).value =
      String.ofList ((c :: r).takeWhile isNameChar) ::
        (dottedTail ((c :: r).dropWhile isNameChar)).value ∧
    (dottedTail ('.' :: c :: r)).rest = (dottedTail ((c :: r).dropWhile isNameChar)).rest := by
  rw [dottedTail]
  simp only [h, ↓reduceDIte]
  exact ⟨rfl, rfl⟩

/-- A dotted name ends where no dot with a name character after it stands. -/
theorem dottedTail_end {s : List Char} (dot : ∀ c r, s = '.' :: c :: r → isNameChar c = false) :
    (dottedTail s).value = [] ∧ (dottedTail s).rest = s := by
  rw [dottedTail.eq_def]
  split
  · rename_i c r
    rw [dif_neg (by simp [dot c r rfl])]
    exact ⟨rfl, rfl⟩
  · exact ⟨rfl, rfl⟩

theorem plain_dottedName (s : List Char) : plain (dottedName s) = (do
    let (first, r) ← plain (name s)
    return (".".intercalate (first :: (dottedTail r).value), (dottedTail r).rest)) := by
  unfold dottedName
  exact plain_bind fun first r _ => rfl

/-! ### Strings and numbers -/

theorem plain_quotedBody?_cons (q c e : Char) (s : List Char) :
    plain (quotedBody? q (c :: e :: s)) =
    (if c = q then some ([], e :: s)
    else if c = '\\' then (plain (quotedBody? q s)).map fun p => (unescape e :: p.1, p.2)
    else (plain (quotedBody? q (e :: s))).map fun p => (c :: p.1, p.2)) := by
  rw [quotedBody?]
  split
  · rfl
  · split
    · rcases quotedBody? q s with _ | x <;> rfl
    · rcases quotedBody? q (e :: s) with _ | x <;> rfl

theorem plain_quoted (q : Char) (r : List Char) : plain (quoted (q :: r)) =
    (match plain (quotedBody? q r) with
    | some (cs, t) => .ok (String.ofList cs, t)
    | none => fail (.unterminated "string literal") (q :: r)) := by
  unfold quoted
  dsimp only
  rcases quotedBody? q r with _ | x <;> rfl

def sign (negative : Bool) : List Char := if negative then ['-'] else []

/-- The digits after the point, with the point. -/
def pointed : Option (List Char) → List Char
  | none => []
  | some ds => '.' :: ds

/-- The text of a number literal. -/
def numeral (negative : Bool) (whole : List Char) (part : Option (List Char)) : List Char :=
  sign negative ++ whole ++ pointed part

/-- The number that a literal writes, if there is one. -/
def numberOf? (negative : Bool) (whole : List Char) : Option (List Char) → Option Number
  | none => integer? negative whole
  | some ds => float? negative whole ds

theorem plain_numberTail (negative : Bool) (first : Char) (s : List Char) :
    plain (numberTail negative first s) =
    (let whole := first :: s.takeWhile isDigit
    let part := fraction (s.dropWhile isDigit)
    match numberOf? negative whole part.value with
    | some n => .ok (.literal (.number n) .number, part.rest)
    | none => fail (.badNumber (String.ofList (numeral negative whole part.value))) part.rest) := by
  unfold numberTail
  dsimp only [takeAll, Reading.skipping]
  rcases fraction (s.dropWhile isDigit) with ⟨_ | ds, r, h⟩
  · simp only [numberOf?, numeral, pointed, sign, List.append_nil]
    rcases integer? negative (first :: s.takeWhile isDigit) with _ | n <;> rfl
  · simp only [numberOf?, numeral, pointed, sign]
    rcases float? negative (first :: s.takeWhile isDigit) ds with _ | n <;> rfl

theorem pointed_fraction (s : List Char) :
    pointed (fraction s).value ++ (fraction s).rest = s := by
  unfold fraction
  split
  · split
    · simp [pointed, takeSome, Reading.map, Reading.cons, Reading.loosen]
    · rfl
  · rfl

theorem numeral_append (negative : Bool) (first : Char) (s : List Char) :
    numeral negative (first :: s.takeWhile isDigit) (fraction (s.dropWhile isDigit)).value ++
      (fraction (s.dropWhile isDigit)).rest = sign negative ++ first :: s := by
  unfold numeral
  rw [List.append_assoc, pointed_fraction, List.append_assoc, List.cons_append,
    List.takeWhile_append_dropWhile]

theorem plain_number? (s : List Char) : (number? s).map plain =
    (match s with
    | [] => none
    | '-' :: c :: r => if isDigit c then some (plain (numberTail true c r)) else none
    | c :: r => if isDigit c then some (plain (numberTail false c r)) else none) := by
  unfold number?
  split
  · rename_i c r
    show Option.map plain (if isDigit c then _ else _) = if isDigit c then _ else _
    split
    · rcases numberTail true c r with e | x <;> rfl
    · rfl
  · rename_i c r other
    have dispatch : (match c :: r with
        | [] => none
        | '-' :: c :: r => if isDigit c then some (plain (numberTail true c r)) else none
        | c :: r => if isDigit c then some (plain (numberTail false c r)) else none) =
          if isDigit c then some (plain (numberTail false c r)) else none := by
      split
      · rename_i heq
        cases heq
      · rename_i heq
        cases heq
        exact absurd rfl (other _ _ rfl)
      · rename_i heq
        cases heq
        rfl
    rw [dispatch]
    split
    · rcases numberTail false c r with e | x <;> rfl
    · rfl
  · rfl

end TagCompiler.Template
