import TagCompiler.Text.Blank
/-!
Reading from the front of a list of characters.

A `Reading k α s` is a value found at the front of `s`, what is left of `s`, and the fact that at
least `k` characters were used up; `k` is zero or one. Readers that return one can call each other,
and themselves, on what is left: the length of the unread input bounds the recursion. `past` and
`skipping` turn a reading of what is left of `s` into one of `s`, so that in a sequence of readers
every fact is about the input of the first.
-/

namespace TagCompiler.Text

structure Reading (k : Nat) (α : Type) (s : List Char) where
  value : α
  rest : List Char
  used : rest.length + k ≤ s.length

theorem length_dropWhile_le (p : Char → Bool) (s : List Char) :
    (s.dropWhile p).length ≤ s.length := (List.dropWhile_suffix p).length_le

theorem length_dropWhile_lt {p : Char → Bool} {c : Char} (h : p c = true) (s : List Char) :
    ((c :: s).dropWhile p).length + 1 ≤ (c :: s).length := by
  rw [List.dropWhile_cons_of_pos h, List.length_cons]
  exact Nat.succ_le_succ (length_dropWhile_le p s)

namespace Reading

variable {k : Nat} {α β : Type} {r s : List Char}

/-- Reads nothing. -/
def nothing (v : α) (s : List Char) : Reading 0 α s := ⟨v, s, Nat.le_refl _⟩

/-- Reads the first character. -/
def head (v : α) (c : Char) (s : List Char) : Reading 1 α (c :: s) := ⟨v, s, Nat.le_refl _⟩

def map (f : α → β) (x : Reading k α s) : Reading k β s := ⟨f x.value, x.rest, x.used⟩

/-- A reading of the tail, with one more character before it. -/
def cons (c : Char) (x : Reading k α s) : Reading 1 α (c :: s) :=
  ⟨x.value, x.rest, by have := x.used; simp only [List.length_cons]; omega⟩

/-- Forgets that something was used up. -/
def loosen (x : Reading k α s) : Reading 0 α s := ⟨x.value, x.rest, by have := x.used; omega⟩

/-- A reading of what is left of `s` after at least one character. -/
def past (h : r.length + 1 ≤ s.length) (x : Reading k α r) : Reading 1 α s :=
  ⟨x.value, x.rest, by have := x.used; omega⟩

/-- A reading of what is left of `s` after any number of characters. -/
def skipping (h : r.length ≤ s.length) (x : Reading k α r) : Reading k α s :=
  ⟨x.value, x.rest, by have := x.used; omega⟩

end Reading

variable {f : Type → Type} [Functor f] {k : Nat} {α : Type} {r s : List Char}

/-- What a reader finds in what is left of `s` after at least one character. -/
def past (h : r.length + 1 ≤ s.length) (x : f (Reading k α r)) : f (Reading 1 α s) :=
  Reading.past h <$> x

/-- What a reader finds in what is left of `s` after any number of characters. -/
def skipping (h : r.length ≤ s.length) (x : f (Reading k α r)) : f (Reading k α s) :=
  Reading.skipping h <$> x

/-! ### Words -/

/-- The rest of `s` after `w`, if `s` starts with `w`. -/
def after? : (w s : List Char) → Option (Reading 0 Unit s)
  | [], s => some (.nothing () s)
  | _ :: _, [] => none
  | c :: w, d :: s => if c = d then (after? w s).map fun x => (x.cons d).loosen else none

/-- The rest of `s` after the word `w`, if `s` starts with it. The empty word is never found. -/
def word? (w : String) (s : List Char) : Option (Reading 1 Unit s) :=
  match w.toList, s with
  | c :: w, d :: s => if c = d then (after? w s).map (Reading.cons d) else none
  | _, _ => none

/-- Whether `s` starts with the word `w`. -/
def startsWith (w : String) (s : List Char) : Bool := (word? w s).isSome

/-- Splits `s` at the first place where `w` stands: the characters before it, and the rest after
it. -/
def upTo? (w : List Char) : (s : List Char) → Option (Reading 0 (List Char) s)
  | [] => (after? w []).map (Reading.map fun _ => [])
  | c :: s =>
    match after? w (c :: s) with
    | some x => some (x.map fun _ => [])
    | none => (upTo? w s).map fun x => ((x.map (c :: ·)).cons c).loosen

/-! ### Runs of characters -/

/-- How many bytes characters take in UTF-8. -/
def byteLength (s : List Char) : Nat := s.foldr (fun c n => c.utf8Size + n) 0

/-- The longest front part of `s` whose characters satisfy `p`. -/
def takeAll (p : Char → Bool) (s : List Char) : Reading 0 (List Char) s :=
  ⟨s.takeWhile p, s.dropWhile p, length_dropWhile_le p s⟩

/-- The longest front part of `c :: s` whose characters satisfy `p`, as `c` does. -/
def takeSome (p : Char → Bool) (c : Char) (s : List Char) (h : p c = true) :
    Reading 1 (List Char) (c :: s) :=
  ⟨(c :: s).takeWhile p, (c :: s).dropWhile p, length_dropWhile_lt h s⟩

end TagCompiler.Text
