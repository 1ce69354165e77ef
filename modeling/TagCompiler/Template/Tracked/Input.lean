import TagCompiler.Template.Error
import TagCompiler.Text.Reading
/-!
Input with a place.

The readers that report errors read an `Input`: what is left of the source, and the place in the
source where that starts. The place is kept as running counts and moved in two ways only. Going on
by a character counts a newline; going on by bytes stays in the line, and is for text that has no
newline in it. Readers that look ahead, or report an error where they started, still have the input
from before.

An `Advance` is to an `Input` what a `Reading` is to a list of characters.
-/

namespace TagCompiler.Template

open Text

/-- A place: how many bytes of the source stand before it, the number of its line, and how many
bytes stand before that line. -/
structure Place where
  offset : Nat
  line : Nat
  lineStart : Nat
  deriving DecidableEq

namespace Place

def start : Place := ⟨0, 1, 0⟩

/-- The place after the character `c`. -/
def afterChar (p : Place) (c : Char) : Place :=
  let offset := p.offset + c.utf8Size
  if c = '\n' then ⟨offset, p.line + 1, offset⟩ else { p with offset := offset }

/-- The place `n` bytes on in the same line. -/
def afterBytes (p : Place) (n : Nat) : Place := { p with offset := p.offset + n }

def column (p : Place) : Nat := p.offset - p.lineStart + 1

end Place

/-- What is left of `s` after its first `n` bytes. A character that they cut through goes with
them. -/
def dropBytes : Nat → List Char → List Char
  | 0, s => s
  | _ + 1, [] => []
  | n + 1, c :: s => dropBytes (n + 1 - c.utf8Size) s

theorem length_dropBytes_le (n : Nat) (s : List Char) : (dropBytes n s).length ≤ s.length := by
  induction s generalizing n with
  | nil => cases n <;> exact Nat.le_refl _
  | cons c s ih =>
    cases n with
    | zero => exact Nat.le_refl _
    | succ n => exact Nat.le_trans (ih _) (Nat.le_succ _)

/-! ### Inputs -/

structure Input where
  place : Place
  rest : List Char

namespace Input

def ofSource (source : List Char) : Input := ⟨.start, source⟩

def afterBytes (n : Nat) (i : Input) : Input := ⟨i.place.afterBytes n, dropBytes n i.rest⟩

/-- The input after the longest front part of `s` whose characters satisfy `q`. -/
def afterChars (q : Char → Bool) (p : Place) : (s : List Char) → Input
  | [] => ⟨p, []⟩
  | c :: s => if q c then afterChars q (p.afterChar c) s else ⟨p, c :: s⟩

/-- The input after the longest front part of `s` whose characters satisfy `q`, each of them one
byte long and no newline. -/
def afterRun (q : Char → Bool) (p : Place) : (s : List Char) → Input
  | [] => ⟨p, []⟩
  | c :: s => if q c then afterRun q (p.afterBytes 1) s else ⟨p, c :: s⟩

/-- The input from the offset `target` on. -/
def upToOffset (target : Nat) (p : Place) : (s : List Char) → Input
  | [] => ⟨p, []⟩
  | c :: s => if p.offset < target then upToOffset target (p.afterChar c) s else ⟨p, c :: s⟩

theorem rest_afterChars (q : Char → Bool) (p : Place) (s : List Char) :
    (afterChars q p s).rest = s.dropWhile q := by
  induction s generalizing p with
  | nil => rfl
  | cons c s ih =>
    rw [afterChars, List.dropWhile_cons]
    split
    · exact ih _
    · rfl

theorem rest_afterRun (q : Char → Bool) (p : Place) (s : List Char) :
    (afterRun q p s).rest = s.dropWhile q := by
  induction s generalizing p with
  | nil => rfl
  | cons c s ih =>
    rw [afterRun, List.dropWhile_cons]
    split
    · exact ih _
    · rfl

theorem length_upToOffset_le (target : Nat) (p : Place) (s : List Char) :
    (upToOffset target p s).rest.length ≤ s.length := by
  induction s generalizing p with
  | nil => exact Nat.le_refl _
  | cons c s ih =>
    rw [upToOffset]
    split
    · exact Nat.le_trans (ih _) (Nat.le_succ _)
    · exact Nat.le_refl _

/-- The input after the blanks at its front. -/
def skipBlanks (i : Input) : Input := afterChars isBlank i.place i.rest

theorem rest_skipBlanks (i : Input) : i.skipBlanks.rest = Text.skipBlanks i.rest :=
  rest_afterChars _ _ _

theorem skipBlanks_length_le (i : Input) : i.skipBlanks.rest.length ≤ i.rest.length := by
  rw [rest_skipBlanks]
  exact Text.skipBlanks_length_le _

end Input

/-! ### Advances -/

/-- A value found at the front of an input, and the input after it; at least `k` characters were
used up. -/
structure Advance (k : Nat) (α : Type) (i : Input) where
  value : α
  next : Input
  used : next.rest.length + k ≤ i.rest.length

namespace Advance

variable {k : Nat} {α β : Type} {i j : Input}

def nothing (v : α) (i : Input) : Advance 0 α i := ⟨v, i, Nat.le_refl _⟩

def map (f : α → β) (x : Advance k α i) : Advance k β i := ⟨f x.value, x.next, x.used⟩

/-- An advance from the input after the first character. -/
def cons {p q : Place} (c : Char) {s : List Char} (x : Advance k α ⟨q, s⟩) :
    Advance 1 α ⟨p, c :: s⟩ :=
  ⟨x.value, x.next, by have := x.used; simp only [List.length_cons] at *; omega⟩

/-- Forgets that something was used up. -/
def loosen (x : Advance k α i) : Advance 0 α i := ⟨x.value, x.next, by have := x.used; omega⟩

def past (h : j.rest.length + 1 ≤ i.rest.length) (x : Advance k α j) : Advance 1 α i :=
  ⟨x.value, x.next, by have := x.used; omega⟩

def skipping (h : j.rest.length ≤ i.rest.length) (x : Advance k α j) : Advance k α i :=
  ⟨x.value, x.next, by have := x.used; omega⟩

end Advance

namespace Tracked

variable {f : Type → Type} [Functor f] {k : Nat} {α : Type} {i j : Input}

/-- What a reader finds in what is left of `i` after at least one character. -/
def past (h : j.rest.length + 1 ≤ i.rest.length) (x : f (Advance k α j)) : f (Advance 1 α i) :=
  Advance.past h <$> x

/-- What a reader finds in what is left of `i` after any number of characters. -/
def skipping (h : j.rest.length ≤ i.rest.length) (x : f (Advance k α j)) : f (Advance k α i) :=
  Advance.skipping h <$> x

end Tracked

/-! ### Errors -/

/-- Why a template cannot be read, and the place at which that shows. -/
structure Fault where
  cause : Cause
  place : Place
  deriving DecidableEq

/-- Fails at the front of `i`. -/
def failAt {α : Type} (cause : Cause) (i : Input) : Except Fault α := .error ⟨cause, i.place⟩

/-- The error to report for a fault: the text it shows is taken from the source at the offset of the
fault. -/
def Fault.toError (source : List Char) (f : Fault) : SyntaxError where
  line := f.place.line
  column := f.place.column
  fragment := String.ofList ((dropBytes f.place.offset source).take SyntaxError.fragmentLength)
  cause := f.cause

end TagCompiler.Template
