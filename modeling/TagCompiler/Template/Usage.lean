import TagCompiler.Template.Markup
import TagCompiler.Text.NameSet
import TagCompiler.Text.WordChar
/-!
Which macros a template defines and calls, found without reading it as a template.

The source is scanned for tags that look like a definition, an output that starts with a call, or
a call block, so a source that cannot be read has an answer too. Names go on over any word
characters, and those of calls over dots.
-/

namespace TagCompiler.Template

open Text

/-- At least one blank, and the rest after all of them. -/
def blanks? (s : List Char) : Option (Reading 1 Unit s) :=
  match s with
  | [] => none
  | c :: r =>
    if isBlank c then some (((takeAll isBlank r).map fun _ => ()).cons c) else none

/-- A name that starts like one of a template and goes on over the characters of `p`. -/
def scannedName? (p : Char → Bool) (s : List Char) : Option (Reading 1 String s) :=
  match s with
  | [] => none
  | c :: r =>
    if isNameStart c then some (((takeAll p r).map fun cs => String.ofList (c :: cs)).cons c)
    else none

/-- A name with the opening parenthesis after it. -/
def scannedCallee? (p : Char → Bool) (s : List Char) : Option (Reading 1 String s) := do
  let ⟨n, r, h⟩ ← scannedName? p s
  let ⟨_, r, h⟩ ← past h (spaced? "(" r)
  some ⟨n, r, h⟩

def isDottedChar (c : Char) : Bool := isWordChar c || c == '.'

/-- The start of a macro definition. -/
def definitionStart? (s : List Char) : Option (Reading 1 String s) := do
  let ⟨_, r, h⟩ ← tagStart? "\x7b%" s
  let ⟨_, r, h⟩ ← past h (spaced? "macro" r)
  let ⟨_, r, h⟩ ← past h (blanks? r)
  past h (scannedCallee? isWordChar r)

/-- The start of an output that starts with a call. -/
def outputCallStart? (s : List Char) : Option (Reading 1 String s) := do
  let ⟨_, r, h⟩ ← tagStart? "\x7b\x7b" s
  let ⟨_, r, h⟩ := (takeAll isBlank r).past h
  past h (scannedCallee? isDottedChar r)

/-- The parameters of a call block, up to the first closing parenthesis, if there are any. -/
def scannedParameters? (s : List Char) : Option (Reading 0 Unit s) :=
  match spaced? "(" s with
  | none => some (.nothing () s)
  | some ⟨_, r, h⟩ => (past h (upTo? [')'] r)).map fun x => (x.map fun _ => ()).loosen

/-- The start of a call block. -/
def blockCallStart? (s : List Char) : Option (Reading 1 String s) := do
  let ⟨_, r, h⟩ ← tagStart? "\x7b%" s
  let ⟨_, r, h⟩ ← past h (spaced? "call" r)
  let ⟨_, r, h⟩ ← past h (scannedParameters? r)
  let ⟨_, r, h⟩ ← past h (blanks? r)
  past h (scannedCallee? isDottedChar r)

/-- All finds of `p` in `s`, from left to right and not overlapping. -/
def scan (p : (s : List Char) → Option (Reading 1 String s)) (s : List Char) : List String :=
  match s with
  | [] => []
  | c :: r =>
    match p (c :: r) with
    | some ⟨n, r', _⟩ => n :: scan p r'
    | none => scan p r
termination_by s.length
decreasing_by all_goals simp only [List.length_cons] at *; omega

/-- The names found by `p`, other than that of the block a macro was called with. -/
def scanNames (p : (s : List Char) → Option (Reading 1 String s)) (s : List Char) : List String :=
  (scan p s).filter (· != "caller")

structure Usage where
  calls : NameSet
  definitions : NameSet
  deriving DecidableEq

/-- The macros that are called but not defined. -/
def Usage.externals (u : Usage) : NameSet := u.calls.filter fun n => !u.definitions.contains n

/-- Scans a source. -/
def usage (source : String) : Usage :=
  let s := source.toList
  { calls := .ofNames (scanNames outputCallStart? s ++ scanNames blockCallStart? s)
    definitions := .ofNames (scanNames definitionStart? s) }

end TagCompiler.Template
