import TagCompiler.Node.Build
import TagCompiler.Template.Error
import TagCompiler.Text.Reading
/-!
The smallest parts of a template: names, keywords, strings, numbers and tag closers.
-/

namespace TagCompiler.Template

open Text

def isDigit (c : Char) : Bool := '0' ≤ c && c ≤ '9'

def isNameStart (c : Char) : Bool :=
  ('a' ≤ c && c ≤ 'z') || ('A' ≤ c && c ≤ 'Z') || c == '_'

def isNameChar (c : Char) : Bool := isNameStart c || isDigit c

theorem isNameChar_of_isNameStart {c : Char} (h : isNameStart c = true) : isNameChar c = true := by
  simp [isNameChar, h]

theorem isNameChar_of_isDigit {c : Char} (h : isDigit c = true) : isNameChar c = true := by
  simp [isNameChar, h]

/-- The rest after the whole word `w`, which no name character may follow. -/
def keyword? (w : String) (s : List Char) : Option (Reading 1 Unit s) :=
  match word? w s with
  | some r => if r.rest.head?.any isNameChar then none else some r
  | none => none

/-- The rest after `w`, which may stand after blanks. -/
def spaced? (w : String) (s : List Char) : Option (Reading 1 Unit s) :=
  skipping (skipBlanks_length_le s) (word? w (skipBlanks s))

/-- The rest after the whole word `w`, which may stand after blanks. -/
def spacedKeyword? (w : String) (s : List Char) : Option (Reading 1 Unit s) :=
  skipping (skipBlanks_length_le s) (keyword? w (skipBlanks s))

/-- Demands `w` at the front of `s`. -/
def demand (w : String) (s : List Char) : Except Failure (Reading 1 Unit s) :=
  match word? w s with
  | some r => .ok r
  | none =>
    if s.isEmpty then fail (.endOfInput w) s
    else fail (.unexpected ("'" ++ w ++ "'") (String.ofList (s.take w.length))) s

/-- Demands `w` after any blanks. -/
def demandSpaced (w : String) (s : List Char) : Except Failure (Reading 1 Unit s) :=
  skipping (skipBlanks_length_le s) (demand w (skipBlanks s))

/-- The end of a tag. Its value says whether the tag asks for the blanks after it to be
dropped. -/
def tagEnd (closer : String) (s : List Char) : Except Failure (Reading 1 Bool s) := do
  match spaced? "-" s with
  | some ⟨_, r, h⟩ =>
    let ⟨_, r, h⟩ ← past h (demand closer r)
    return ⟨true, r, h⟩
  | none =>
    let ⟨_, r, h⟩ ← demandSpaced closer s
    return ⟨false, r, h⟩

/-! ### Names -/

/-- The characters that are taken for the end of what was being read, and not for the start of a
badly written name. -/
def isPunctuation (c : Char) : Bool := "\x7b\x7d%()[]|,=".toList.contains c

/-- A name at the front of `s`. -/
def nameHere (s : List Char) : Except Failure (Reading 1 String s) :=
  match s with
  | [] => fail (.missing "identifier") []
  | c :: r =>
    if h : isNameStart c then
      .ok ((takeSome isNameChar c r (isNameChar_of_isNameStart h)).map String.ofList)
    else if isPunctuation c then fail (.missing "identifier") (c :: r)
    else fail (.badName c) (c :: r)

/-- A name, which may stand after blanks. -/
def name (s : List Char) : Except Failure (Reading 1 String s) :=
  skipping (skipBlanks_length_le s) (nameHere (skipBlanks s))

def name? (s : List Char) : Option (Reading 1 String s) := (name s).toOption

/-- Further parts of a name, each after a dot. -/
def dottedTail (s : List Char) : Reading 0 (List String) s :=
  match s with
  | '.' :: c :: r =>
    if h : isNameChar c then
      let ⟨part, t, h⟩ := takeSome isNameChar c r h
      let more := (dottedTail t).past h
      ((more.map (String.ofList part :: ·)).cons '.').loosen
    else .nothing [] ('.' :: c :: r)
  | s => .nothing [] s
termination_by s.length
decreasing_by simp only [List.length_cons] at *; omega

/-- A name that may have several parts with dots between them. -/
def dottedName (s : List Char) : Except Failure (Reading 1 String s) := do
  let ⟨first, r, h⟩ ← name s
  return ((dottedTail r).past h).map fun parts => ".".intercalate (first :: parts)

/-! ### Strings -/

def isQuote (c : Char) : Bool := c == '"' || c == '\''

/-- The character that a backslash and `c` stand for. -/
def unescape : Char → Char
  | 'n' => '\n'
  | 't' => '\t'
  | 'r' => '\r'
  | c => c

/-- The characters of a string up to the closing quote, which is no part of the rest. -/
def quotedBody? (quote : Char) : (s : List Char) → Option (Reading 1 (List Char) s)
  | [] => none
  | [c] => if c = quote then some (.head [] c []) else none
  | c :: e :: s =>
    if c = quote then some (.head [] c (e :: s))
    else if c = '\\' then
      (quotedBody? quote s).map fun x => ((x.map (unescape e :: ·)).cons e).cons c
    else (quotedBody? quote (e :: s)).map fun x => (x.map (c :: ·)).cons c

/-- A string whose opening quote stands at the front of `s`. -/
def quoted (s : List Char) : Except Failure (Reading 1 String s) :=
  match s with
  | [] => fail (.unterminated "string literal") []
  | q :: r =>
    match quotedBody? q r with
    | some x => .ok ((x.map String.ofList).cons q)
    | none => fail (.unterminated "string literal") (q :: r)

/-! ### Numbers -/

def decimalValue (ds : List Char) : Nat := ds.foldl (fun n d => 10 * n + (d.toNat - '0'.toNat)) 0

/-- The integer written by the digits `ds`, if it fits into 64 bits. -/
def integer? (negative : Bool) (ds : List Char) : Option Number :=
  let n : Int := if negative then -decimalValue ds else decimalValue ds
  if -0x8000000000000000 ≤ n ∧ n < 0x8000000000000000 then some (.int n) else none

/-- The double nearest to the number written by `whole` and `fraction`, if it is finite. -/
def float? (negative : Bool) (whole fraction : List Char) : Option Number :=
  (Double.ofDecimal? negative (decimalValue (whole ++ fraction)) fraction.length).map .float

/-- The digits after a point; a point without a digit after it is left alone. -/
def fraction (s : List Char) : Reading 0 (Option (List Char)) s :=
  match s with
  | '.' :: c :: r =>
    if h : isDigit c then (((takeSome isDigit c r h).map some).cons '.').loosen
    else .nothing none ('.' :: c :: r)
  | s => .nothing none s

/-- A number literal after its first digit; `negative` says whether a minus sign stands before
that. -/
def numberTail (negative : Bool) (first : Char) (s : List Char) :
    Except Failure (Reading 0 Node s) :=
  let ⟨more, r, h⟩ := takeAll isDigit s
  let whole := first :: more
  let ⟨part, r, h⟩ := (fraction r).skipping h
  let sign := if negative then ['-'] else []
  let found :=
    match part with
    | none => (integer? negative whole, sign ++ whole)
    | some ds => (float? negative whole ds, sign ++ whole ++ '.' :: ds)
  match found.1 with
  | some n => .ok ⟨.literal (.number n) .number, r, h⟩
  | none => fail (.badNumber (String.ofList found.2)) r

/-- A number literal at the front of `s`, if a digit, or a minus sign and a digit, stands
there. -/
def number? (s : List Char) : Option (Except Failure (Reading 1 Node s)) :=
  match s with
  | '-' :: c :: r =>
    if isDigit c then
      some ((numberTail true c r).map fun x => (x.cons c).cons '-')
    else none
  | c :: r => if isDigit c then some ((numberTail false c r).map (Reading.cons c)) else none
  | [] => none

end TagCompiler.Template
