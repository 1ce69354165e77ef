import TagCompiler.Decimal.Scaled
import TagCompiler.Json.Value
import TagCompiler.Text.Reading
/-!
Reading JSON text.

`Value.ofText?` reads one value, with nothing but spaces around it. Containers may be nested up to
a given depth. Members that a caller is going to ignore are read under `Use.skip`: only their
grammar counts, and neither depth, nor the range of a number, nor the pairing of surrogates.
-/

namespace TagCompiler.Json

open Text

/-- What becomes of the values read: kept, with so many levels of nesting left, or skipped. -/
inductive Use where
  | keep (levels : Nat)
  | skip

/-- The use of the contents of a container. One level has to remain. -/
def Use.inner? : Use → Option Use
  | .keep (n + 2) => some (.keep (n + 1))
  | .keep _ => none
  | .skip => some .skip

def isSpace (c : Char) : Bool := c == ' ' || c == '\n' || c == '\t' || c == '\r'

def skipSpaces (s : List Char) : List Char := s.dropWhile isSpace

/-- The rest after the character `c`, which may stand after spaces. -/
def symbol? (c : Char) : (s : List Char) → Option (Reading 1 Unit s)
  | [] => none
  | d :: s =>
    if d = c then some (.head () d s)
    else if isSpace d then (symbol? c s).map (Reading.cons d)
    else none

def isDigit (c : Char) : Bool := '0' ≤ c && c ≤ '9'

def digitValue (c : Char) : Nat := c.toNat - '0'.toNat

def hexValue? (c : Char) : Option Nat :=
  if isDigit c then some (digitValue c)
  else if 'a' ≤ c && c ≤ 'f' then some (c.toNat - 'a'.toNat + 10)
  else if 'A' ≤ c && c ≤ 'F' then some (c.toNat - 'A'.toNat + 10)
  else none

/-- Four hexadecimal digits. -/
def hexUnit? : (s : List Char) → Option (Reading 1 Nat s)
  | a :: b :: c :: d :: s => do
    let i ← hexValue? a
    let j ← hexValue? b
    let k ← hexValue? c
    let l ← hexValue? d
    some ((((Reading.head (((i * 16 + j) * 16 + k) * 16 + l) d s).cons c).cons b).cons a)
  | _ => none

/-- The character written by the hexadecimal units after `\u`. A kept one beyond the basic plane
takes two units, and neither half of a pair stands alone. -/
def unicodeEscape? (u : Use) (s : List Char) : Option (Reading 1 Char s) := do
  let ⟨high, r, h⟩ ← hexUnit? s
  match u with
  | .skip => some ⟨Char.ofNat high, r, h⟩
  | .keep _ =>
    if 0xDC00 ≤ high ∧ high ≤ 0xDFFF then none
    else if 0xD800 ≤ high ∧ high ≤ 0xDBFF then
      let ⟨_, r, h⟩ ← past h (word? "\\u" r)
      let ⟨low, r, h⟩ ← past h (hexUnit? r)
      if 0xDC00 ≤ low ∧ low ≤ 0xDFFF then
        some ⟨Char.ofNat (0x10000 + (high - 0xD800) * 0x400 + (low - 0xDC00)), r, h⟩
      else none
    else some ⟨Char.ofNat high, r, h⟩

def simpleEscape? : Char → Option Char
  | '"' => some '"'
  | '\\' => some '\\'
  | '/' => some '/'
  | 'b' => some '\x08'
  | 'f' => some '\x0c'
  | 'n' => some '\n'
  | 'r' => some '\r'
  | 't' => some '\t'
  | _ => none

/-- The characters of a string and what follows its closing quote. -/
def stringBody? (u : Use) (s : List Char) : Option (Reading 1 (List Char) s) :=
  match s with
  | [] => none
  | '"' :: r => some (.head [] '"' r)
  | '\\' :: 'u' :: r => do
    let ⟨c, t, h⟩ ← unicodeEscape? u r
    let more ← past h (stringBody? u t)
    some (((more.map (c :: ·)).cons 'u').cons '\\')
  | '\\' :: e :: r => do
    let c ← simpleEscape? e
    let more ← stringBody? u r
    some (((more.map (c :: ·)).cons e).cons '\\')
  | c :: r =>
    if c.toNat < 0x20 ∨ c = '\\' then none
    else do some (((← stringBody? u r).map (c :: ·)).cons c)
termination_by s.length
decreasing_by all_goals simp only [List.length_cons]; omega

/-- A non-empty run of digits. -/
def digits? (s : List Char) : Option (Reading 0 (List Nat) s) :=
  match takeAll isDigit s with
  | ⟨[], _, _⟩ => none
  | x => some (x.map (List.map digitValue))

/-- A sign: whether there is a minus. A plus is allowed where `plus` says so. -/
def sign (plus : Bool) : (s : List Char) → Reading 0 Bool s
  | c :: s =>
    if c = '-' then (Reading.head true c s).loosen
    else if c = '+' ∧ plus then (Reading.head false c s).loosen
    else .nothing false (c :: s)
  | [] => .nothing false []

/-- The digits before the point, of which the first is no zero unless it is the only one. -/
def wholeDigits? (s : List Char) : Option (Reading 0 (List Nat) s) := do
  let r ← digits? s
  match r.value with
  | 0 :: _ :: _ => none
  | _ => some r

/-- The digits after a point, if there is one. -/
def fraction? (s : List Char) : Option (Reading 0 (Option (List Nat)) s) :=
  match s with
  | '.' :: r => do some (((← digits? r).map some).cons '.').loosen
  | s => some (.nothing none s)

/-- The sign and digits of an exponent, if there is one. -/
def exponent? (s : List Char) : Option (Reading 0 (Option (Bool × List Nat)) s) :=
  match s with
  | c :: r =>
    if c = 'e' ∨ c = 'E' then do
      let ⟨down, t, h⟩ := sign true r
      let size ← skipping h (digits? t)
      some ((size.map fun ds => some (down, ds)).cons c).loosen
    else some (.nothing none (c :: r))
  | [] => some (.nothing none [])

/-- The number that a numeral denotes. Without fraction and exponent it is an integer when it lies
between -2^63 and 2^64 - 1 and is not a negative zero; otherwise it is a double. -/
def numeral? (negative : Bool) (whole : List Nat) (fraction : Option (List Nat))
    (exponent : Option (Bool × List Nat)) : Option Number :=
  let n : Nat := whole.foldl (fun n d => 10 * n + d) 0
  let m := (Significand.addWhole ⟨0, 0⟩ whole).addFraction (fraction.getD [])
  match fraction, exponent with
  | none, none =>
    if !negative && n < 0x10000000000000000 then some (.int n)
    else if negative && n != 0 && n ≤ 0x8000000000000000 then some (.int (-n))
    else (Double.ofScaled? negative m).map .float
  | _, none => (Double.ofScaled? negative m).map .float
  | _, some (down, ds) =>
    let size : Nat := ds.foldl (fun n d => 10 * n + d) 0
    let e : Int := if down then -size else size
    if e.natAbs < 0x80000000 then (Double.ofScaled? negative ⟨m.digits, m.scale + e⟩).map .float
    else if m.digits ≠ 0 ∧ 0 < e then none
    else (Double.ofScaled? negative ⟨0, 0⟩).map .float

def number? (u : Use) (s : List Char) : Option (Reading 0 Number s) := do
  let ⟨negative, r, h⟩ := sign false s
  let ⟨whole, r, h⟩ ← skipping h (wholeDigits? r)
  let ⟨fraction, r, h⟩ ← skipping h (fraction? r)
  let ⟨exponent, r, h⟩ ← skipping h (exponent? r)
  match u with
  | .skip => some ⟨.int 0, r, h⟩
  | .keep _ => do some ⟨← numeral? negative whole fraction exponent, r, h⟩

mutual

def value? (u : Use) (s : List Char) : Option (Reading 1 Value s) :=
  match s with
  | [] => none
  | '"' :: r => do
    some (((← stringBody? u r).map fun cs => .string (String.ofList cs)).cons '"')
  | '[' :: r => do some (((← items? (← u.inner?) true r).map .array).cons '[')
  | '\x7b' :: r => do
    some (((← members? (fun _ => true) (← u.inner?) true r).map .ofMembers).cons '\x7b')
  | c :: r =>
    if isSpace c then (value? u r).map (Reading.cons c)
    else if isDigit c ∨ c = '-' then do
      let ⟨n, r', _⟩ ← number? u (c :: r)
      if h : r'.length < (c :: r).length then some ⟨.number n, r', h⟩ else none
    else
      match word? "true" (c :: r), word? "false" (c :: r), word? "null" (c :: r) with
      | some r, _, _ => some (r.map fun _ => .bool true)
      | _, some r, _ => some (r.map fun _ => .bool false)
      | _, _, some r => some (r.map fun _ => .null)
      | _, _, _ => none
termination_by 2 * s.length
decreasing_by all_goals simp only [List.length_cons]; omega

/-- The items of an array up to its closing bracket. Only right after the opening bracket may the
closing one stand in place of an item. -/
def items? (u : Use) (first : Bool) (s : List Char) : Option (Reading 1 (List Value) s) :=
  match s with
  | [] => none
  | c :: r =>
    if isSpace c then (items? u first r).map (Reading.cons c)
    else if c = ']' ∧ first then some (.head [] c r)
    else do
      let ⟨x, t, h⟩ ← value? u (c :: r)
      match past h (symbol? ',' t) with
      | some ⟨_, t, h⟩ => do
        let more ← past h (items? u false t)
        some (more.map (x :: ·))
      | none => do
        let close ← past h (symbol? ']' t)
        some (close.map fun _ => [x])
termination_by 2 * s.length + 1
decreasing_by all_goals simp only [List.length_cons] at *; omega

/-- The members of an object up to its closing brace; one whose key is not wanted is skipped. -/
def members? (wanted : String → Bool) (u : Use) (first : Bool) (s : List Char) :
    Option (Reading 1 (List (String × Value)) s) :=
  match s with
  | [] => none
  | c :: r =>
    if isSpace c then (members? wanted u first r).map (Reading.cons c)
    else if c = '\x7d' ∧ first then some (.head [] c r)
    else if c = '"' then do
      let ⟨cs, t, h⟩ ← stringBody? u r
      let key := String.ofList cs
      let ⟨_, t, h⟩ ← past h (symbol? ':' t)
      let ⟨v, t, h⟩ ← past h (value? (if wanted key then u else .skip) t)
      match past h (symbol? ',' t) with
      | some ⟨_, t, h⟩ => do
        let more ← past h (members? wanted u false t)
        some ((more.map ((key, v) :: ·)).cons c)
      | none => do
        let close ← past h (symbol? '\x7d' t)
        some ((close.map fun _ => [(key, v)]).cons c)
    else none
termination_by 2 * s.length
decreasing_by all_goals simp only [List.length_cons] at *; omega

end

/-- Containers may be nested 127 deep in a text. -/
def standardLevels : Nat := 128

/-- The value of a text, whose containers are nested less than `levels` deep. -/
def ofText? (levels : Nat) (s : String) : Option Value := do
  let ⟨v, r, _⟩ ← value? (.keep levels) s.toList
  if (skipSpaces r).isEmpty then some v else none

/-- The members of a text that is one object. Those that are not wanted are checked for their
grammar only. -/
def membersOfText? (wanted : String → Bool) (s : String) : Option (List (String × Value)) :=
  match skipSpaces s.toList with
  | '\x7b' :: r => do
    let ⟨ms, r, _⟩ ← members? wanted (.keep (standardLevels - 1)) true r
    if (skipSpaces r).isEmpty then some ms else none
  | _ => none

end TagCompiler.Json
