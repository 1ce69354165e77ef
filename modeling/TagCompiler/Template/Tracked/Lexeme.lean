import TagCompiler.Template.Lexeme
import TagCompiler.Template.Tracked.Input
/-!
Names, keywords, strings, numbers and tag closers, read from input with a place.

Words, names and numbers have no newline in them, so the place goes on by their bytes. Blanks and
strings may have newlines, and are passed by character.
-/

namespace TagCompiler.Template.Tracked

open Text

theorem length_dropBytes_lt {w : String} {s : List Char} (h : startsWith w s = true) :
    (dropBytes w.utf8ByteSize s).length + 1 ≤ s.length := by
  unfold startsWith Text.word? at h
  cases hw : w.toList with
  | nil =>
    rw [hw] at h
    cases h
  | cons c v =>
    cases s with
    | nil =>
      rw [hw] at h
      cases h
    | cons d s =>
      have size : w.utf8ByteSize = c.utf8Size + (String.ofList v).utf8ByteSize := by
        rw [← String.ofList_toList (s := w), hw, String.ofList_cons, String.utf8ByteSize_append,
          String.utf8ByteSize_singleton]
      have positive := c.utf8Size_pos
      obtain ⟨n, hn⟩ : ∃ n, w.utf8ByteSize = n + 1 := ⟨w.utf8ByteSize - 1, by omega⟩
      rw [hn]
      exact Nat.succ_le_succ (length_dropBytes_le _ s)

/-- The input after the word `w`, if it starts with it. -/
def word? (w : String) (i : Input) : Option (Advance 1 Unit i) :=
  if h : startsWith w i.rest then some ⟨(), i.afterBytes w.utf8ByteSize, length_dropBytes_lt h⟩
  else none

def keyword? (w : String) (i : Input) : Option (Advance 1 Unit i) :=
  match word? w i with
  | some x => if x.next.rest.head?.any isNameChar then none else some x
  | none => none

def spaced? (w : String) (i : Input) : Option (Advance 1 Unit i) :=
  skipping i.skipBlanks_length_le (word? w i.skipBlanks)

def spacedKeyword? (w : String) (i : Input) : Option (Advance 1 Unit i) :=
  skipping i.skipBlanks_length_le (keyword? w i.skipBlanks)

def demand (w : String) (i : Input) : Except Fault (Advance 1 Unit i) :=
  match word? w i with
  | some x => .ok x
  | none =>
    if i.rest.isEmpty then failAt (.endOfInput w) i
    else failAt (.unexpected ("'" ++ w ++ "'") (String.ofList (i.rest.take w.length))) i

def demandSpaced (w : String) (i : Input) : Except Fault (Advance 1 Unit i) :=
  skipping i.skipBlanks_length_le (demand w i.skipBlanks)

def tagEnd (closer : String) (i : Input) : Except Fault (Advance 1 Bool i) := do
  match spaced? "-" i with
  | some ⟨_, j, h⟩ =>
    let ⟨_, j, h⟩ ← past h (demand closer j)
    return ⟨true, j, h⟩
  | none =>
    let ⟨_, j, h⟩ ← demandSpaced closer i
    return ⟨false, j, h⟩

/-! ### Names -/

theorem length_afterRun_le (q : Char → Bool) (p : Place) (s : List Char) :
    (Input.afterRun q p s).rest.length ≤ s.length := by
  rw [Input.rest_afterRun]
  exact length_dropWhile_le q s

theorem length_afterRun_lt {q : Char → Bool} {c : Char} (h : q c = true) (p : Place)
    (s : List Char) : (Input.afterRun q p (c :: s)).rest.length + 1 ≤ (c :: s).length := by
  rw [Input.rest_afterRun]
  exact length_dropWhile_lt h s

/-- The longest front part whose characters satisfy `q`, which are one byte long. -/
def takeAll (q : Char → Bool) (p : Place) (s : List Char) : Advance 0 (List Char) ⟨p, s⟩ :=
  ⟨s.takeWhile q, .afterRun q p s, length_afterRun_le q p s⟩

/-- The longest front part whose characters satisfy `q`, as `c` does. -/
def takeSome (q : Char → Bool) (p : Place) (c : Char) (s : List Char) (h : q c = true) :
    Advance 1 (List Char) ⟨p, c :: s⟩ :=
  ⟨(c :: s).takeWhile q, .afterRun q p (c :: s), length_afterRun_lt h p s⟩

def nameHere (i : Input) : Except Fault (Advance 1 String i) :=
  match i with
  | ⟨p, []⟩ => failAt (.missing "identifier") ⟨p, []⟩
  | ⟨p, c :: s⟩ =>
    if h : isNameStart c then
      .ok ((takeSome isNameChar p c s (isNameChar_of_isNameStart h)).map String.ofList)
    else if isPunctuation c then failAt (.missing "identifier") ⟨p, c :: s⟩
    else failAt (.badName c) ⟨p, c :: s⟩

def name (i : Input) : Except Fault (Advance 1 String i) :=
  skipping i.skipBlanks_length_le (nameHere i.skipBlanks)

def name? (i : Input) : Option (Advance 1 String i) := (name i).toOption

def dottedTail (i : Input) : Advance 0 (List String) i :=
  match i with
  | ⟨p, '.' :: c :: s⟩ =>
    if h : isNameChar c then
      let ⟨part, j, h⟩ := takeSome isNameChar (p.afterBytes 1) c s h
      let more := (dottedTail j).past h
      ((more.map (String.ofList part :: ·)).cons '.').loosen
    else .nothing [] ⟨p, '.' :: c :: s⟩
  | i => .nothing [] i
termination_by i.rest.length
decreasing_by simp only [List.length_cons] at *; omega

def dottedName (i : Input) : Except Fault (Advance 1 String i) := do
  let ⟨first, j, h⟩ ← name i
  return ((dottedTail j).past h).map fun parts => ".".intercalate (first :: parts)

/-! ### Strings -/

def quotedBody? (quote : Char) (p : Place) :
    (s : List Char) → Option (Advance 1 (List Char) ⟨p, s⟩)
  | [] => none
  | [c] => if c = quote then some ((Advance.nothing [] ⟨p.afterChar c, []⟩).cons c) else none
  | c :: e :: s =>
    if c = quote then some ((Advance.nothing [] ⟨p.afterChar c, e :: s⟩).cons c)
    else if c = '\\' then
      (quotedBody? quote ((p.afterChar c).afterChar e) s).map fun x =>
        ((x.map (unescape e :: ·)).cons (p := p.afterChar c) e).cons c
    else (quotedBody? quote (p.afterChar c) (e :: s)).map fun x => (x.map (c :: ·)).cons c

/-- A string whose opening quote stands at the front. One that never ends is reported there. -/
def quoted (i : Input) : Except Fault (Advance 1 String i) :=
  match i with
  | ⟨p, []⟩ => failAt (.unterminated "string literal") ⟨p, []⟩
  | ⟨p, q :: s⟩ =>
    match quotedBody? q (p.afterBytes q.utf8Size) s with
    | some x => .ok ((x.map String.ofList).cons q)
    | none => failAt (.unterminated "string literal") ⟨p, q :: s⟩

/-! ### Numbers -/

def fraction (i : Input) : Advance 0 (Option (List Char)) i :=
  match i with
  | ⟨p, '.' :: c :: s⟩ =>
    if h : isDigit c then
      (((takeSome isDigit (p.afterBytes 1) c s h).map some).cons '.').loosen
    else .nothing none ⟨p, '.' :: c :: s⟩
  | i => .nothing none i

def numberTail (negative : Bool) (first : Char) (p : Place) (s : List Char) :
    Except Fault (Advance 0 Node ⟨p, s⟩) :=
  let ⟨more, j, h⟩ := takeAll isDigit p s
  let whole := first :: more
  let ⟨part, j, h⟩ := (fraction j).skipping h
  let sign := if negative then ['-'] else []
  let found :=
    match part with
    | none => (integer? negative whole, sign ++ whole)
    | some ds => (float? negative whole ds, sign ++ whole ++ '.' :: ds)
  match found.1 with
  | some n => .ok ⟨.literal (.number n) .number, j, h⟩
  | none => failAt (.badNumber (String.ofList found.2)) j

def number? (i : Input) : Option (Except Fault (Advance 1 Node i)) :=
  match i with
  | ⟨p, '-' :: c :: s⟩ =>
    if isDigit c then
      some ((numberTail true c ((p.afterBytes 1).afterBytes 1) s).map fun x =>
        (x.cons (p := p.afterBytes 1) c).cons '-')
    else none
  | ⟨p, c :: s⟩ =>
    if isDigit c then some ((numberTail false c (p.afterBytes 1) s).map (Advance.cons c)) else none
  | ⟨_, []⟩ => none

end TagCompiler.Template.Tracked
