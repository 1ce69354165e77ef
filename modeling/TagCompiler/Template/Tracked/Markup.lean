import TagCompiler.Template.Markup
import TagCompiler.Template.Tracked.Expression
/-!
Tags, comments, doc blocks and text, read from input with a place.

The end of a comment is searched for, and then everything up to there passed by character, since a
comment may go over several lines.
-/

namespace TagCompiler.Template.Tracked

open Text

/-! ### Tags -/

def tagStart? (opener : String) (i : Input) : Option (Advance 1 Unit i) :=
  match word? opener i with
  | none => none
  | some ⟨_, j, h⟩ =>
    match past h (word? "-" j) with
    | some x => some x
    | none => some ⟨(), j, h⟩

def statementKeyword? (i : Input) : Option (Advance 1 String i) := do
  let ⟨_, j, h⟩ ← tagStart? "\x7b%" i
  past h (name? j)

def endTag? (ends : List String) (i : Input) : Option (Advance 1 String i) := do
  let x ← statementKeyword? i
  if ends.contains x.value then some x else none

def skipTag (i : Input) : Except Fault (Advance 0 Unit i) :=
  match i with
  | ⟨p, []⟩ => .ok (.nothing () ⟨p, []⟩)
  | ⟨p, c :: s⟩ =>
    if startsWith "%\x7d" (c :: s) || startsWith "-%\x7d" (c :: s) then
      .ok (.nothing () ⟨p, c :: s⟩)
    else if isQuote c then do
      let ⟨_, j, h⟩ ← quoted ⟨p, c :: s⟩
      return (← past h (skipTag j)).loosen
    else do return ((← skipTag ⟨p.afterChar c, s⟩).cons c).loosen
termination_by i.rest.length
decreasing_by all_goals simp only [List.length_cons] at *; omega

/-! ### Comments and doc blocks -/

/-- The input after `body`, with which `i` starts, and after the `n` bytes that close it. -/
def afterBody (body : List Char) (n : Nat) (i : Input) : Input :=
  (Input.upToOffset (i.place.offset + byteLength body) i.place i.rest).afterBytes n

theorem length_afterBody_le (body : List Char) (n : Nat) (i : Input) :
    (afterBody body n i).rest.length ≤ i.rest.length :=
  Nat.le_trans (length_dropBytes_le _ _) (Input.length_upToOffset_le _ _ _)

/-- The characters up to the first place where `closer` stands, which are passed with it. -/
def delimited? (closer : List Char) (i : Input) : Option (Advance 0 (List Char) i) :=
  match upTo? closer i.rest with
  | none => none
  | some x =>
    some ⟨x.value, afterBody x.value (byteLength closer) i, length_afterBody_le _ _ _⟩

def comment? (i : Input) : Option (Except Fault (Advance 1 (List Char × Bool) i)) :=
  match tagStart? "\x7b#" i with
  | none => none
  | some ⟨_, j, h⟩ =>
    match past h (delimited? ['#', '\x7d'] j) with
    | none => some (failAt (.unterminated "comment") i)
    | some ⟨body, j, h⟩ =>
      let trims := body.getLast? == some '-'
      some (.ok ⟨(if trims then body.dropLast else body, trims), j, h⟩)

def docComment? (i : Input) : Option (Advance 1 (List Char) i) :=
  match word? "/**" i with
  | none => none
  | some ⟨_, j, h⟩ => past h (delimited? ['*', '/'] j)

/-! ### Text -/

def textSpan (top : Bool) (p : Place) : (s : List Char) → Advance 0 (List Char) ⟨p, s⟩
  | [] => .nothing [] ⟨p, []⟩
  | c :: s =>
    if startsTag (c :: s) || (top && (Template.docComment? (c :: s)).isSome) then
      .nothing [] ⟨p, c :: s⟩
    else (((textSpan top (p.afterChar c) s).map (c :: ·)).cons c).loosen

def textFrom (top trim : Bool) (p : Place) (c : Char) (s : List Char) :
    Advance 1 Node ⟨p, c :: s⟩ :=
  (textSpan top (p.afterChar c) s).cons c |>.map fun cs =>
    let cs := c :: cs
    .text (String.ofList (if trim then skipBlanks cs else cs))

end TagCompiler.Template.Tracked
