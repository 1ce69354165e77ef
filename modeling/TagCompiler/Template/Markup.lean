import TagCompiler.Template.Expression
/-!
What stands between the expressions of a template: tags, comments, doc blocks and text, and how
the elements of a body are put together.

A body under construction is kept as the list of its elements, the last one first. Adjacent text
is joined and empty text dropped, so that neither occurs in a finished body.
-/

namespace TagCompiler.Template

open Text

/-! ### Bodies under construction -/

/-- Adds an element to a body that is held in reverse. -/
def push (body : List Node) (n : Node) : List Node :=
  match n, body with
  | .text s, .text t :: rest => if s.isEmpty then body else .text (t ++ s) :: rest
  | .text s, body => if s.isEmpty then body else .text s :: body
  | n, body => n :: body

def pushAll (body : List Node) (ns : List Node) : List Node := ns.foldl push body

/-- Drops the blanks at the end of a body that is held in reverse. -/
def trimTail (body : List Node) : List Node :=
  match body with
  | .text s :: rest =>
    let t := trimEnd s
    if t.isEmpty then rest else .text t :: rest
  | body => body

/-! ### Tags -/

/-- Whether the tag at the front of `s` asks for the blanks before it to be dropped. -/
def trimsBefore (s : List Char) : Bool :=
  startsWith "\x7b\x7b-" s || startsWith "\x7b%-" s || startsWith "\x7b#-" s

/-- The rest after a tag opener and its trim mark. -/
def tagStart? (opener : String) (s : List Char) : Option (Reading 1 Unit s) :=
  match word? opener s with
  | none => none
  | some ⟨_, r, h⟩ =>
    match past h (word? "-" r) with
    | some x => some x
    | none => some ⟨(), r, h⟩

/-- The keyword of the statement tag at the front of `s`, and the rest after it. -/
def statementKeyword? (s : List Char) : Option (Reading 1 String s) := do
  let ⟨_, r, h⟩ ← tagStart? "\x7b%" s
  past h (name? r)

/-- The statement tag at the front of `s`, if its keyword ends the body being read. -/
def endTag? (ends : List String) (s : List Char) : Option (Reading 1 String s) := do
  let r ← statementKeyword? s
  if ends.contains r.value then some r else none

/-- Passes over the rest of a tag up to its closer. Strings are read, so that a closer inside one
does not count. -/
def skipTag (s : List Char) : Except Failure (Reading 0 Unit s) :=
  match s with
  | [] => .ok (.nothing () [])
  | c :: r =>
    if startsWith "%\x7d" (c :: r) || startsWith "-%\x7d" (c :: r) then .ok (.nothing () (c :: r))
    else if isQuote c then do
      let ⟨_, t, h⟩ ← quoted (c :: r)
      return (← past h (skipTag t)).loosen
    else do return ((← skipTag r).cons c).loosen
termination_by s.length
decreasing_by all_goals simp only [List.length_cons] at *; omega

/-! ### Comments and doc blocks -/

/-- A comment: its body, and whether it asks for the blanks after it to be dropped. A comment
that never ends is reported where it starts. -/
def comment? (s : List Char) : Option (Except Failure (Reading 1 (List Char × Bool) s)) :=
  match tagStart? "\x7b#" s with
  | none => none
  | some ⟨_, r, h⟩ =>
    match past h (upTo? ['#', '\x7d'] r) with
    | none => some (fail (.unterminated "comment") s)
    | some ⟨body, r, h⟩ =>
      let trims := body.getLast? == some '-'
      some (.ok ⟨(if trims then body.dropLast else body, trims), r, h⟩)

/-- A doc comment, which has to be closed: its body. -/
def docComment? (s : List Char) : Option (Reading 1 (List Char) s) :=
  match word? "/**" s with
  | none => none
  | some ⟨_, r, h⟩ => past h (upTo? ['*', '/'] r)

def startsDocBlock (s : List Char) : Bool :=
  (docComment? s).isSome || startsWith "\x7b#" s

/-- Drops the decoration of a doc line: blanks around it, and one star with one space after it. -/
def docLine (l : List Char) : List Char :=
  let l := dropTrailingBlanks (skipBlanks l)
  let l := if l.head? = some '*' then l.tail else l
  if l.head? = some ' ' then l.tail else l

/-- The documentation that the body of a doc block holds. -/
def docText (body : List Char) : String :=
  let lines := (lines body).map docLine
  String.ofList (dropTrailingBlanks (skipBlanks (['\n'].intercalate lines)))

/-! ### Text -/

/-- Whether a tag starts at the front of `s`. -/
def startsTag (s : List Char) : Bool :=
  startsWith "\x7b\x7b" s || startsWith "\x7b%" s || startsWith "\x7b#" s

/-- The characters up to the next tag, or at the top level up to the next doc comment. -/
def textSpan (top : Bool) : (s : List Char) → Reading 0 (List Char) s
  | [] => .nothing [] []
  | c :: r =>
    if startsTag (c :: r) || (top && (docComment? (c :: r)).isSome) then .nothing [] (c :: r)
    else (((textSpan top r).map (c :: ·)).cons c).loosen

/-- Text whose first character is known to belong to it. `trim` drops the blanks at its start. -/
def textFrom (top trim : Bool) (c : Char) (r : List Char) : Reading 1 Node (c :: r) :=
  (textSpan top r).cons c |>.map fun cs =>
    let cs := c :: cs
    .text (String.ofList (if trim then skipBlanks cs else cs))

end TagCompiler.Template
