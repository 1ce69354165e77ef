import TagCompiler.Template.Markup
/-!
Statements and their bodies.

Each reader below returns, beside a node, whether the tag it ended with asks for the blanks after
it to be dropped; the next text is read with that knowledge.
-/

namespace TagCompiler.Template

open Text

/-- What an element of a body leaves behind: a node, or nothing for a comment or an import, and
whether the blanks after it are to be dropped. -/
structure Element where
  node? : Option Node
  trim : Bool

/-- A statement and whether the blanks after it are to be dropped. -/
structure Statement where
  node : Node
  trim : Bool

/-- A finished body and the keyword of the tag that ended it, up to which the tag has been read. -/
structure Body where
  nodes : List Node
  closer : String

/-- The parameters a macro declares, up to the closing parenthesis. -/
def declarations (s : List Char) : Except Failure (Reading 1 (List Node) s) :=
  match spaced? ")" s with
  | some r => .ok (r.map fun _ => [])
  | none => do
    let ⟨n, r, h⟩ ← name s
    let ⟨value, r, h⟩ ← past h (default r)
    match past h (spaced? "," r) with
    | some ⟨_, r, h⟩ =>
      let ⟨more, r, h⟩ ← past h (declarations r)
      return ⟨.parameter (some n) value :: more, r, h⟩
    | none =>
      let ⟨_, r, h⟩ ← past h (demandSpaced ")" r)
      return ⟨[.parameter (some n) value], r, h⟩
termination_by s.length
where
  /-- The default value of a parameter, if it has one. -/
  default (s : List Char) : Except Failure (Reading 0 (Option Node) s) :=
    match spaced? "=" s with
    | some ⟨_, r, h⟩ => do return ((← past h (condition r)).map some).loosen
    | none => .ok (.nothing none s)

/-- The head of a macro definition after its keyword: its name, its parameters, and the trim mark
of its tag. -/
def macroHead (s : List Char) : Except Failure (Reading 1 (String × List Node × Bool) s) := do
  let ⟨n, r, h⟩ ← name s
  let ⟨_, r, h⟩ ← past h (demandSpaced "(" r)
  let ⟨ps, r, h⟩ ← past h (declarations r)
  let ⟨trim, r, h⟩ ← past h (tagEnd "%\x7d" r)
  return ⟨(n, ps, trim), r, h⟩

/-- The head of a call block after its keyword. Parameters that the block declares for itself are
read and forgotten. -/
def callHead (s : List Char) : Except Failure (Reading 1 (String × List Node × Bool) s) := do
  let ⟨_, r, h⟩ ← blockParameters s
  let ⟨n, r, h⟩ ← skipping h (dottedName r)
  let ⟨_, r, h⟩ ← past h (demandSpaced "(" r)
  let ⟨args, r, h⟩ ← past h (arguments r)
  let ⟨trim, r, h⟩ ← past h (tagEnd "%\x7d" r)
  return ⟨(n, args, trim), r, h⟩
where
  blockParameters (s : List Char) : Except Failure (Reading 0 Unit s) :=
    match spaced? "(" s with
    | some ⟨_, r, h⟩ => do return ((← past h (declarations r)).map fun _ => ()).loosen
    | none => .ok (.nothing () s)

/-- The head of a loop after its keyword. -/
structure LoopHead where
  key : Option String
  item : String
  source : Node
  trim : Bool

/-- The names of a loop: of two, the first is the key. -/
def loopNames (s : List Char) : Except Failure (Reading 1 (Option String × String) s) := do
  let ⟨first, r, h⟩ ← name s
  match past h (spaced? "," r) with
  | some ⟨_, r, h⟩ =>
    let ⟨second, r, h⟩ ← past h (name r)
    return ⟨(some first, second), r, h⟩
  | none => return ⟨(none, first), r, h⟩

def loopHead (s : List Char) : Except Failure (Reading 1 LoopHead s) := do
  let ⟨names, r, h⟩ ← loopNames s
  match past h (spacedKeyword? "in" r) with
  | none => fail (.missing "'in'") (skipBlanks r)
  | some ⟨_, r, h⟩ =>
    let ⟨e, r, h⟩ ← past h (condition r)
    let ⟨trim, r, h⟩ ← past h (tagEnd "%\x7d" r)
    return ⟨⟨names.1, names.2, e, trim⟩, r, h⟩

/-- An output tag after its opener. A block that is run needs no output around it. -/
def outputTag (s : List Char) : Except Failure (Reading 1 Element s) := do
  let ⟨e, r, h⟩ ← condition s
  let ⟨trim, r, h⟩ ← past h (tagEnd "\x7d\x7d" r)
  let n :=
    match e with
    | .yield => .yield
    | e => .output [e]
  return ⟨⟨some n, trim⟩, r, h⟩

/-- The text that stands for the tags a body may end with. -/
def endTags (ends : List String) : String := "\x7b% " ++ " | ".intercalate ends ++ " %\x7d"

mutual

/-- The elements of a body up to a statement tag with one of the keywords `ends`; `done` holds the
elements read so far, the last one first. -/
def bodyFrom (ends : List String) (done : List Node) (trim : Bool) (s : List Char) :
    Except Failure (Reading 1 Body s) :=
  match s with
  | [] => fail (.endOfInput (endTags ends)) []
  | c :: r =>
    let done := if trimsBefore (c :: r) then trimTail done else done
    match endTag? ends (c :: r) with
    | some ⟨closer, r, h⟩ => .ok ⟨⟨done.reverse, closer⟩, r, h⟩
    | none => do
      let ⟨e, r', h⟩ ← element false none trim c r
      let ⟨b, r', h⟩ ← past h (bodyFrom ends (pushAll done e.node?.toList) e.trim r')
      return ⟨b, r', h⟩
termination_by 8 * s.length + 3
decreasing_by all_goals simp only [List.length_cons] at *; omega

/-- One element of a body, of which the first character is known. -/
def element (top : Bool) (doc : Option String) (trim : Bool) (c : Char) (r : List Char) :
    Except Failure (Reading 1 Element (c :: r)) :=
  match tagStart? "\x7b\x7b" (c :: r) with
  | some ⟨_, r', h⟩ => past h (outputTag r')
  | none =>
    match tagStart? "\x7b%" (c :: r) with
    | some ⟨_, r', h⟩ => past h (statement doc r')
    | none =>
      match comment? (c :: r) with
      | some found => found.map (Reading.map fun b => ⟨none, b.2⟩)
      | none => .ok ((textFrom top trim c r).map fun n => ⟨some n, false⟩)
termination_by 8 * (c :: r).length + 2
decreasing_by all_goals simp only [List.length_cons] at *; omega

/-- A statement after its tag opener; `doc` documents it if it defines a macro. -/
def statement (doc : Option String) (s : List Char) : Except Failure (Reading 1 Element s) := do
  let ⟨keyword, r, h⟩ ← name s
  match keyword with
  | "macro" =>
    let ⟨(n, ps, trim), r, h⟩ ← past h (macroHead r)
    let ⟨b, r, h⟩ ← past h (bodyFrom ["endmacro"] [] trim r)
    let ⟨trim, r, h⟩ ← past h (tagEnd "%\x7d" r)
    return ⟨⟨some (.macroDef n (.parameters ps) b.nodes doc), trim⟩, r, h⟩
  | "call" =>
    let ⟨(n, args, trim), r, h⟩ ← past h (callHead r)
    let ⟨b, r, h⟩ ← past h (bodyFrom ["endcall"] [] trim r)
    let ⟨trim, r, h⟩ ← past h (tagEnd "%\x7d" r)
    return ⟨⟨some (.call n (.parameters args) b.nodes), trim⟩, r, h⟩
  | "set" =>
    let ⟨t, r, h⟩ ← past h (setStatement r)
    return ⟨⟨some t.node, t.trim⟩, r, h⟩
  | "if" =>
    let ⟨t, r, h⟩ ← past h (ifStatement r)
    return ⟨⟨some t.node, t.trim⟩, r, h⟩
  | "for" =>
    let ⟨t, r, h⟩ ← past h (forStatement r)
    return ⟨⟨some t.node, t.trim⟩, r, h⟩
  | "from" | "import" =>
    let ⟨_, r, h⟩ ← past h (skipTag r)
    let ⟨trim, r, h⟩ ← past h (tagEnd "%\x7d" r)
    return ⟨⟨none, trim⟩, r, h⟩
  | _ => fail (.unknownKeyword keyword) r
termination_by 8 * s.length + 1

/-- An assignment after its keyword: of an expression, or of the body up to the end tag. -/
def setStatement (s : List Char) : Except Failure (Reading 1 Statement s) := do
  let ⟨n, r, h⟩ ← name s
  match past h (spaced? "=" r) with
  | some ⟨_, r, h⟩ =>
    let ⟨e, r, h⟩ ← past h (condition r)
    let ⟨trim, r, h⟩ ← past h (tagEnd "%\x7d" r)
    return ⟨⟨.assign (.var [n]) e .set, trim⟩, r, h⟩
  | none =>
    if startsWith "," (skipBlanks r) then fail .severalTargets (skipBlanks r)
    else
      let ⟨trim, r, h⟩ ← past h (tagEnd "%\x7d" r)
      let ⟨b, r, h⟩ ← past h (bodyFrom ["endset"] [] trim r)
      let ⟨trim, r, h⟩ ← past h (tagEnd "%\x7d" r)
      return ⟨⟨.assign (.var [n]) (.list b.nodes) .set, trim⟩, r, h⟩
termination_by 8 * s.length

/-- A branching after its keyword. A further condition stands as the only element of the second
branch. -/
def ifStatement (s : List Char) : Except Failure (Reading 1 Statement s) := do
  let ⟨e, r, h⟩ ← condition s
  let ⟨trim, r, h⟩ ← past h (tagEnd "%\x7d" r)
  let ⟨yes, r, h⟩ ← past h (bodyFrom ["elif", "elseif", "else", "endif"] [] trim r)
  match yes.closer with
  | "elif" | "elseif" =>
    let ⟨other, r, h⟩ ← past h (ifStatement r)
    return ⟨⟨.branch e yes.nodes [other.node], other.trim⟩, r, h⟩
  | "else" =>
    match past h (spacedKeyword? "if" r) with
    | some ⟨_, r, h⟩ =>
      let ⟨other, r, h⟩ ← past h (ifStatement r)
      return ⟨⟨.branch e yes.nodes [other.node], other.trim⟩, r, h⟩
    | none =>
      let ⟨trim, r, h⟩ ← past h (tagEnd "%\x7d" r)
      let ⟨no, r, h⟩ ← past h (bodyFrom ["endif"] [] trim r)
      let ⟨trim, r, h⟩ ← past h (tagEnd "%\x7d" r)
      return ⟨⟨.branch e yes.nodes no.nodes, trim⟩, r, h⟩
  | _ =>
    let ⟨trim, r, h⟩ ← past h (tagEnd "%\x7d" r)
    return ⟨⟨.branch e yes.nodes [], trim⟩, r, h⟩
termination_by 8 * s.length

/-- A loop after its keyword. One with a second body is a branching on its source, which runs that
body when there is nothing to loop over. -/
def forStatement (s : List Char) : Except Failure (Reading 1 Statement s) := do
  let ⟨head, r, h⟩ ← loopHead s
  let ⟨b, r, h⟩ ← past h (bodyFrom ["else", "endfor"] [] head.trim r)
  let ⟨trim, r, h⟩ ← past h (tagEnd "%\x7d" r)
  let n : Node := .loop head.key head.item head.source b.nodes
  if b.closer = "else" then
    let ⟨no, r, h⟩ ← past h (bodyFrom ["endfor"] [] trim r)
    let ⟨trim, r, h⟩ ← past h (tagEnd "%\x7d" r)
    return ⟨⟨.branch head.source [n] no.nodes, trim⟩, r, h⟩
  else return ⟨⟨n, trim⟩, r, h⟩
termination_by 8 * s.length

end

end TagCompiler.Template
