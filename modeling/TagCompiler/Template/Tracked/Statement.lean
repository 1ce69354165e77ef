import TagCompiler.Template.Statement
import TagCompiler.Template.Tracked.Markup
/-!
Statements and their bodies, read from input with a place.
-/

namespace TagCompiler.Template.Tracked

open Text

/-- The default value of a parameter, if it has one. -/
def default (i : Input) : Except Fault (Advance 0 (Option Node) i) :=
  match spaced? "=" i with
  | some ⟨_, j, h⟩ => do return ((← past h (condition j)).map some).loosen
  | none => .ok (.nothing none i)

def declarations (i : Input) : Except Fault (Advance 1 (List Node) i) :=
  match spaced? ")" i with
  | some x => .ok (x.map fun _ => [])
  | none => do
    let ⟨n, j, h⟩ ← name i
    let ⟨value, j, h⟩ ← past h (default j)
    match past h (spaced? "," j) with
    | some ⟨_, j, h⟩ =>
      let ⟨more, j, h⟩ ← past h (declarations j)
      return ⟨.parameter (some n) value :: more, j, h⟩
    | none =>
      let ⟨_, j, h⟩ ← past h (demandSpaced ")" j)
      return ⟨[.parameter (some n) value], j, h⟩
termination_by i.rest.length
decreasing_by all_goals omega

def macroHead (i : Input) : Except Fault (Advance 1 (String × List Node × Bool) i) := do
  let ⟨n, j, h⟩ ← name i
  let ⟨_, j, h⟩ ← past h (demandSpaced "(" j)
  let ⟨ps, j, h⟩ ← past h (declarations j)
  let ⟨trim, j, h⟩ ← past h (tagEnd "%\x7d" j)
  return ⟨(n, ps, trim), j, h⟩

def blockParameters (i : Input) : Except Fault (Advance 0 Unit i) :=
  match spaced? "(" i with
  | some ⟨_, j, h⟩ => do return ((← past h (declarations j)).map fun _ => ()).loosen
  | none => .ok (.nothing () i)

def callHead (i : Input) : Except Fault (Advance 1 (String × List Node × Bool) i) := do
  let ⟨_, j, h⟩ ← blockParameters i
  let ⟨n, j, h⟩ ← skipping h (dottedName j)
  let ⟨_, j, h⟩ ← past h (demandSpaced "(" j)
  let ⟨args, j, h⟩ ← past h (arguments j)
  let ⟨trim, j, h⟩ ← past h (tagEnd "%\x7d" j)
  return ⟨(n, args, trim), j, h⟩

def loopNames (i : Input) : Except Fault (Advance 1 (Option String × String) i) := do
  let ⟨first, j, h⟩ ← name i
  match past h (spaced? "," j) with
  | some ⟨_, j, h⟩ =>
    let ⟨second, j, h⟩ ← past h (name j)
    return ⟨(some first, second), j, h⟩
  | none => return ⟨(none, first), j, h⟩

def loopHead (i : Input) : Except Fault (Advance 1 LoopHead i) := do
  let ⟨names, j, h⟩ ← loopNames i
  match past h (spacedKeyword? "in" j) with
  | none => failAt (.missing "'in'") j.skipBlanks
  | some ⟨_, j, h⟩ =>
    let ⟨e, j, h⟩ ← past h (condition j)
    let ⟨trim, j, h⟩ ← past h (tagEnd "%\x7d" j)
    return ⟨⟨names.1, names.2, e, trim⟩, j, h⟩

def outputTag (i : Input) : Except Fault (Advance 1 Element i) := do
  let ⟨e, j, h⟩ ← condition i
  let ⟨trim, j, h⟩ ← past h (tagEnd "\x7d\x7d" j)
  let n :=
    match e with
    | .yield => .yield
    | e => .output [e]
  return ⟨⟨some n, trim⟩, j, h⟩

mutual

def bodyFrom (ends : List String) (done : List Node) (trim : Bool) (i : Input) :
    Except Fault (Advance 1 Body i) :=
  match i with
  | ⟨p, []⟩ => failAt (.endOfInput (endTags ends)) ⟨p, []⟩
  | ⟨p, c :: s⟩ =>
    let done := if trimsBefore (c :: s) then trimTail done else done
    match endTag? ends ⟨p, c :: s⟩ with
    | some ⟨closer, j, h⟩ => .ok ⟨⟨done.reverse, closer⟩, j, h⟩
    | none => do
      let ⟨e, j, h⟩ ← element false none trim p c s
      let ⟨b, j, h⟩ ← past h (bodyFrom ends (pushAll done e.node?.toList) e.trim j)
      return ⟨b, j, h⟩
termination_by 8 * i.rest.length + 3
decreasing_by all_goals simp only [List.length_cons] at *; omega

def element (top : Bool) (doc : Option String) (trim : Bool) (p : Place) (c : Char)
    (s : List Char) : Except Fault (Advance 1 Element ⟨p, c :: s⟩) :=
  match tagStart? "\x7b\x7b" ⟨p, c :: s⟩ with
  | some ⟨_, j, h⟩ => past h (outputTag j)
  | none =>
    match tagStart? "\x7b%" ⟨p, c :: s⟩ with
    | some ⟨_, j, h⟩ => past h (statement doc j)
    | none =>
      match comment? ⟨p, c :: s⟩ with
      | some found => found.map (Advance.map fun b => ⟨none, b.2⟩)
      | none => .ok ((textFrom top trim p c s).map fun n => ⟨some n, false⟩)
termination_by 8 * (c :: s).length + 2
decreasing_by all_goals simp only [List.length_cons] at *; omega

def statement (doc : Option String) (i : Input) : Except Fault (Advance 1 Element i) := do
  let ⟨keyword, j, h⟩ ← name i
  match keyword with
  | "macro" =>
    let ⟨(n, ps, trim), j, h⟩ ← past h (macroHead j)
    let ⟨b, j, h⟩ ← past h (bodyFrom ["endmacro"] [] trim j)
    let ⟨trim, j, h⟩ ← past h (tagEnd "%\x7d" j)
    return ⟨⟨some (.macroDef n (.parameters ps) b.nodes doc), trim⟩, j, h⟩
  | "call" =>
    let ⟨(n, args, trim), j, h⟩ ← past h (callHead j)
    let ⟨b, j, h⟩ ← past h (bodyFrom ["endcall"] [] trim j)
    let ⟨trim, j, h⟩ ← past h (tagEnd "%\x7d" j)
    return ⟨⟨some (.call n (.parameters args) b.nodes), trim⟩, j, h⟩
  | "set" =>
    let ⟨t, j, h⟩ ← past h (setStatement j)
    return ⟨⟨some t.node, t.trim⟩, j, h⟩
  | "if" =>
    let ⟨t, j, h⟩ ← past h (ifStatement j)
    return ⟨⟨some t.node, t.trim⟩, j, h⟩
  | "for" =>
    let ⟨t, j, h⟩ ← past h (forStatement j)
    return ⟨⟨some t.node, t.trim⟩, j, h⟩
  | "from" | "import" =>
    let ⟨_, j, h⟩ ← past h (skipTag j)
    let ⟨trim, j, h⟩ ← past h (tagEnd "%\x7d" j)
    return ⟨⟨none, trim⟩, j, h⟩
  | _ => failAt (.unknownKeyword keyword) j
termination_by 8 * i.rest.length + 1
decreasing_by all_goals omega

def setStatement (i : Input) : Except Fault (Advance 1 Statement i) := do
  let ⟨n, j, h⟩ ← name i
  match past h (spaced? "=" j) with
  | some ⟨_, j, h⟩ =>
    let ⟨e, j, h⟩ ← past h (condition j)
    let ⟨trim, j, h⟩ ← past h (tagEnd "%\x7d" j)
    return ⟨⟨.assign (.var [n]) e .set, trim⟩, j, h⟩
  | none =>
    if startsWith "," j.skipBlanks.rest then failAt .severalTargets j.skipBlanks
    else
      let ⟨trim, j, h⟩ ← past h (tagEnd "%\x7d" j)
      let ⟨b, j, h⟩ ← past h (bodyFrom ["endset"] [] trim j)
      let ⟨trim, j, h⟩ ← past h (tagEnd "%\x7d" j)
      return ⟨⟨.assign (.var [n]) (.list b.nodes) .set, trim⟩, j, h⟩
termination_by 8 * i.rest.length
decreasing_by all_goals omega

def ifStatement (i : Input) : Except Fault (Advance 1 Statement i) := do
  let ⟨e, j, h⟩ ← condition i
  let ⟨trim, j, h⟩ ← past h (tagEnd "%\x7d" j)
  let ⟨yes, j, h⟩ ← past h (bodyFrom ["elif", "elseif", "else", "endif"] [] trim j)
  match yes.closer with
  | "elif" | "elseif" =>
    let ⟨other, j, h⟩ ← past h (ifStatement j)
    return ⟨⟨.branch e yes.nodes [other.node], other.trim⟩, j, h⟩
  | "else" =>
    match past h (spacedKeyword? "if" j) with
    | some ⟨_, j, h⟩ =>
      let ⟨other, j, h⟩ ← past h (ifStatement j)
      return ⟨⟨.branch e yes.nodes [other.node], other.trim⟩, j, h⟩
    | none =>
      let ⟨trim, j, h⟩ ← past h (tagEnd "%\x7d" j)
      let ⟨no, j, h⟩ ← past h (bodyFrom ["endif"] [] trim j)
      let ⟨trim, j, h⟩ ← past h (tagEnd "%\x7d" j)
      return ⟨⟨.branch e yes.nodes no.nodes, trim⟩, j, h⟩
  | _ =>
    let ⟨trim, j, h⟩ ← past h (tagEnd "%\x7d" j)
    return ⟨⟨.branch e yes.nodes [], trim⟩, j, h⟩
termination_by 8 * i.rest.length
decreasing_by all_goals omega

def forStatement (i : Input) : Except Fault (Advance 1 Statement i) := do
  let ⟨head, j, h⟩ ← loopHead i
  let ⟨b, j, h⟩ ← past h (bodyFrom ["else", "endfor"] [] head.trim j)
  let ⟨trim, j, h⟩ ← past h (tagEnd "%\x7d" j)
  let n : Node := .loop head.key head.item head.source b.nodes
  if b.closer = "else" then
    let ⟨no, j, h⟩ ← past h (bodyFrom ["endfor"] [] trim j)
    let ⟨trim, j, h⟩ ← past h (tagEnd "%\x7d" j)
    return ⟨⟨.branch head.source [n] no.nodes, trim⟩, j, h⟩
  else return ⟨⟨n, trim⟩, j, h⟩
termination_by 8 * i.rest.length
decreasing_by all_goals omega

end

end TagCompiler.Template.Tracked
