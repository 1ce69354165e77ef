import TagCompiler.Template.Document
import TagCompiler.Template.Tracked.Statement
/-!
Reading a template from its source, with the place of an error if it cannot be read.
-/

namespace TagCompiler.Template

open Text

namespace Tracked

def docBlock? (trim : Bool) (i : Input) :
    Option (Except Fault (Advance 1 (DocBlock × Bool) i)) :=
  match docComment? i with
  | some ⟨body, j, h⟩ =>
    let literal := ['/', '*', '*'] ++ body ++ ['*', '/']
    some (.ok ((blanks j).past h |>.map fun gap => (⟨docText body, literal ++ gap⟩, trim)))
  | none =>
    (comment? i).map fun found => do
      let ⟨(body, trim), j, h⟩ ← found
      return (blanks j).past h |>.map fun gap => (⟨docText body, gap⟩, trim)
where
  /-- The blanks at the front. -/
  blanks (i : Input) : Advance 0 (List Char) i :=
    ⟨i.rest.takeWhile isBlank, i.skipBlanks, i.skipBlanks_length_le⟩

def elementsFrom (done : List Node) (run : List DocBlock) (doc : Option String) (trim : Bool)
    (i : Input) : Except Fault (List Node) :=
  match i with
  | ⟨_, []⟩ => .ok (pushRun done run).reverse
  | ⟨p, c :: s⟩ =>
    let done := if trimsBefore (c :: s) then trimTail done else done
    match docBlock? trim ⟨p, c :: s⟩ with
    | some found => do
      let ⟨(block, trim), j, _⟩ ← found
      let run := run ++ [block]
      if (statementKeyword? j).any (·.value == "macro") then
        elementsFrom done [] (run.head?.map DocBlock.doc) trim j
      else if startsDocBlock j.rest then elementsFrom done run none trim j
      else elementsFrom (pushRun done run) [] none trim j
    | none => do
      let ⟨e, j, _⟩ ← element true doc trim p c s
      elementsFrom (pushAll done e.node?.toList) run none e.trim j
termination_by i.rest.length
decreasing_by all_goals simp only [List.length_cons] at *; omega

end Tracked

/-- Reads a template. -/
def parse (source : String) : Except SyntaxError Node :=
  match Tracked.elementsFrom [] [] none false (.ofSource source.toList) with
  | .ok nodes => .ok (ofElements nodes)
  | .error f => .error (f.toError source.toList)

end TagCompiler.Template
