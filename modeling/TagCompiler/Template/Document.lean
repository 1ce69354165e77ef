import TagCompiler.Template.Statement
/-!
Whole templates.

At the top level a run of doc blocks may stand before a macro definition, whose documentation is
then the first block of the run. A run that no macro follows is text: doc comments as they are
written, comments as nothing, and the blanks after each.

A template that is one macro definition, with nothing but blanks around it, is read as that
definition; any other as the list of its elements.
-/

namespace TagCompiler.Template

open Text

/-- A doc block that may yet turn out to document a macro, and the text it is otherwise. -/
structure DocBlock where
  doc : String
  asText : List Char

/-- A doc block, with the blanks after it, at the front of `s`: the block, and whether text after
it is to lose its leading blanks, where `trim` says so for text before it. -/
def docBlock? (trim : Bool) (s : List Char) :
    Option (Except Failure (Reading 1 (DocBlock × Bool) s)) :=
  match docComment? s with
  | some ⟨body, r, h⟩ =>
    let literal := ['/', '*', '*'] ++ body ++ ['*', '/']
    let ⟨blanks, r, h⟩ := (takeAll isBlank r).past h
    some (.ok ⟨(⟨docText body, literal ++ blanks⟩, trim), r, h⟩)
  | none =>
    (comment? s).map fun found => do
      let ⟨(body, trim), r, h⟩ ← found
      let ⟨blanks, r, h⟩ := (takeAll isBlank r).past h
      return ⟨(⟨docText body, blanks⟩, trim), r, h⟩

/-- Adds a run of doc blocks to a body as text. -/
def pushRun (body : List Node) (run : List DocBlock) : List Node :=
  push body (.text (String.ofList (run.flatMap DocBlock.asText)))

/-- The elements of a template. `done` holds those read so far, the last one first; `run` holds the
doc blocks just before `s`; and `doc` documents the macro at the front of `s`. -/
def elementsFrom (done : List Node) (run : List DocBlock) (doc : Option String) (trim : Bool)
    (s : List Char) : Except Failure (List Node) :=
  match s with
  | [] => .ok (pushRun done run).reverse
  | c :: r =>
    let done := if trimsBefore (c :: r) then trimTail done else done
    match docBlock? trim (c :: r) with
    | some found => do
      let ⟨(block, trim), t, _⟩ ← found
      let run := run ++ [block]
      if (statementKeyword? t).any (·.value == "macro") then
        elementsFrom done [] (run.head?.map DocBlock.doc) trim t
      else if startsDocBlock t then elementsFrom done run none trim t
      else elementsFrom (pushRun done run) [] none trim t
    | none => do
      let ⟨e, t, _⟩ ← element true doc trim c r
      elementsFrom (pushAll done e.node?.toList) run none e.trim t
termination_by s.length
decreasing_by all_goals simp only [List.length_cons] at *; omega

/-- The template made of the given elements. -/
def ofElements (nodes : List Node) : Node :=
  match nodes.filter (!·.isBlankText) with
  | [.macroDef n p b d] => .macroDef n p b d
  | _ => .list nodes

end TagCompiler.Template
