import TagCompiler.TagFile.Expression
/-!
Statements of a tag file, and the tag files of macros.

A macro becomes the directives of a tag file, the defaults of its parameters and its body; a call
becomes a custom tag; assignments, branchings and loops become tags of the core tag library.
-/

namespace TagCompiler

/-- The settings of a tag file. -/
structure TagOptions where
  /-- The name space of the custom tags. -/
  tagPrefix : String
  /-- The directory that the custom tags are taken from. -/
  tagDir : String
  bodyContent : String
  /-- Whether a macro starts with its directives. -/
  emitHeader : Bool
  deriving DecidableEq

def TagOptions.standard : TagOptions := ⟨"ui", "/WEB-INF/tags", "scriptless", true⟩

namespace TagFile

def setValue (name value : String) : String :=
  "<c:set var=\"" ++ name ++ "\" value=\"" ++ live value ++ "\"/>"

def setBody (name body : String) : String :=
  "<c:set var=\"" ++ name ++ "\">" ++ body ++ "</c:set>"

/-- The place where a tag file runs the body of its tag. -/
def runBody : String := "<jsp:doBody/>"

def when (test body : String) : String :=
  "<c:when test=\"" ++ live test ++ "\">" ++ body ++ "</c:when>"

/-- A loop over maps gives each entry its own name, from which key and value are then set. -/
def forEach (key : Option String) (item items body : String) : String :=
  let start (name : String) :=
    "<c:forEach var=\"" ++ name ++ "\" items=\"" ++ live items ++ "\" varStatus=\"loop\">"
  let head :=
    match key with
    | none => start item
    | some key =>
      let entry := key ++ "_entry"
      start entry ++ setValue key (entry ++ ".key") ++ setValue item (entry ++ ".value")
  head ++ body ++ "</c:forEach>"

/-- The attributes of a custom tag; a positional one is called after its place, of which the first
is given. -/
def tagAttributes : Nat → List Node → Except Unsupported String
  | _, [] => .ok ""
  | place, .parameter name (some v) :: ns => do
    let (label, next) :=
      match name with
      | some name => (name, place)
      | none => ("arg" ++ toString place, place + 1)
    let value ← expression v
    let rest ← tagAttributes next ns
    return " " ++ label ++ "=\"" ++ live (attributeText value) ++ "\"" ++ rest
  | place, _ :: ns => tagAttributes place ns

/-- A custom tag with the given attributes and, if it has a block, the text of that. -/
def customTag (o : TagOptions) (name attributes : String) (block : Option String) : String :=
  let start := "<" ++ o.tagPrefix ++ ":" ++ name ++ attributes
  match block with
  | none => start ++ "/>"
  | some body => start ++ ">" ++ body ++ "</" ++ o.tagPrefix ++ ":" ++ name ++ ">"

/-- The directives of a tag file before those of its attributes. -/
def directives (o : TagOptions) : String :=
  "<%@ tag body-content=\"" ++ o.bodyContent ++ "\" pageEncoding=\"UTF-8\" %>\n" ++
  "<%@ taglib prefix=\"c\" uri=\"http://java.sun.com/jsp/jstl/core\" %>\n" ++
  "<%@ taglib prefix=\"fn\" uri=\"http://java.sun.com/jsp/jstl/functions\" %>\n" ++
  "<%@ taglib prefix=\"" ++ o.tagPrefix ++ "\" tagdir=\"" ++ o.tagDir ++ "\" %>\n"

def attributeDirective (name : String) (required : Bool) : String :=
  "<%@ attribute name=\"" ++ name ++ "\" required=\"" ++ (if required then "true" else "false") ++
    "\" rtexprvalue=\"true\" %>\n"

def defaultValue (name value : String) : String :=
  "<c:if test=\"" ++ live ("empty " ++ name) ++ "\">" ++ setValue name value ++ "</c:if>\n"

/-- The directives of the parameters of a macro, and the settings of their defaults. -/
def attributes : List Node → Except Unsupported (String × String)
  | [] => .ok ("", "")
  | .parameter (some name) default :: ns => do
    let setting ←
      match default with
      | some v => (expression v).map fun e => defaultValue name (attributeText e)
      | none => pure ""
    let (directives, settings) ← attributes ns
    return (attributeDirective name default.isNone ++ directives, setting ++ settings)
  | n :: _ => refuse n .unnamedParameter

/-- What stands before the body of a macro. -/
def head (o : TagOptions) (parameters : List Node) (doc : Option String) :
    Except Unsupported String := do
  let (declared, settings) ← attributes parameters
  let header := if o.emitHeader then directives o ++ declared else ""
  return doc.elim "" comment ++ header ++ settings

mutual

def statement (o : TagOptions) : Node → Except Unsupported String
  | .list cs => statements o cs
  | .text s => .ok (text s)
  | .macroDef _ p cs doc => do return (← head o p.parameterList doc) ++ (← statements o cs)
  | .output [.call n p cs] => do
    let attributes ← tagAttributes 0 p.parameterList
    return customTag o n attributes (← block o cs)
  | .output [e] => do return live (← expression e)
  | .output cs => refuse (.output cs) .outputShape
  | .call n p cs => do
    let attributes ← tagAttributes 0 p.parameterList
    return customTag o n attributes (← block o cs)
  | .yield => .ok runBody
  | .assign t (.list cs) _ => do
    let name ← expression t
    return setBody name (← statements o cs)
  | .assign t .yield _ => do return setBody (← expression t) runBody
  | .assign t v .set => do
    let name ← expression t
    return setValue name (attributeText (← expression v))
  | .assign t v .append => do
    let name ← expression t
    return setValue name (name ++ " += " ++ attributeText (← expression v))
  | .branch c ys ns => do
    let test := attributeText (← expression c)
    let body ← statements o ys
    if ns.isEmpty then return "<c:if test=\"" ++ live test ++ "\">" ++ body ++ "</c:if>"
    else return "<c:choose>" ++ when test body ++ (← otherwise o ns) ++ "</c:choose>"
  | .loop k x v cs => do
    let items := attributeText (← expression v)
    return forEach k x items (← statements o cs)
  | .operator s => refuse (.operator s) .notStatement
  | .connective s => refuse (.connective s) .notStatement
  | .parameter n v => refuse (.parameter n v) .notStatement
  | .parameters cs => refuse (.parameters cs) .notStatement
  | n => do return live (← expression n)

def statements (o : TagOptions) : List Node → Except Unsupported String
  | [] => .ok ""
  | n :: ns => do return (← statement o n) ++ (← statements o ns)

/-- The body of a custom tag, if it has any. -/
def block (o : TagOptions) : List Node → Except Unsupported (Option String)
  | [] => .ok none
  | n :: ns => do return some ((← statement o n) ++ (← statements o ns))

/-- The second branch of a choice. A branching that is all of it adds its cases to the choice. -/
def otherwise (o : TagOptions) : List Node → Except Unsupported String
  | [.branch c ys ns] => do
    let test := attributeText (← expression c)
    let body ← statements o ys
    if ns.isEmpty then return when test body
    else return when test body ++ (← otherwise o ns)
  | ns => do return "<c:otherwise>" ++ (← statements o ns) ++ "</c:otherwise>"

end

/-- Writes a tree as a tag file. -/
def render (o : TagOptions) (n : Node) : Except Unsupported String := statement o n

end TagFile
end TagCompiler
