import TagCompiler.Json.Reader
import TagCompiler.Node.Json
import TagCompiler.TagFile.Statement
/-!
Pipelines: which passes run, in which order, and how the result is written.

A configuration can be written as JSON data and read from it. A member that is missing has its
default, one that is not known is ignored, and one that is there must have the right type. Some
configurations that can be read make no sense; `Config.validate` refuses them.
-/

namespace TagCompiler

inductive Pass where
  | clone
  | concat
  | decorate (lead trail : String) (exclude : List String)
  | empty
  | loop
  /-- Expands calls; `external` says whether macros are also taken from the content. -/
  | inline (external : Bool)
  | self (source target : String)
  | staticModel
  deriving DecidableEq

inductive Renderer where
  /-- Writes nothing. -/
  | null
  | tagFile (options : TagOptions)
  deriving DecidableEq

structure Config where
  passes : List Pass
  renderer : Renderer
  deriving DecidableEq

inductive ConfigError where
  | bareDecoration
  | emptyName
  | emptyTagPrefix
  deriving DecidableEq

def ConfigError.message : ConfigError → String
  | .bareDecoration => "the decorate pass needs a prefix or a suffix"
  | .emptyName => "the self pass needs non-empty names"
  | .emptyTagPrefix => "the JSP renderer needs a tag prefix"

/-! ### Members with a default -/

namespace Members

/-- The member `k` as `read?` reads it, or the default if there is none. -/
def getD {α : Type} (ms : Members) (k : String) (read? : Value → Option α) (default : α) :
    Option α :=
  match ms.lookup k with
  | none => some default
  | some v => read? v

end Members

def Value.asBool? : Value → Option Bool
  | .bool b => some b
  | _ => none

/-! ### Passes -/

namespace Pass

def name : Pass → String
  | .clone => "clone"
  | .concat => "concat"
  | .decorate .. => "decorate"
  | .empty => "empty"
  | .loop => "loop"
  | .inline _ => "inline"
  | .self .. => "self"
  | .staticModel => "static-model"

def toValue (p : Pass) : Value :=
  let tag : String × Value := ("pass", .string p.name)
  match p with
  | .decorate lead trail exclude =>
    .object [("exclude", .array (exclude.map .string)), tag, ("prefix", .string lead),
      ("suffix", .string trail)]
  | .inline external => .object [("external", .bool external), tag]
  | .self source target => .object [("from", .string source), tag, ("to", .string target)]
  | _ => .object [tag]

def ofMembers? (ms : Members) : Option Pass := do
  match ← (ms.lookup "pass").bind Value.asString? with
  | "clone" => return .clone
  | "concat" => return .concat
  | "decorate" =>
    let lead ← ms.getD "prefix" Value.asString? ""
    let trail ← ms.getD "suffix" Value.asString? ""
    let exclude ← ms.getD "exclude" Value.asStrings? []
    return .decorate lead trail exclude
  | "empty" => return .empty
  | "loop" => return .loop
  | "inline" => return .inline (← ms.getD "external" Value.asBool? true)
  | "self" =>
    let source ← ms.getD "from" Value.asString? "this"
    let target ← ms.getD "to" Value.asString? "self"
    return .self source target
  | "static-model" => return .staticModel
  | _ => none

def ofValue? : Value → Option Pass
  | .object ms => ofMembers? ms
  | _ => none

/-- The passes of the standard pipeline. -/
def standard : List Pass :=
  [.staticModel, .inline true, .concat, .empty, .loop, .self "this" "self"]

def validate : Pass → Except ConfigError Unit
  | .decorate lead trail _ =>
    if lead.isEmpty && trail.isEmpty then .error .bareDecoration else .ok ()
  | .self source target => if source.isEmpty || target.isEmpty then .error .emptyName else .ok ()
  | _ => .ok ()

end Pass

/-! ### Renderers -/

namespace Renderer

def name : Renderer → String
  | .null => "null"
  | .tagFile _ => "jsp"

def toValue (r : Renderer) : Value :=
  let tag : String × Value := ("kind", .string r.name)
  match r with
  | .null => .object [tag]
  | .tagFile o =>
    .object [("body-content", .string o.bodyContent), ("emit-header", .bool o.emitHeader), tag,
      ("tag-dir", .string o.tagDir), ("tag-prefix", .string o.tagPrefix)]

def ofMembers? (ms : Members) : Option Renderer := do
  match ← (ms.lookup "kind").bind Value.asString? with
  | "null" => return .null
  | "jsp" =>
    let d := TagOptions.standard
    let tagPrefix ← ms.getD "tag-prefix" Value.asString? d.tagPrefix
    let tagDir ← ms.getD "tag-dir" Value.asString? d.tagDir
    let bodyContent ← ms.getD "body-content" Value.asString? d.bodyContent
    let emitHeader ← ms.getD "emit-header" Value.asBool? d.emitHeader
    return .tagFile ⟨tagPrefix, tagDir, bodyContent, emitHeader⟩
  | _ => none

def ofValue? : Value → Option Renderer
  | .object ms => ofMembers? ms
  | _ => none

def standard : Renderer := .tagFile .standard

def validate : Renderer → Except ConfigError Unit
  | .tagFile o => if o.tagPrefix.isEmpty then .error .emptyTagPrefix else .ok ()
  | .null => .ok ()

/-- Writes a tree that the passes have been through. -/
def render : Renderer → Node → Except TagFile.Unsupported String
  | .null, _ => .ok ""
  | .tagFile o, n => TagFile.render o n

end Renderer

/-! ### Whole pipelines -/

namespace Config

def standard : Config := ⟨Pass.standard, Renderer.standard⟩

def toValue (c : Config) : Value :=
  .object [("passes", .array (c.passes.map Pass.toValue)), ("renderer", c.renderer.toValue)]

def passes? : Value → Option (List Pass)
  | .array vs => vs.mapM Pass.ofValue?
  | _ => none

def ofMembers? (ms : Members) : Option Config := do
  let passes ← ms.getD "passes" passes? Pass.standard
  let renderer ← ms.getD "renderer" Renderer.ofValue? Renderer.standard
  return ⟨passes, renderer⟩

def ofValue? : Value → Option Config
  | .object ms => ofMembers? ms
  | _ => none

/-- Refuses what makes no sense: the passes are looked at in order, then the renderer. -/
def validate (c : Config) : Except ConfigError Unit := do
  c.passes.forM Pass.validate
  c.renderer.validate

/-- The members that a configuration has. -/
def isMember (k : String) : Bool := k == "passes" || k == "renderer"

/-- Reads a configuration from text. -/
def ofText? (text : String) : Option Config := (Json.membersOfText? isMember text).bind ofMembers?

end Config
end TagCompiler
