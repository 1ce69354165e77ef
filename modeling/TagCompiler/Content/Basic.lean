import TagCompiler.Json.Value
/-!
Where macros, properties and view models come from.

`Content` is what the compiler knows of its surroundings: three kinds of lookup, each of which may
fail. The sources that its macros can have are finitely many. `Lookup` names a single lookup, for
the record that the compiler keeps of them.
-/

namespace TagCompiler

/-- The owner of a macro file. -/
structure Entity where
  id : String
  category : String
  categoryPlural : String
  /-- Where the entity stands in its category. -/
  path : String
  deriving DecidableEq

/-- A macro file and its owner. -/
structure MacroFile where
  entity : Entity
  file : String
  source : String
  deriving DecidableEq

inductive LookupError where
  | unknownSite (site : String)
  | unknownMacro (site name : String)
  | missingProperties (entity : String)
  | unknownViewModel (path : String)
  | other (reason : String)
  deriving DecidableEq

def LookupError.message : LookupError → String
  | .unknownSite site => "Unknown site '" ++ site ++ "'"
  | .unknownMacro site name =>
    "Macro '" ++ name ++ "' is not defined by any entity of site '" ++ site ++ "'"
  | .missingProperties entity => "Entity '" ++ entity ++ "' has no properties"
  | .unknownViewModel path => "View model '" ++ path ++ "' does not exist"
  | .other reason => "Content model failure: " ++ reason

structure Content where
  resolve : (site name : String) → Except LookupError MacroFile
  properties : (site : String) → Entity → Except LookupError Members
  viewModel : (path : String) → Except LookupError Value
  /-- All sources that a macro can have. -/
  sources : List String
  mem_sources : ∀ {site name m}, resolve site name = .ok m → m.source ∈ sources

inductive Lookup where
  | resolve (site name : String)
  | properties (site entity : String)
  | viewModel (path : String)
  deriving DecidableEq

def Lookup.text : Lookup → String
  | .resolve site name => "macro " ++ site ++ " " ++ name
  | .properties site entity => "properties " ++ site ++ " " ++ entity
  | .viewModel path => "model " ++ path

namespace Content

/-- Content without anything. -/
def empty : Content where
  resolve site _ := .error (.unknownSite site)
  properties _ entity := .error (.missingProperties entity.id)
  viewModel path := .error (.unknownViewModel path)
  sources := []
  mem_sources h := by simp at h

/-- Content in which the lookups with the given texts fail for the given reasons. -/
def failing (faults : List (String × String)) (c : Content) : Content where
  resolve site name :=
    match faults.lookup (Lookup.resolve site name).text with
    | some reason => .error (.other reason)
    | none => c.resolve site name
  properties site entity :=
    match faults.lookup (Lookup.properties site entity.id).text with
    | some reason => .error (.other reason)
    | none => c.properties site entity
  viewModel path :=
    match faults.lookup (Lookup.viewModel path).text with
    | some reason => .error (.other reason)
    | none => c.viewModel path
  sources := c.sources
  mem_sources h := by
    split at h
    · simp at h
    · exact c.mem_sources h

end Content
end TagCompiler
