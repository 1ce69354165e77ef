import TagCompiler.Pipeline.Run
import TagCompiler.Lowering.ModelLoading
/-!
The macros of a site, and what else a run looks up in the content.

A source defines a macro if the macro stands at the top of its tree. Content has finitely many
sources, so the macros that can be found in it have finitely many names.
-/

namespace TagCompiler
namespace Node

/-- The name of a macro definition. -/
def macroName? : Node → Option String
  | .macroDef name _ _ _ => some name
  | _ => none

/-- What stands at the top of a tree: the elements of a list, or the tree itself. -/
def topLevel : Node → List Node
  | .list cs => cs
  | n => [n]

/-- The macro called `name` at the top of a tree. -/
def topMacro? (name : String) (n : Node) : Option Node :=
  n.topLevel.find? (·.macroName? == some name)

/-- The names of the macros at the top of a tree. -/
def topMacroNames (n : Node) : List String := n.topLevel.filterMap macroName?

theorem mem_topMacroNames {name : String} {n d : Node} (h : n.topMacro? name = some d) :
    name ∈ n.topMacroNames :=
  List.mem_filterMap.mpr ⟨d, List.mem_of_find?_eq_some h, by simpa using List.find?_some h⟩

end Node

namespace Content

/-- The names of all macros that can be found. -/
def macroNames (c : Content) : List String :=
  c.sources.flatMap fun s =>
    match Template.parse s with
    | .ok n => n.topMacroNames
    | .error _ => []

theorem mem_macroNames {c : Content} {site name : String} {m : MacroFile} {n d : Node}
    (hm : c.resolve site name = .ok m) (hn : Template.parse m.source = .ok n)
    (hd : n.topMacro? name = some d) : name ∈ c.macroNames :=
  List.mem_flatMap.mpr ⟨m.source, c.mem_sources hm, by
    rw [hn]
    exact Node.mem_topMacroNames hd⟩

/-- The definition of a macro that was found. -/
structure Found (c : Content) (name : String) where
  node : Node
  known : name ∈ c.macroNames

/-- Looks up the macro `name` of a site. -/
def findMacro (c : Content) (site name : String) : Run (c.Found name) := do
  Run.note (.resolve site name)
  match hm : c.resolve site name with
  | .error (.unknownMacro _ _) => throw (.macroNotFound site name)
  | .error e => throw (.content e)
  | .ok m =>
    let ⟨n, hn⟩ ← Run.parse m.source
    match hd : n.topMacro? name with
    | some d => return ⟨d, mem_macroNames hm hn hd⟩
    | none => throw (.macroNotFound site name)

/-- Looks up the properties of the owner of a macro. -/
def ownerProperties (c : Content) (site name : String) : Run Members := do
  Run.note (.resolve site name)
  let m ← Run.ofExcept .content (c.resolve site name)
  Run.note (.properties site m.entity.id)
  Run.ofExcept .content (c.properties site m.entity)

def lookUpModel (c : Content) (path : String) : Run Value := do
  Run.note (.viewModel path)
  match c.viewModel path with
  | .ok v => return v
  | .error (.unknownViewModel path) => throw (.viewModelNotFound path)
  | .error e => throw (.content e)

/-- Looks up the view models that are not `known` yet. -/
def lookUpModels (c : Content) (known : ModelLoading.Models) :
    (paths : List String) → Run ModelLoading.Models
  | [] => pure known
  | path :: paths =>
    match known.lookup path with
    | some _ => c.lookUpModels known paths
    | none => do
      let v ← c.lookUpModel path
      c.lookUpModels (known ++ [(path, v)]) paths

end Content
end TagCompiler
