import TagCompiler.Lowering.Rebuild
import TagCompiler.Lowering.BoundName
/-!
View models that are known before the page runs.

A call argument with the name of a model and a string literal as its value names a view model. Its
data is bound by a `loadModel` call in front of the statement that holds the call, and the argument
becomes the variable so bound.
-/

namespace TagCompiler

namespace ModelLoading

/-- The names `model`, `...Model` and `..._model`. -/
def isModelName (name : String) : Bool :=
  name == "model" || "Model".toList.isSuffixOf name.toList || "_model".toList.isSuffixOf name.toList

/-- The name and the path of an argument that names a view model. -/
def modelRequest? : Node → Option (String × String)
  | .parameter (some name) (some (.literal (.string path) _)) =>
    if isModelName name then some (name, path) else none
  | _ => none

/-- The arguments of a call that name view models. -/
def modelRequests (call : Node) : List (String × String) :=
  call.parameterList.filterMap modelRequest?

/-- The paths that the calls of a tree name, in the order in which they stand. -/
def paths (n : Node) : List String :=
  n.preorder.flatMap fun
    | .call name p cs => (modelRequests (.call name p cs)).map Prod.snd
    | _ => []

/-- The variable that holds a model for one parameter of one macro. -/
def variableName (call parameter : String) : String := boundName call parameter ++ "_data"

/-- The call that binds the variable `name` to the data of a model. -/
def load (name : String) (data : Value) : Node :=
  .call "loadModel" (.parameters [.named "var" (.string name), .named "data" (.data data)]) []

/-- Data by path. -/
abbrev Models := List (String × Value)

/-- Passes the variable `name` for every argument called `parameter`. -/
def pass (parameter name : String) (arguments : List Node) : List Node :=
  arguments.map fun a => if a.isNamed parameter then .named parameter (.var [name]) else a

/-- Binds the models that the arguments `named` of a call ask for: the loads to run before the
call, and its new arguments. -/
def bind (models : Models) (call : String) :
    List (String × String) → List Node → List Node × List Node
  | [], arguments => ([], arguments)
  | (parameter, path) :: named, arguments =>
    match models.lookup path with
    | none => bind models call named arguments
    | some data =>
      let name := variableName call parameter
      let (loads, arguments) := bind models call named (pass parameter name arguments)
      (load name data :: loads, arguments)

/-- Carries the loads that the statement at hand needs. -/
abbrev Loading := StateT (List Node) (Except ShapeFault)

def rebuilder (models : Models) : Rebuilder Loading where
  node n rebuilt := do
    let rebuilt ← rebuilt
    match n, rebuilt with
    | .call name _ _, .call _ p cs =>
      match modelRequests n with
      | [] => return rebuilt
      | named =>
        let (loads, arguments) := bind models name named p.parameterList
        modify (· ++ loads)
        Node.call? name arguments cs
    | _, _ => return rebuilt
  statement rebuilt := do
    let outer ← get
    set ([] : List Node)
    let n ← rebuilt
    let loads ← get
    set outer
    return loads ++ [n]

end ModelLoading

/-- Binds the models of a tree. Loads for a call at the root stand in a list before it. -/
def Node.loadModels (models : ModelLoading.Models) (n : Node) : Except ShapeFault Node := do
  let (n, loads) ← ((ModelLoading.rebuilder models).run n).run []
  return if loads.isEmpty then n else .list (loads ++ [n])

end TagCompiler
