import TagCompiler.Pipeline.Callees
import TagCompiler.Lowering.Emptiness
import TagCompiler.Lowering.LoopVariable
import TagCompiler.Lowering.StringBuilding
/-!
The compiler: it reads templates, runs its passes over them and writes tag files.
-/

namespace TagCompiler

/-- The content and the site for which something is compiled. -/
structure SiteContext where
  content : Content
  site : String

/-- Runs a pass over a tree. Lookups are made only in a scope. -/
def Pass.run (scope : Option SiteContext) (n : Node) : Pass → Run Node
  | .clone => return n.rebuild
  | .concat => Run.ofExcept .shape n.splitStringBuilding
  | .decorate lead trail exclude => return n.renameNames (.decoration lead trail exclude)
  | .empty => return n.useEmptiness
  | .loop => return n.useStatusObject
  | .inline external => do
    let lib ←
      match scope, external with
      | some s, true => Library.complementing s.content s.site n
      | _, _ => pure (Library.ofTree n)
    Run.ofExcept .surplus (n.inline lib)
  | .self source target => return n.renameRoots (.single source target)
  | .staticModel => do
    let models ←
      match scope with
      | some s => s.content.lookUpModels [] (ModelLoading.paths n)
      | none => pure []
    Run.ofExcept .shape (n.loadModels models)

/-- A compiler is given by its passes and its renderer. -/
abbrev Compiler := Config

/-- A macro to compile. -/
structure Request where
  site : String
  name : String
  deriving DecidableEq

namespace Compiler

/-- The compiler for a configuration that makes sense. -/
def ofConfig (c : Config) : Except CompileError Compiler :=
  match c.validate with
  | .ok _ => .ok c
  | .error e => .error (.config e)

/-- The compiler for a configuration that was read, if one was. -/
def ofRead : Option Config → Except CompileError Compiler
  | some c => ofConfig c
  | none => .error .configData

/-- The compiler for a configuration that is given as data. -/
def ofValue (v : Value) : Except CompileError Compiler := ofRead (Config.ofValue? v)

/-- The compiler for a configuration that is given as text. -/
def ofText (text : String) : Except CompileError Compiler := ofRead (Config.ofText? text)

def passNames (k : Compiler) : List String := k.passes.map Pass.name

/-- A description in one line. -/
def summary (k : Compiler) : String :=
  let quoted (s : String) : String := "\"" ++ s ++ "\""
  "Transpiler \x7b passes: [" ++ ", ".intercalate (k.passNames.map quoted) ++ "], renderer: " ++
    quoted k.renderer.name ++ ", .. \x7d"

/-- Runs the passes, each on the result of the one before. -/
def lower (k : Compiler) (scope : Option SiteContext) (n : Node) : Run Node :=
  k.passes.foldlM (fun n p => p.run scope n) n

def render (k : Compiler) (n : Node) : Run String := Run.ofExcept .render (k.renderer.render n)

/-- Compiles a template that belongs to no site. -/
def compile (k : Compiler) (source : String) : Run String := do
  let ⟨n, _⟩ ← Run.parse source
  k.render (← k.lower none n)

/-- Compiles a macro of a site. -/
def compileMacro (k : Compiler) (c : Content) (r : Request) : Run String := do
  let d ← c.findMacro r.site r.name
  k.render (← k.lower (some ⟨c, r.site⟩) d.node)

/-- Compiles macros one after the other. A failure only affects its own result. -/
def compileAll (k : Compiler) (c : Content) (rs : List Request) :
    StateM Memory (List (Except CompileError String)) :=
  rs.mapM fun r => (k.compileMacro c r).run

end Compiler
end TagCompiler
