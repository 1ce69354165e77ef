import TagCompiler.Content.Basic
import TagCompiler.Pipeline.Config
import TagCompiler.Lowering.Inlining
import TagCompiler.Template.Error
/-!
Why something could not be compiled.
-/

namespace TagCompiler

inductive CompileError where
  | template (e : Template.SyntaxError)
  | macroNotFound (site name : String)
  | viewModelNotFound (path : String)
  | content (e : LookupError)
  | surplus (e : Inlining.Surplus)
  | render (e : TagFile.Unsupported)
  | config (e : ConfigError)
  /-- A configuration that cannot be read. -/
  | configData
  /-- A pass met a tree of a shape that no template has. -/
  | shape (f : ShapeFault)
  deriving DecidableEq

namespace CompileError

def message : CompileError → String
  | .template e => e.message
  | .macroNotFound site name =>
    "Macro '" ++ name ++ "' could not be located for site '" ++ site ++ "'"
  | .viewModelNotFound path => "View model '" ++ path ++ "' could not be resolved"
  | .content e => e.message
  | .surplus e =>
    "Pass 'inline' cannot rewrite CallNode '" ++ e.callee ++ "': " ++ e.reason
  | .render e => e.message
  | .config e => "Invalid pipeline configuration: " ++ e.message
  | .configData => "Invalid pipeline configuration"
  | .shape f => f.message

/-- Whether the fault lies in the text of the template. -/
def isSyntax : CompileError → Bool
  | .template _ => true
  | _ => false

/-- Whether something could not be looked up. -/
def isResolution : CompileError → Bool
  | .macroNotFound .. | .viewModelNotFound _ | .content _ => true
  | _ => false

end CompileError
end TagCompiler
