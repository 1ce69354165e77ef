import TagCompiler.Node.Basic
/-!
Why a tree has no tag file.
-/

namespace TagCompiler.TagFile

inductive Reason where
  | outputShape
  | notStatement
  | unnamedParameter
  | noSuchOperator
  | mapEntry
  | notExpression
  deriving DecidableEq

def Reason.text : Reason → String
  | .outputShape => "output holds exactly one expression"
  | .notStatement => "not a statement"
  | .unnamedParameter => "macro parameters must be named"
  | .noSuchOperator => "EL has no such operator"
  | .mapEntry => "map entries need a key and a value"
  | .notExpression => "not an expression"

/-- The node that cannot be written, by its label, and the reason. -/
structure Unsupported where
  node : String
  reason : Reason
  deriving DecidableEq

def Unsupported.message (e : Unsupported) : String :=
  "Renderer cannot emit " ++ e.node ++ ": " ++ e.reason.text

def refuse {α : Type} (n : Node) (reason : Reason) : Except Unsupported α :=
  .error ⟨n.label, reason⟩

end TagCompiler.TagFile
