import TagCompiler.Node.Basic
import TagCompiler.Text.Split
/-!
Constructors for common shapes, and the four that check theirs.

A variable has a name, a connective is `and` or `or`, a parameter list holds parameters, and the
target of an assignment is a variable. Asking for anything else is a `ShapeFault`.
-/

namespace TagCompiler

inductive ShapeFault where
  | emptyPath
  | notConnective (symbol : String)
  | notParameters
  | notTarget
  deriving DecidableEq

def ShapeFault.message : ShapeFault → String
  | .emptyPath => "a variable needs at least one field"
  | .notConnective symbol => "'" ++ symbol ++ "' is not a boolean operator"
  | .notParameters => "parameter lists only hold ParameterNodes"
  | .notTarget => "set targets must be VariableNodes"

namespace Node

def string (s : String) : Node := .literal (.string s) .string

def int (n : Int) : Node := .literal (.number (.int n)) .number

def bool (b : Bool) : Node := .literal (.bool b) .boolean

def null : Node := .literal .null .null

def named (name : String) (value : Node) : Node := .parameter (some name) (some value)

def positional (value : Node) : Node := .parameter none (some value)

/-- A variable from a path written with dots. -/
def ofDotted (path : String) : Node := .var (Text.split '.' path)

def var? (path : List String) : Except ShapeFault Node :=
  if path.isEmpty then .error .emptyPath else .ok (.var path)

def connective? (symbol : String) : Except ShapeFault Node :=
  if symbol = "and" ∨ symbol = "or" then .ok (.connective symbol)
  else .error (.notConnective symbol)

def parameters? (entries : List Node) : Except ShapeFault Node :=
  if entries.all isParameter then .ok (.parameters entries) else .error .notParameters

def call? (name : String) (entries body : List Node) : Except ShapeFault Node :=
  (parameters? entries).map fun p => .call name p body

def macroDef? (name : String) (entries body : List Node) : Except ShapeFault Node :=
  (parameters? entries).map fun p => .macroDef name p body none

def filter? (name : String) (subject : Node) (entries : List Node) : Except ShapeFault Node :=
  (parameters? entries).map fun p => .filter name subject p

def assign? (op : AssignOp) (target value : Node) : Except ShapeFault Node :=
  if target.isVar then .ok (.assign target value op) else .error .notTarget

end Node
end TagCompiler
