import TagCompiler.Json.Value
import TagCompiler.Text.Blank
/-!
Template trees.

One type holds statements and expressions alike, because trees also arrive from outside and may
then have any shape: a call whose arguments are no parameter list, an assignment to a literal. What
the checked constructors of `TagCompiler.Node.Build` guarantee is therefore no part of the type.
-/

namespace TagCompiler

inductive LiteralKind where
  | string
  | number
  | boolean
  | null
  deriving DecidableEq

inductive AssignOp where
  | set
  | append
  deriving DecidableEq

inductive Node where
  /-- Data from a view model. -/
  | data (value : Value)
  | literal (value : Value) (kind : LiteralKind)
  | text (content : String)
  | var (path : List String)
  /-- A binary operator, or `not`, inside an expression chain. -/
  | operator (symbol : String)
  /-- One of `and` and `or`, inside a condition chain. -/
  | connective (symbol : String)
  | parameter (name : Option String) (value : Option Node)
  | parameters (entries : List Node)
  | array (items : List Node)
  | call (name : String) (arguments : Node) (body : List Node)
  | macroDef (name : String) (parameters : Node) (body : List Node) (doc : Option String)
  | assign (target value : Node) (op : AssignOp)
  | branch (condition : Node) (yes no : List Node)
  | loop (key : Option String) (item : String) (source : Node) (body : List Node)
  | condition (chain : List Node)
  | expression (chain : List Node)
  | group (inner : List Node)
  | filter (name : String) (subject arguments : Node)
  | output (inner : List Node)
  /-- The place where a macro runs the block it was called with. -/
  | yield
  | list (items : List Node)

namespace Node

def typeName : Node → String
  | .data _ => "ValueNode"
  | .literal .. => "LiteralNode"
  | .text _ => "TextNode"
  | .var _ => "VariableNode"
  | .operator _ => "OperandNode"
  | .connective _ => "BooleanOperandNode"
  | .parameter .. => "ParameterNode"
  | .parameters _ => "ParametersNode"
  | .array _ => "ArrayNode"
  | .call .. => "CallNode"
  | .macroDef .. => "MacroNode"
  | .assign .. => "SetNode"
  | .branch .. => "IfNode"
  | .loop .. => "ForNode"
  | .condition _ => "ConditionNode"
  | .expression _ => "ExpressionNode"
  | .group _ => "GroupNode"
  | .filter .. => "FilterNode"
  | .output _ => "OutputNode"
  | .yield => "YieldNode"
  | .list _ => "NodeList"

/-- A short label for messages. -/
def label (n : Node) : String :=
  let labelled (label : String) := n.typeName ++ " '" ++ label ++ "'"
  match n with
  | .call name .. | .macroDef name .. | .filter name .. => labelled name
  | .var path => labelled (".".intercalate path)
  | .operator s | .connective s | .text s => labelled s
  | _ => n.typeName

/-- The elements of a node that holds a sequence; those of the first branch of a branching. -/
def children : Node → List Node
  | .parameters cs | .array cs | .call _ _ cs | .macroDef _ _ cs _ | .branch _ cs _
  | .loop _ _ _ cs | .condition cs | .expression cs | .group cs | .output cs | .list cs => cs
  | _ => []

/-- All direct subtrees, in the order of the node's fields. -/
def subtrees : Node → List Node
  | .parameter _ v => v.toList
  | .call _ p cs | .macroDef _ p cs _ => p :: cs
  | .assign t v _ => [t, v]
  | .branch c ys ns => c :: (ys ++ ns)
  | .loop _ _ v cs => v :: cs
  | .filter _ v p => [v, p]
  | n => n.children

mutual

/-- The tree's nodes, each before its subtrees. -/
def preorder : Node → List Node
  | .data v => [.data v]
  | .literal v k => [.literal v k]
  | .text s => [.text s]
  | .var p => [.var p]
  | .operator s => [.operator s]
  | .connective s => [.connective s]
  | .parameter n none => [.parameter n none]
  | .parameter n (some v) => .parameter n (some v) :: preorder v
  | .parameters cs => .parameters cs :: preorderAll cs
  | .array cs => .array cs :: preorderAll cs
  | .call n p cs => .call n p cs :: (preorder p ++ preorderAll cs)
  | .macroDef n p cs d => .macroDef n p cs d :: (preorder p ++ preorderAll cs)
  | .assign t v op => .assign t v op :: (preorder t ++ preorder v)
  | .branch c ys ns => .branch c ys ns :: (preorder c ++ (preorderAll ys ++ preorderAll ns))
  | .loop k x v cs => .loop k x v cs :: (preorder v ++ preorderAll cs)
  | .condition cs => .condition cs :: preorderAll cs
  | .expression cs => .expression cs :: preorderAll cs
  | .group cs => .group cs :: preorderAll cs
  | .filter n v p => .filter n v p :: (preorder v ++ preorder p)
  | .output cs => .output cs :: preorderAll cs
  | .yield => [.yield]
  | .list cs => .list cs :: preorderAll cs

def preorderAll : List Node → List Node
  | [] => []
  | n :: ns => preorder n ++ preorderAll ns

end

def isParameter : Node → Bool
  | .parameter .. => true
  | _ => false

def isVar : Node → Bool
  | .var _ => true
  | _ => false

def isMacroDef : Node → Bool
  | .macroDef .. => true
  | _ => false

/-- Whether this is the parameter called `name`. -/
def isNamed (name : String) : Node → Bool
  | .parameter (some n) _ => n == name
  | _ => false

/-- The parameter called `name` of a parameter list, or of the list of a call or macro. -/
def parameterNamed? (name : String) : Node → Option Node
  | .parameters cs => cs.find? (isNamed name)
  | .call _ p _ => parameterNamed? name p
  | .macroDef _ p _ _ => parameterNamed? name p
  | _ => none

/-- The entries of a parameter list, or of the list of a call, macro or filter. -/
def parameterList : Node → List Node
  | .parameters cs => cs
  | .call _ p _ => parameterList p
  | .macroDef _ p _ _ => parameterList p
  | .filter _ _ p => parameterList p
  | _ => []

/-- The first name of a variable path. -/
def rootName? : Node → Option String
  | .var path => path.head?
  | _ => none

/-- Whether this is text made only of blanks. -/
def isBlankText : Node → Bool
  | .text s => s.toList.all Text.isBlank
  | _ => false

mutual

/-- Equality of trees, with equality of data in the leaves. -/
def same : Node → Node → Bool
  | .data v, .data w => v.same w
  | .literal v k, .literal w l => v.same w && k == l
  | .text s, .text t => s == t
  | .var p, .var q => p == q
  | .operator s, .operator t => s == t
  | .connective s, .connective t => s == t
  | .parameter m none, .parameter n none => m == n
  | .parameter m (some v), .parameter n (some w) => m == n && same v w
  | .parameters cs, .parameters ds => sameAll cs ds
  | .array cs, .array ds => sameAll cs ds
  | .call m p cs, .call n q ds => m == n && same p q && sameAll cs ds
  | .macroDef m p cs d, .macroDef n q ds e => m == n && same p q && sameAll cs ds && d == e
  | .assign t v op, .assign u w oq => same t u && same v w && op == oq
  | .branch c ys ns, .branch d zs ms => same c d && sameAll ys zs && sameAll ns ms
  | .loop j x v cs, .loop k y w ds => j == k && x == y && same v w && sameAll cs ds
  | .condition cs, .condition ds => sameAll cs ds
  | .expression cs, .expression ds => sameAll cs ds
  | .group cs, .group ds => sameAll cs ds
  | .filter m v p, .filter n w q => m == n && same v w && same p q
  | .output cs, .output ds => sameAll cs ds
  | .yield, .yield => true
  | .list cs, .list ds => sameAll cs ds
  | _, _ => false

def sameAll : List Node → List Node → Bool
  | [], [] => true
  | m :: ms, n :: ns => same m n && sameAll ms ns
  | _, _ => false

end

end Node
end TagCompiler
