import TagCompiler.Node.Json
/-!
Matching a node by its kind and its fields.
-/

namespace TagCompiler

/-- What is expected of one field. -/
inductive Expectation where
  | one (value : Value)
  | anyOf (values : List Value)

def Expectation.accepts : Expectation → Value → Bool
  | .one v, w => v.same w
  | .anyOf vs, w => vs.any (·.same w)

/-- Expectations on fields, all of which have to be met. -/
abbrev FieldPattern := List (String × Expectation)

def FieldPattern.holds (m : FieldPattern) (n : Node) : Bool :=
  m.all fun e =>
    match n.field? e.1 with
    | some v => e.2.accepts v
    | none => false

namespace Node

/-- Whether `wanted` names this kind of node, by its full type name or without its `Node`
ending. -/
def hasType (wanted : String) (n : Node) : Bool :=
  wanted == n.typeName || wanted ++ "Node" == n.typeName

/-- Whether the node is of the given kind, if one is given, and meets the given expectations. -/
def fits (type : Option String) (fields : Option FieldPattern) (n : Node) : Bool :=
  type.all n.hasType && fields.all (·.holds n)

end Node
end TagCompiler
