import TagCompiler.Node.Basic
/-!
Trees as JSON data.

`Node.toValue` writes every field under its name, with the kind of node under `type`; keys stand in
order. `Node.ofValue?` reads such data back: fields it does not know are ignored, and a few may be
missing. `Node.field?` gives one field without writing the whole tree.
-/

namespace TagCompiler

namespace LiteralKind

def tag : LiteralKind → String
  | .string => "string"
  | .number => "number"
  | .boolean => "boolean"
  | .null => "null"

def ofTag? : String → Option LiteralKind
  | "string" => some .string
  | "number" => some .number
  | "boolean" => some .boolean
  | "null" => some .null
  | _ => none

end LiteralKind

namespace AssignOp

def tag : AssignOp → String
  | .set => "="
  | .append => "+="

def ofTag? : String → Option AssignOp
  | "=" => some .set
  | "+=" => some .append
  | _ => none

end AssignOp

namespace Value

def ofString? : Option String → Value
  | some s => .string s
  | none => .null

def asString? : Value → Option String
  | .string s => some s
  | _ => none

def asStrings? : Value → Option (List String)
  | .array xs => xs.mapM asString?
  | _ => none

end Value

namespace Node

mutual

def toValue : Node → Value
  | .data v => .object [("type", .string "ValueNode"), ("value", v)]
  | .literal v k =>
    .object [("type", .string "LiteralNode"), ("value", v), ("valueType", .string k.tag)]
  | .text s => .object [("type", .string "TextNode"), ("value", .string s)]
  | .var p =>
    .object [("fields", .array (p.map .string)), ("type", .string "VariableNode")]
  | .operator s => .object [("type", .string "OperandNode"), ("value", .string s)]
  | .connective s => .object [("type", .string "BooleanOperandNode"), ("value", .string s)]
  | .parameter n none =>
    .object [("name", .ofString? n), ("type", .string "ParameterNode"), ("value", .null)]
  | .parameter n (some v) =>
    .object [("name", .ofString? n), ("type", .string "ParameterNode"), ("value", toValue v)]
  | .parameters cs =>
    .object [("children", .array (toValues cs)), ("type", .string "ParametersNode")]
  | .array cs => .object [("children", .array (toValues cs)), ("type", .string "ArrayNode")]
  | .call n p cs =>
    .object [("children", .array (toValues cs)), ("name", .string n), ("parameters", toValue p),
      ("type", .string "CallNode")]
  | .macroDef n p cs d =>
    .object [("children", .array (toValues cs)), ("doc", .ofString? d), ("name", .string n),
      ("parameters", toValue p), ("type", .string "MacroNode")]
  | .assign t v op =>
    .object [("operator", .string op.tag), ("type", .string "SetNode"), ("value", toValue v),
      ("variable", toValue t)]
  | .branch c ys ns =>
    .object [("children", .array (toValues ys)), ("condition", toValue c),
      ("elseChildren", .array (toValues ns)), ("type", .string "IfNode")]
  | .loop k x v cs =>
    .object [("children", .array (toValues cs)), ("keyName", .ofString? k),
      ("type", .string "ForNode"), ("value", toValue v), ("valueName", .string x)]
  | .condition cs =>
    .object [("children", .array (toValues cs)), ("type", .string "ConditionNode")]
  | .expression cs =>
    .object [("children", .array (toValues cs)), ("type", .string "ExpressionNode")]
  | .group cs => .object [("children", .array (toValues cs)), ("type", .string "GroupNode")]
  | .filter n v p =>
    .object [("name", .string n), ("parameters", toValue p), ("type", .string "FilterNode"),
      ("value", toValue v)]
  | .output cs => .object [("children", .array (toValues cs)), ("type", .string "OutputNode")]
  | .yield => .object [("type", .string "YieldNode")]
  | .list cs => .object [("children", .array (toValues cs)), ("type", .string "NodeList")]

def toValues : List Node → List Value
  | [] => []
  | n :: ns => toValue n :: toValues ns

end

/-- The field `name` of the written tree. Names and plain contents are found without writing the
subtrees. -/
def field? (name : String) (n : Node) : Option Value :=
  match n, name with
  | .text s, "value" | .operator s, "value" | .connective s, "value" => some (.string s)
  | .call m .., "name" | .macroDef m .., "name" | .filter m .., "name" => some (.string m)
  | .literal v _, "value" | .data v, "value" => some v
  | n, name => n.toValue.member? name

/-- A string, or null for none, under a key that may be missing. -/
def optionalString? (ms : List (String × Value)) (k : String) : Option (Option String) :=
  match ms.lookup k with
  | none | some .null => some none
  | some (.string s) => some (some s)
  | some _ => none

def string? (ms : List (String × Value)) (k : String) : Option String :=
  (ms.lookup k).bind Value.asString?

mutual

/-- The tree that a value describes. -/
def ofValue? (v : Value) : Option Node :=
  match v with
  | .object ms => do
    match ← string? ms "type" with
    | "ValueNode" => return .data (← ms.lookup "value")
    | "LiteralNode" =>
      return .literal (← ms.lookup "value") (← LiteralKind.ofTag? (← string? ms "valueType"))
    | "TextNode" => return .text (← string? ms "value")
    | "VariableNode" => return .var (← (ms.lookup "fields").bind Value.asStrings?)
    | "OperandNode" => return .operator (← string? ms "value")
    | "BooleanOperandNode" => return .connective (← string? ms "value")
    | "ParameterNode" =>
      let name ← optionalString? ms "name"
      match Value.find? "value" ms with
      | none | some ⟨.null, _⟩ => return .parameter name none
      | some ⟨w, _⟩ => return .parameter name (some (← ofValue? w))
    | "ParametersNode" => return .parameters (← nodesField? ms "children")
    | "ArrayNode" => return .array (← nodesField? ms "children")
    | "CallNode" =>
      return .call (← string? ms "name") (← nodeField? ms "parameters")
        (← nodesField? ms "children")
    | "MacroNode" =>
      return .macroDef (← string? ms "name") (← nodeField? ms "parameters")
        (← nodesField? ms "children") (← optionalString? ms "doc")
    | "SetNode" =>
      let op ←
        match ms.lookup "operator" with
        | none => some .set
        | some w => w.asString?.bind AssignOp.ofTag?
      return .assign (← nodeField? ms "variable") (← nodeField? ms "value") op
    | "IfNode" =>
      let no ← if (ms.lookup "elseChildren").isNone then some [] else nodesField? ms "elseChildren"
      return .branch (← nodeField? ms "condition") (← nodesField? ms "children") no
    | "ForNode" =>
      return .loop (← optionalString? ms "keyName") (← string? ms "valueName")
        (← nodeField? ms "value") (← nodesField? ms "children")
    | "ConditionNode" => return .condition (← nodesField? ms "children")
    | "ExpressionNode" => return .expression (← nodesField? ms "children")
    | "GroupNode" => return .group (← nodesField? ms "children")
    | "FilterNode" =>
      return .filter (← string? ms "name") (← nodeField? ms "value") (← nodeField? ms "parameters")
    | "OutputNode" => return .output (← nodesField? ms "children")
    | "YieldNode" => return .yield
    | "NodeList" => return .list (← nodesField? ms "children")
    | _ => none
  | _ => none
termination_by 3 * sizeOf v
decreasing_by all_goals simp only [Value.object.sizeOf_spec]; omega

def nodeField? (ms : List (String × Value)) (k : String) : Option Node :=
  match Value.find? k ms with
  | none => none
  | some ⟨v, _⟩ => ofValue? v
termination_by 3 * sizeOf ms + 1

def nodesField? (ms : List (String × Value)) (k : String) : Option (List Node) :=
  match Value.find? k ms with
  | some ⟨.array vs, _⟩ => ofValues? vs
  | _ => none
termination_by 3 * sizeOf ms + 1
decreasing_by simp only [Value.array.sizeOf_spec] at *; omega

def ofValues? (vs : List Value) : Option (List Node) :=
  match vs with
  | [] => some []
  | v :: vs => do return (← ofValue? v) :: (← ofValues? vs)
termination_by 3 * sizeOf vs
decreasing_by all_goals simp only [List.cons.sizeOf_spec]; omega

end

end Node
end TagCompiler
