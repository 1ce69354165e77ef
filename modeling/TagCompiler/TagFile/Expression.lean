import TagCompiler.Node.Basic
import TagCompiler.TagFile.Error
import TagCompiler.TagFile.Escape
/-!
Expressions of a tag file.
-/

namespace TagCompiler.TagFile

def isLetter (c : Char) : Bool := ('a' ≤ c && c ≤ 'z') || ('A' ≤ c && c ≤ 'Z') || c == '_'

def isDigit (c : Char) : Bool := '0' ≤ c && c ≤ '9'

def isName (s : String) : Bool :=
  match s.toList with
  | [] => false
  | c :: cs => isLetter c && cs.all fun c => isLetter c || isDigit c

/-- How a path goes on with one more part: after a dot, or in brackets as a number or a string. -/
def accessor (part : String) : String :=
  if isName part then "." ++ part
  else if part.toList.all isDigit then "[" ++ part ++ "]"
  else "[" ++ quote part ++ "]"

def path : List String → String
  | [] => ""
  | root :: rest => root ++ String.join (rest.map accessor)

mutual

/-- Data as a literal: lists in brackets, maps in braces with their keys in order. -/
def data : Value → String
  | .null => "null"
  | .bool b => if b then "true" else "false"
  | .number n => n.text
  | .string s => quote s
  | .array xs => "[" ++ ", ".intercalate (dataItems xs) ++ "]"
  | .object ms => "\x7b" ++ ", ".intercalate (dataMembers ms) ++ "\x7d"

def dataItems : List Value → List String
  | [] => []
  | x :: xs => data x :: dataItems xs

def dataMembers : List (String × Value) → List String
  | [] => []
  | (k, v) :: ms => (quote k ++ ": " ++ data v) :: dataMembers ms

end

def literal (v : Value) (k : LiteralKind) : String :=
  match k with
  | .null => "null"
  | _ => data v

/-- The spelling of an operator, if there is such an operator. -/
def operator? : String → Option String
  | "~" => some "+="
  | "//" => some "div"
  | "in" | "**" => none
  | s => some s

/-- A filter as a call of the function library, or as what it stands for. A missing argument is
the empty string. -/
def filter (name subject : String) (arguments : List String) : String :=
  let argument (i : Nat) := arguments.getD i "''"
  match name with
  | "upper" => "fn:toUpperCase(" ++ subject ++ ")"
  | "lower" => "fn:toLowerCase(" ++ subject ++ ")"
  | "length" | "count" => "fn:length(" ++ subject ++ ")"
  | "trim" => "fn:trim(" ++ subject ++ ")"
  | "escape" | "e" => "fn:escapeXml(" ++ subject ++ ")"
  | "replace" => "fn:replace(" ++ subject ++ ", " ++ argument 0 ++ ", " ++ argument 1 ++ ")"
  | "join" => "fn:join(" ++ subject ++ ", " ++ argument 0 ++ ")"
  | "split" => "fn:split(" ++ subject ++ ", " ++ argument 0 ++ ")"
  | "first" => subject ++ "[0]"
  | "last" => subject ++ "[fn:length(" ++ subject ++ ") - 1]"
  | "default" | "d" => "(empty " ++ subject ++ " ? " ++ argument 0 ++ " : " ++ subject ++ ")"
  | "safe" => subject
  | "string" => "('' += " ++ subject ++ ")"
  | other => "fn:" ++ other ++ "(" ++ ", ".intercalate (subject :: arguments) ++ ")"

mutual

def expression : Node → Except Unsupported String
  | .data v => .ok (data v)
  | .literal v k => .ok (literal v k)
  | .var p => .ok (path p)
  | .operator s =>
    match operator? s with
    | some t => .ok t
    | none => refuse (.operator s) .noSuchOperator
  | .connective s => .ok s
  | .expression cs => do return " ".intercalate (← expressions cs)
  | .condition cs => do return " ".intercalate (← expressions cs)
  | .group cs => do return "(" ++ " ".intercalate (← expressions cs) ++ ")"
  | .filter n v p => do return filter n (← expression v) (← arguments p)
  | .call n p _ => do return n ++ "(" ++ ", ".intercalate (← arguments p) ++ ")"
  | .parameters cs => do return "\x7b" ++ ", ".intercalate (← entries cs) ++ "\x7d"
  | .array cs => do return "[" ++ ", ".intercalate (← expressions cs) ++ "]"
  | .parameter _ (some v) => expression v
  | .output [e] => expression e
  | .output cs => refuse (.output cs) .outputShape
  | n => refuse n .notExpression

def expressions : List Node → Except Unsupported (List String)
  | [] => .ok []
  | n :: ns => do return (← expression n) :: (← expressions ns)

/-- The arguments in the parameter list of a node. -/
def arguments : Node → Except Unsupported (List String)
  | .parameters cs => values cs
  | .call _ p _ => arguments p
  | .macroDef _ p _ _ => arguments p
  | .filter _ _ p => arguments p
  | _ => .ok []

/-- The values of parameters; what has none is passed over. -/
def values : List Node → Except Unsupported (List String)
  | [] => .ok []
  | .parameter _ (some v) :: ns => do return (← expression v) :: (← values ns)
  | _ :: ns => values ns

/-- The entries of a map. -/
def entries : List Node → Except Unsupported (List String)
  | [] => .ok []
  | .parameter (some k) (some v) :: ns => do
    return (quote k ++ ": " ++ (← expression v)) :: (← entries ns)
  | n :: _ => refuse n .mapEntry

end

end TagCompiler.TagFile
