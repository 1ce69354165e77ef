import TagCompiler.Template.Lexeme
/-!
Expressions.

Chains are kept flat: a condition joins expressions by `and` and `or`, an expression joins operands
by operators, left to right and without precedence. An operand may be negated; below that stand
filters, and below those literals, variables, calls, arrays, maps and parentheses.

Every reader of an expression uses up at least one character, so the readers may call each other:
the unread input gets shorter, or the level of the grammar lower.
-/

namespace TagCompiler.Template

open Text

/-- A chain of one element needs no node of its own. -/
def chain (wrap : List Node → Node) (first : Node) (more : List Node) : Node :=
  if more.isEmpty then first else wrap (first :: more)

/-- One of `and` and `or`, or the sign for it. -/
def connective? (s : List Char) : Option (Reading 1 String s) :=
  let t := skipBlanks s
  let both := (keyword? "and" t <|> word? "&&" t).map (Reading.map fun _ => "and")
  let either := (keyword? "or" t <|> word? "||" t).map (Reading.map fun _ => "or")
  skipping (skipBlanks_length_le s) (both <|> either)

/-- The operators that are signs; one that starts with another stands before it. -/
def operatorSigns : List String :=
  ["==", "!=", "<=", ">=", "//", "**", "<", ">", "+", "-", "*", "/", "%", "~"]

/-- A binary operator. The end of a tag is never taken for one. -/
def operator? (s : List Char) : Option (Reading 1 String s) :=
  let t := skipBlanks s
  if startsWith "-\x7d\x7d" t || startsWith "-%\x7d" t || startsWith "%\x7d" t then none
  else
    let found :=
      match keyword? "in" t with
      | some r => some (r.map fun _ => "in")
      | none => operatorSigns.findSome? fun w => (word? w t).map (Reading.map fun _ => w)
    skipping (skipBlanks_length_le s) found

/-- A negation: `not`, or `!` that is not the start of `!=`. -/
def negation? (s : List Char) : Option (Reading 1 Unit s) :=
  let t := skipBlanks s
  let found :=
    match keyword? "not" t with
    | some r => some r
    | none => if startsWith "!=" t then none else word? "!" t
  skipping (skipBlanks_length_le s) found

/-- The sign before a filter, which is no `||`. -/
def pipe? (s : List Char) : Option (Reading 1 Unit s) :=
  if startsWith "||" (skipBlanks s) then none else spaced? "|" s

/-- The name of a keyword argument with its `=`, which is no `==`. -/
def keywordArgument? (s : List Char) : Option (Reading 1 String s) := do
  let ⟨n, r, h⟩ ← name? s
  if startsWith "==" (skipBlanks r) then none
  else
    let ⟨_, r, h⟩ ← past h (spaced? "=" r)
    some ⟨n, r, h⟩

/-- The key of a map entry. -/
def mapKey (s : List Char) : Except Failure (Reading 1 String s) :=
  let t := skipBlanks s
  let found := if t.head?.any isQuote then quoted t else nameHere t
  skipping (skipBlanks_length_le s) found

/-- The inside of an index: a string, or a digit and what continues it like a name. -/
def index (s : List Char) : Except Failure (Reading 1 String s) :=
  match s with
  | [] => fail (.missing "string or integer index") []
  | c :: r =>
    if isQuote c then quoted (c :: r)
    else if h : isDigit c then
      .ok ((takeSome isNameChar c r (isNameChar_of_isDigit h)).map String.ofList)
    else fail (.missing "string or integer index") (c :: r)

/-- The further parts of a variable path, each after a dot or in brackets. -/
def pathTail (s : List Char) : Except Failure (Reading 0 (List String) s) :=
  match s with
  | '.' :: c :: r =>
    if h : isNameChar c then do
      let ⟨part, t, h⟩ := takeSome isNameChar c r h
      let more ← past h (pathTail t)
      return ((more.map (String.ofList part :: ·)).cons '.').loosen
    else .ok (.nothing [] ('.' :: c :: r))
  | '[' :: r => do
    let ⟨part, t, h⟩ ← skipping (skipBlanks_length_le r) (index (skipBlanks r))
    let ⟨_, t, h⟩ ← past h (demandSpaced "]" t)
    let more ← past h (pathTail t)
    return ((more.map (part :: ·)).cons '[').loosen
  | s => .ok (.nothing [] s)
termination_by s.length
decreasing_by all_goals simp only [List.length_cons] at *; omega

/-- The literals that are written as names. -/
def namedLiteral? : String → Option Node
  | "true" | "True" => some (.bool true)
  | "false" | "False" => some (.bool false)
  | "none" | "None" | "null" => some .null
  | _ => none

/-- A call in an expression. The block that a macro was called with goes by the name `caller`. -/
def callOrYield (path : List String) (arguments : List Node) : Node :=
  let callee := ".".intercalate path
  if callee = "caller" then .yield else .call callee (.parameters arguments) []

mutual

def condition (s : List Char) : Except Failure (Reading 1 Node s) := do
  let ⟨first, r, h⟩ ← expression s
  let ⟨more, r, h⟩ ← past h (connectives r)
  return ⟨chain .condition first more, r, h⟩
termination_by 16 * s.length + 9

/-- The rest of a condition: connectives, each with the expression after it. -/
def connectives (s : List Char) : Except Failure (Reading 0 (List Node) s) :=
  match connective? s with
  | none => .ok ⟨[], skipBlanks s, skipBlanks_length_le s⟩
  | some ⟨op, r, h⟩ => do
    let ⟨e, r, h⟩ ← past h (expression r)
    let more ← past h (connectives r)
    return (more.map fun rest => .connective op :: e :: rest).loosen
termination_by 16 * s.length

def expression (s : List Char) : Except Failure (Reading 1 Node s) := do
  let ⟨first, r, h⟩ ← operand s
  let ⟨more, r, h⟩ ← past h (operators r)
  return ⟨chain .expression first more, r, h⟩
termination_by 16 * s.length + 8

/-- The rest of an expression: operators, each with the operand after it. -/
def operators (s : List Char) : Except Failure (Reading 0 (List Node) s) :=
  match operator? s with
  | none => .ok ⟨[], skipBlanks s, skipBlanks_length_le s⟩
  | some ⟨op, r, h⟩ => do
    let ⟨e, r, h⟩ ← past h (operand r)
    let more ← past h (operators r)
    return (more.map fun rest => .operator op :: e :: rest).loosen
termination_by 16 * s.length

def operand (s : List Char) : Except Failure (Reading 1 Node s) :=
  match negation? s with
  | some ⟨_, r, h⟩ => do
    let ⟨e, r, h⟩ ← past h (operand r)
    return ⟨.expression [.operator "not", e], r, h⟩
  | none => do
    have := skipBlanks_length_le s
    let ⟨e, r, h⟩ ← skipping this (primary (skipBlanks s))
    let ⟨e, r, h⟩ ← past h (filters e r)
    return ⟨e, r, h⟩
termination_by 16 * s.length + 7

/-- The filters after an operand, of which each applies to all before it. -/
def filters (subject : Node) (s : List Char) : Except Failure (Reading 0 Node s) :=
  match pipe? s with
  | none => .ok ⟨subject, skipBlanks s, skipBlanks_length_le s⟩
  | some ⟨_, r, h⟩ => do
    let ⟨n, r, h⟩ ← past h (name r)
    match past h (spaced? "(" r) with
    | some ⟨_, r, h⟩ =>
      let ⟨args, r, h⟩ ← past h (arguments r)
      return (← past h (filters (.filter n subject (.parameters args)) r)).loosen
    | none => return (← past h (filters (.filter n subject (.parameters [])) r)).loosen
termination_by 16 * s.length

/-- An operand without filters, at the front of `s`. -/
def primary (s : List Char) : Except Failure (Reading 1 Node s) :=
  match s with
  | [] => fail (.endOfInput "expression") []
  | '(' :: r => do
    let ⟨e, t, h⟩ ← condition r
    let close ← past h (demandSpaced ")" t)
    return (close.map fun _ => .group [e]).cons '('
  | '[' :: r => do return ((← items r).map .array).cons '['
  | '\x7b' :: r => do return ((← entries r).map .parameters).cons '\x7b'
  | c :: r =>
    if isQuote c then do return (← quoted (c :: r)).map Node.string
    else
      match number? (c :: r) with
      | some n => n
      | none =>
        if isNameStart c then reference (c :: r) else fail (.missing "expression") (c :: r)
termination_by 16 * s.length + 6
decreasing_by all_goals simp only [List.length_cons]; omega

/-- A literal that is written as a name, a variable or a call. -/
def reference (s : List Char) : Except Failure (Reading 1 Node s) := do
  let ⟨n, r, h⟩ ← nameHere s
  match namedLiteral? n with
  | some e => return ⟨e, r, h⟩
  | none =>
    let ⟨parts, r, h⟩ ← past h (pathTail r)
    match past h (word? "(" r) with
    | some ⟨_, r, h⟩ =>
      let ⟨args, r, h⟩ ← past h (arguments r)
      return ⟨callOrYield (n :: parts) args, r, h⟩
    | none => return ⟨.var (n :: parts), r, h⟩
termination_by 16 * s.length + 5

/-- The arguments of a call up to the closing parenthesis. -/
def arguments (s : List Char) : Except Failure (Reading 1 (List Node) s) :=
  match spaced? ")" s with
  | some r => .ok (r.map fun _ => [])
  | none => do
    let ⟨a, r, h⟩ ← argument s
    match past h (spaced? "," r) with
    | some ⟨_, r, h⟩ =>
      let ⟨more, r, h⟩ ← past h (arguments r)
      return ⟨a :: more, r, h⟩
    | none =>
      let ⟨_, r, h⟩ ← past h (demandSpaced ")" r)
      return ⟨[a], r, h⟩
termination_by 16 * s.length + 11

def argument (s : List Char) : Except Failure (Reading 1 Node s) :=
  match keywordArgument? s with
  | some ⟨n, r, h⟩ => do
    let ⟨e, r, h⟩ ← past h (condition r)
    return ⟨.named n e, r, h⟩
  | none => do return (← condition s).map Node.positional
termination_by 16 * s.length + 10

/-- The items of an array up to the closing bracket. -/
def items (s : List Char) : Except Failure (Reading 1 (List Node) s) :=
  match spaced? "]" s with
  | some r => .ok (r.map fun _ => [])
  | none => do
    let ⟨e, r, h⟩ ← condition s
    match past h (spaced? "," r) with
    | some ⟨_, r, h⟩ =>
      let ⟨more, r, h⟩ ← past h (items r)
      return ⟨e :: more, r, h⟩
    | none =>
      let ⟨_, r, h⟩ ← past h (demandSpaced "]" r)
      return ⟨[e], r, h⟩
termination_by 16 * s.length + 10

/-- The entries of a map up to the closing brace. -/
def entries (s : List Char) : Except Failure (Reading 1 (List Node) s) :=
  match spaced? "\x7d" s with
  | some r => .ok (r.map fun _ => [])
  | none => do
    let ⟨key, r, h⟩ ← mapKey s
    let ⟨_, r, h⟩ ← past h (demandSpaced ":" r)
    let ⟨e, r, h⟩ ← past h (condition r)
    match past h (spaced? "," r) with
    | some ⟨_, r, h⟩ =>
      let ⟨more, r, h⟩ ← past h (entries r)
      return ⟨.named key e :: more, r, h⟩
    | none =>
      let ⟨_, r, h⟩ ← past h (demandSpaced "\x7d" r)
      return ⟨[.named key e], r, h⟩
termination_by 16 * s.length + 10

end

end TagCompiler.Template
