import TagCompiler.Template.Expression
import TagCompiler.Template.Tracked.Lexeme
/-!
Expressions, read from input with a place.
-/

namespace TagCompiler.Template.Tracked

open Text

def connective? (i : Input) : Option (Advance 1 String i) :=
  let j := i.skipBlanks
  let both := (keyword? "and" j <|> word? "&&" j).map (Advance.map fun _ => "and")
  let either := (keyword? "or" j <|> word? "||" j).map (Advance.map fun _ => "or")
  skipping i.skipBlanks_length_le (both <|> either)

def operator? (i : Input) : Option (Advance 1 String i) :=
  let j := i.skipBlanks
  if startsWith "-\x7d\x7d" j.rest || startsWith "-%\x7d" j.rest || startsWith "%\x7d" j.rest then
    none
  else
    let found :=
      match keyword? "in" j with
      | some x => some (x.map fun _ => "in")
      | none => operatorSigns.findSome? fun w => (word? w j).map (Advance.map fun _ => w)
    skipping i.skipBlanks_length_le found

def negation? (i : Input) : Option (Advance 1 Unit i) :=
  let j := i.skipBlanks
  let found :=
    match keyword? "not" j with
    | some x => some x
    | none => if startsWith "!=" j.rest then none else word? "!" j
  skipping i.skipBlanks_length_le found

def pipe? (i : Input) : Option (Advance 1 Unit i) :=
  if startsWith "||" i.skipBlanks.rest then none else spaced? "|" i

def keywordArgument? (i : Input) : Option (Advance 1 String i) := do
  let ⟨n, j, h⟩ ← name? i
  if startsWith "==" j.skipBlanks.rest then none
  else
    let ⟨_, j, h⟩ ← past h (spaced? "=" j)
    some ⟨n, j, h⟩

def mapKey (i : Input) : Except Fault (Advance 1 String i) :=
  let j := i.skipBlanks
  let found := if j.rest.head?.any isQuote then quoted j else nameHere j
  skipping i.skipBlanks_length_le found

def index (i : Input) : Except Fault (Advance 1 String i) :=
  match i with
  | ⟨p, []⟩ => failAt (.missing "string or integer index") ⟨p, []⟩
  | ⟨p, c :: s⟩ =>
    if isQuote c then quoted ⟨p, c :: s⟩
    else if h : isDigit c then
      .ok ((takeSome isNameChar p c s (isNameChar_of_isDigit h)).map String.ofList)
    else failAt (.missing "string or integer index") ⟨p, c :: s⟩

def spacedIndex (i : Input) : Except Fault (Advance 1 String i) :=
  skipping i.skipBlanks_length_le (index i.skipBlanks)

def pathTail (i : Input) : Except Fault (Advance 0 (List String) i) :=
  match i with
  | ⟨p, '.' :: c :: s⟩ =>
    if h : isNameChar c then do
      let ⟨part, j, h⟩ := takeSome isNameChar (p.afterBytes 1) c s h
      let more ← past h (pathTail j)
      return ((more.map (String.ofList part :: ·)).cons '.').loosen
    else .ok (.nothing [] ⟨p, '.' :: c :: s⟩)
  | ⟨p, '[' :: s⟩ => do
    let ⟨part, j, h⟩ ← spacedIndex ⟨p.afterBytes 1, s⟩
    let ⟨_, j, h⟩ ← past h (demandSpaced "]" j)
    let more ← past h (pathTail j)
    return ((more.map (part :: ·)).cons '[').loosen
  | i => .ok (.nothing [] i)
termination_by i.rest.length
decreasing_by all_goals simp only [List.length_cons] at *; omega

mutual

def condition (i : Input) : Except Fault (Advance 1 Node i) := do
  let ⟨first, j, h⟩ ← expression i
  let ⟨more, j, h⟩ ← past h (connectives j)
  return ⟨chain .condition first more, j, h⟩
termination_by 16 * i.rest.length + 9
decreasing_by all_goals omega

def connectives (i : Input) : Except Fault (Advance 0 (List Node) i) :=
  match connective? i with
  | none => .ok ⟨[], i.skipBlanks, i.skipBlanks_length_le⟩
  | some ⟨op, j, h⟩ => do
    let ⟨e, j, h⟩ ← past h (expression j)
    let more ← past h (connectives j)
    return (more.map fun rest => .connective op :: e :: rest).loosen
termination_by 16 * i.rest.length
decreasing_by all_goals omega

def expression (i : Input) : Except Fault (Advance 1 Node i) := do
  let ⟨first, j, h⟩ ← operand i
  let ⟨more, j, h⟩ ← past h (operators j)
  return ⟨chain .expression first more, j, h⟩
termination_by 16 * i.rest.length + 8
decreasing_by all_goals omega

def operators (i : Input) : Except Fault (Advance 0 (List Node) i) :=
  match operator? i with
  | none => .ok ⟨[], i.skipBlanks, i.skipBlanks_length_le⟩
  | some ⟨op, j, h⟩ => do
    let ⟨e, j, h⟩ ← past h (operand j)
    let more ← past h (operators j)
    return (more.map fun rest => .operator op :: e :: rest).loosen
termination_by 16 * i.rest.length
decreasing_by all_goals omega

def operand (i : Input) : Except Fault (Advance 1 Node i) :=
  match negation? i with
  | some ⟨_, j, h⟩ => do
    let ⟨e, j, h⟩ ← past h (operand j)
    return ⟨.expression [.operator "not", e], j, h⟩
  | none => do
    have := i.skipBlanks_length_le
    let ⟨e, j, h⟩ ← skipping this (primary i.skipBlanks)
    let ⟨e, j, h⟩ ← past h (filters e j)
    return ⟨e, j, h⟩
termination_by 16 * i.rest.length + 7
decreasing_by all_goals omega

def filters (subject : Node) (i : Input) : Except Fault (Advance 0 Node i) :=
  match pipe? i with
  | none => .ok ⟨subject, i.skipBlanks, i.skipBlanks_length_le⟩
  | some ⟨_, j, h⟩ => do
    let ⟨n, j, h⟩ ← past h (name j)
    match past h (spaced? "(" j) with
    | some ⟨_, j, h⟩ =>
      let ⟨args, j, h⟩ ← past h (arguments j)
      return (← past h (filters (.filter n subject (.parameters args)) j)).loosen
    | none => return (← past h (filters (.filter n subject (.parameters [])) j)).loosen
termination_by 16 * i.rest.length
decreasing_by all_goals omega

def primary (i : Input) : Except Fault (Advance 1 Node i) :=
  match i with
  | ⟨p, []⟩ => failAt (.endOfInput "expression") ⟨p, []⟩
  | ⟨p, '(' :: s⟩ => do
    let ⟨e, j, h⟩ ← condition ⟨p.afterBytes 1, s⟩
    let close ← past h (demandSpaced ")" j)
    return (close.map fun _ => .group [e]).cons '('
  | ⟨p, '[' :: s⟩ => do return ((← items ⟨p.afterBytes 1, s⟩).map .array).cons '['
  | ⟨p, '\x7b' :: s⟩ => do return ((← entries ⟨p.afterBytes 1, s⟩).map .parameters).cons '\x7b'
  | ⟨p, c :: s⟩ =>
    if isQuote c then do return (← quoted ⟨p, c :: s⟩).map Node.string
    else
      match number? ⟨p, c :: s⟩ with
      | some n => n
      | none =>
        if isNameStart c then reference ⟨p, c :: s⟩
        else failAt (.missing "expression") ⟨p, c :: s⟩
termination_by 16 * i.rest.length + 6
decreasing_by all_goals simp only [List.length_cons]; omega

def reference (i : Input) : Except Fault (Advance 1 Node i) := do
  let ⟨n, j, h⟩ ← nameHere i
  match namedLiteral? n with
  | some e => return ⟨e, j, h⟩
  | none =>
    let ⟨parts, j, h⟩ ← past h (pathTail j)
    match past h (word? "(" j) with
    | some ⟨_, j, h⟩ =>
      let ⟨args, j, h⟩ ← past h (arguments j)
      return ⟨callOrYield (n :: parts) args, j, h⟩
    | none => return ⟨.var (n :: parts), j, h⟩
termination_by 16 * i.rest.length + 5
decreasing_by all_goals omega

def arguments (i : Input) : Except Fault (Advance 1 (List Node) i) :=
  match spaced? ")" i with
  | some x => .ok (x.map fun _ => [])
  | none => do
    let ⟨a, j, h⟩ ← argument i
    match past h (spaced? "," j) with
    | some ⟨_, j, h⟩ =>
      let ⟨more, j, h⟩ ← past h (arguments j)
      return ⟨a :: more, j, h⟩
    | none =>
      let ⟨_, j, h⟩ ← past h (demandSpaced ")" j)
      return ⟨[a], j, h⟩
termination_by 16 * i.rest.length + 11
decreasing_by all_goals omega

def argument (i : Input) : Except Fault (Advance 1 Node i) :=
  match keywordArgument? i with
  | some ⟨n, j, h⟩ => do
    let ⟨e, j, h⟩ ← past h (condition j)
    return ⟨.named n e, j, h⟩
  | none => do return (← condition i).map Node.positional
termination_by 16 * i.rest.length + 10
decreasing_by all_goals omega

def items (i : Input) : Except Fault (Advance 1 (List Node) i) :=
  match spaced? "]" i with
  | some x => .ok (x.map fun _ => [])
  | none => do
    let ⟨e, j, h⟩ ← condition i
    match past h (spaced? "," j) with
    | some ⟨_, j, h⟩ =>
      let ⟨more, j, h⟩ ← past h (items j)
      return ⟨e :: more, j, h⟩
    | none =>
      let ⟨_, j, h⟩ ← past h (demandSpaced "]" j)
      return ⟨[e], j, h⟩
termination_by 16 * i.rest.length + 10
decreasing_by all_goals omega

def entries (i : Input) : Except Fault (Advance 1 (List Node) i) :=
  match spaced? "\x7d" i with
  | some x => .ok (x.map fun _ => [])
  | none => do
    let ⟨key, j, h⟩ ← mapKey i
    let ⟨_, j, h⟩ ← past h (demandSpaced ":" j)
    let ⟨e, j, h⟩ ← past h (condition j)
    match past h (spaced? "," j) with
    | some ⟨_, j, h⟩ =>
      let ⟨more, j, h⟩ ← past h (entries j)
      return ⟨.named key e :: more, j, h⟩
    | none =>
      let ⟨_, j, h⟩ ← past h (demandSpaced "\x7d" j)
      return ⟨[.named key e], j, h⟩
termination_by 16 * i.rest.length + 10
decreasing_by all_goals omega

end

end TagCompiler.Template.Tracked
