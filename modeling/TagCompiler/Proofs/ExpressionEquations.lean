import TagCompiler.Proofs.PlainReading
/-!
# Equations of the expression readers

One equation for each reader of an expression, between plain results only. Nothing after this
module unfolds one of these readers.
-/

namespace TagCompiler.Template

open Text

/-! ### Parts of expressions -/

theorem plain_connective? (s : List Char) : plain (connective? s) =
    (((plain (keyword? "and" (skipBlanks s))).or (plain (word? "&&" (skipBlanks s)))).map
      fun p => ("and", p.2)).or
    (((plain (keyword? "or" (skipBlanks s))).or (plain (word? "||" (skipBlanks s)))).map
      fun p => ("or", p.2)) := by
  unfold connective?
  rw [plain_skipping]
  rcases keyword? "and" (skipBlanks s) with _ | x
  · rcases word? "&&" (skipBlanks s) with _ | x
    · rcases keyword? "or" (skipBlanks s) with _ | x
      · rcases word? "||" (skipBlanks s) with _ | x <;> rfl
      · rfl
    · rfl
  · rfl

theorem plain_operator? (s : List Char) : plain (operator? s) =
    (if startsWith "-\x7d\x7d" (skipBlanks s) || startsWith "-%\x7d" (skipBlanks s) ||
        startsWith "%\x7d" (skipBlanks s) then none
    else
      match plain (keyword? "in" (skipBlanks s)) with
      | some (_, r) => some ("in", r)
      | none => operatorSigns.findSome? fun w =>
        (plain (word? w (skipBlanks s))).map fun p => (w, p.2)) := by
  unfold operator?
  dsimp only
  split
  · rfl
  · rw [plain_skipping]
    rcases keyword? "in" (skipBlanks s) with _ | x
    · rw [plain, Option.map_eq_map, List.map_findSome?]
      congr 1
      funext w
      dsimp only [Function.comp]
      rcases word? w (skipBlanks s) with _ | x <;> rfl
    · rfl

theorem plain_negation? (s : List Char) : plain (negation? s) =
    (match plain (keyword? "not" (skipBlanks s)) with
    | some p => some p
    | none =>
      if startsWith "!=" (skipBlanks s) then none else plain (word? "!" (skipBlanks s))) := by
  unfold negation?
  rw [plain_skipping]
  rcases keyword? "not" (skipBlanks s) with _ | x
  · dsimp only [plain_none]
    split <;> rfl
  · rfl

theorem plain_pipe? (s : List Char) : plain (pipe? s) =
    (if startsWith "||" (skipBlanks s) then none else plain (word? "|" (skipBlanks s))) := by
  unfold pipe?
  split
  · rfl
  · exact plain_spaced? _ _

theorem plain_keywordArgument? (s : List Char) : plain (keywordArgument? s) = (do
    let (n, r) ← plain (name? s)
    if startsWith "==" (skipBlanks r) then none
    else
      let (_, r) ← plain (spaced? "=" r)
      some (n, r)) := by
  unfold keywordArgument?
  rcases name? s with _ | ⟨n, r, h⟩
  · rfl
  · show plain (if startsWith "==" (skipBlanks r) then none else _) =
      if startsWith "==" (skipBlanks r) then none else _
    split
    · rfl
    · rcases spaced? "=" r with _ | x <;> rfl

theorem plain_mapKey (s : List Char) : plain (mapKey s) =
    (if (skipBlanks s).head?.any isQuote then plain (quoted (skipBlanks s))
    else plain (nameHere (skipBlanks s))) := by
  unfold mapKey
  rw [plain_skipping]
  split <;> rfl

theorem plain_pathTail (s : List Char) : plain (pathTail s) =
    (match s with
    | '.' :: c :: r =>
      if isNameChar c then do
        let (more, t) ← plain (pathTail ((c :: r).dropWhile isNameChar))
        return (String.ofList ((c :: r).takeWhile isNameChar) :: more, t)
      else .ok ([], '.' :: c :: r)
    | '[' :: r => do
      let (part, t) ← plain (index (skipBlanks r))
      let (_, t) ← plain (demandSpaced "]" t)
      let (more, t) ← plain (pathTail t)
      return (part :: more, t)
    | s => .ok ([], s)) := by
  split
  · rename_i c r
    rw [pathTail.eq_def ('.' :: c :: r)]
    show plain (if h : isNameChar c then _ else _) = if isNameChar c then _ else _
    split
    · exact plain_past_bind fun more t _ => rfl
    · rfl
  · rename_i r
    rw [pathTail.eq_def ('[' :: r)]
    exact plain_skipping_bind fun part t _ => plain_past_bind fun _ t _ =>
      plain_past_bind fun more t _ => rfl
  · rename_i not_dot not_bracket
    rw [pathTail.eq_def]
    split
    · exact absurd rfl (not_dot _ _)
    · exact absurd rfl (not_bracket _)
    · rfl

/-! ### Expressions -/

theorem plain_condition (s : List Char) : plain (condition s) = (do
    let (first, r) ← plain (expression s)
    let (more, r) ← plain (connectives r)
    return (chain .condition first more, r)) := by
  rw [condition]
  exact plain_bind fun first r _ => plain_past_bind fun more r _ => rfl

theorem plain_connectives (s : List Char) : plain (connectives s) =
    (match plain (connective? s) with
    | none => .ok ([], skipBlanks s)
    | some (op, r) => do
      let (e, r) ← plain (expression r)
      let (more, r) ← plain (connectives r)
      return (.connective op :: e :: more, r)) := by
  rw [connectives]
  rcases connective? s with _ | ⟨op, r, h⟩
  · rfl
  · exact plain_past_bind fun e r _ => plain_past_bind fun more r _ => rfl

theorem plain_expression (s : List Char) : plain (expression s) = (do
    let (first, r) ← plain (operand s)
    let (more, r) ← plain (operators r)
    return (chain .expression first more, r)) := by
  rw [expression]
  exact plain_bind fun first r _ => plain_past_bind fun more r _ => rfl

theorem plain_operators (s : List Char) : plain (operators s) =
    (match plain (operator? s) with
    | none => .ok ([], skipBlanks s)
    | some (op, r) => do
      let (e, r) ← plain (operand r)
      let (more, r) ← plain (operators r)
      return (.operator op :: e :: more, r)) := by
  rw [operators]
  rcases operator? s with _ | ⟨op, r, h⟩
  · rfl
  · exact plain_past_bind fun e r _ => plain_past_bind fun more r _ => rfl

theorem plain_operand (s : List Char) : plain (operand s) =
    (match plain (negation? s) with
    | some (_, r) => do
      let (e, r) ← plain (operand r)
      return (.expression [.operator "not", e], r)
    | none => do
      let (e, r) ← plain (primary (skipBlanks s))
      plain (filters e r)) := by
  rw [operand]
  rcases negation? s with _ | ⟨_, r, h⟩
  · refine plain_skipping_bind fun e r h => ?_
    dsimp only [past]
    rcases filters e r with x | x <;> rfl
  · exact plain_past_bind fun e r _ => rfl

theorem plain_filters (subject : Node) (s : List Char) : plain (filters subject s) =
    (match plain (pipe? s) with
    | none => .ok (subject, skipBlanks s)
    | some (_, r) => do
      let (n, r) ← plain (name r)
      match plain (spaced? "(" r) with
      | some (_, r) =>
        let (args, r) ← plain (arguments r)
        plain (filters (.filter n subject (.parameters args)) r)
      | none => plain (filters (.filter n subject (.parameters [])) r)) := by
  rw [filters]
  rcases pipe? s with _ | ⟨_, r, h⟩
  · rfl
  · refine plain_past_bind fun n r h => ?_
    dsimp only
    rcases spaced? "(" r with _ | ⟨_, t, h⟩
    · dsimp [past]
      rcases filters (.filter n subject (.parameters [])) r with e | x <;> rfl
    · refine plain_past_bind fun args r h => ?_
      dsimp [past]
      rcases filters (.filter n subject (.parameters args)) r with e | x <;> rfl

theorem plain_primary_group (r : List Char) : plain (primary ('(' :: r)) = (do
    let (e, t) ← plain (condition r)
    let (_, t) ← plain (demandSpaced ")" t)
    return (.group [e], t)) := by
  rw [primary]
  exact plain_bind fun e t _ => plain_past_bind fun _ t _ => rfl

theorem plain_primary_array (r : List Char) : plain (primary ('[' :: r)) = (do
    let (cs, t) ← plain (items r)
    return (.array cs, t)) := by
  rw [primary]
  exact plain_bind fun cs t _ => rfl

theorem plain_primary_map (r : List Char) : plain (primary ('\x7b' :: r)) = (do
    let (es, t) ← plain (entries r)
    return (.parameters es, t)) := by
  rw [primary]
  exact plain_bind fun es t _ => rfl

/-- The operands that no bracket opens. -/
theorem plain_primary_other {c : Char} {r : List Char} (group : c ≠ '(') (array : c ≠ '[')
    (map : c ≠ '\x7b') : plain (primary (c :: r)) =
    (if isQuote c then do
      let (s, t) ← plain (quoted (c :: r))
      return (Node.string s, t)
    else
      match number? (c :: r) with
      | some n => plain n
      | none =>
        if isNameStart c then plain (reference (c :: r))
        else fail (.missing "expression") (c :: r)) := by
  rw [primary]
  · split
    · exact plain_bind fun s t _ => rfl
    · rcases number? (c :: r) with _ | n
      · dsimp only
        split <;> rfl
      · rfl
  · exact fun h => group h
  · exact fun h => array h
  · exact fun h => map h

theorem plain_reference (s : List Char) : plain (reference s) = (do
    let (n, r) ← plain (nameHere s)
    match namedLiteral? n with
    | some e => return (e, r)
    | none =>
      let (parts, r) ← plain (pathTail r)
      match plain (word? "(" r) with
      | some (_, r) =>
        let (args, r) ← plain (arguments r)
        return (callOrYield (n :: parts) args, r)
      | none => return (.var (n :: parts), r)) := by
  rw [reference]
  refine plain_bind fun n r h => ?_
  dsimp only
  rcases namedLiteral? n with _ | e
  · refine plain_past_bind fun parts r h => ?_
    dsimp only
    rcases word? "(" r with _ | ⟨_, t, h⟩
    · rfl
    · exact plain_past_bind fun args r _ => rfl
  · rfl

theorem plain_arguments (s : List Char) : plain (arguments s) =
    (match plain (spaced? ")" s) with
    | some (_, r) => .ok ([], r)
    | none => do
      let (a, r) ← plain (argument s)
      match plain (spaced? "," r) with
      | some (_, r) =>
        let (more, r) ← plain (arguments r)
        return (a :: more, r)
      | none =>
        let (_, r) ← plain (demandSpaced ")" r)
        return ([a], r)) := by
  rw [arguments]
  rcases spaced? ")" s with _ | ⟨_, r, h⟩
  · refine plain_bind fun a r h => ?_
    dsimp only
    rcases spaced? "," r with _ | ⟨_, t, h⟩
    · exact plain_past_bind fun _ r _ => rfl
    · exact plain_past_bind fun more r _ => rfl
  · rfl

theorem plain_argument (s : List Char) : plain (argument s) =
    (match plain (keywordArgument? s) with
    | some (n, r) => do
      let (e, r) ← plain (condition r)
      return (.named n e, r)
    | none => do
      let (e, r) ← plain (condition s)
      return (.positional e, r)) := by
  rw [argument]
  rcases keywordArgument? s with _ | ⟨n, r, h⟩
  · exact plain_bind fun e r _ => rfl
  · exact plain_past_bind fun e r _ => rfl

theorem plain_items (s : List Char) : plain (items s) =
    (match plain (spaced? "]" s) with
    | some (_, r) => .ok ([], r)
    | none => do
      let (e, r) ← plain (condition s)
      match plain (spaced? "," r) with
      | some (_, r) =>
        let (more, r) ← plain (items r)
        return (e :: more, r)
      | none =>
        let (_, r) ← plain (demandSpaced "]" r)
        return ([e], r)) := by
  rw [items]
  rcases spaced? "]" s with _ | ⟨_, r, h⟩
  · refine plain_bind fun a r h => ?_
    dsimp only
    rcases spaced? "," r with _ | ⟨_, t, h⟩
    · exact plain_past_bind fun _ r _ => rfl
    · exact plain_past_bind fun more r _ => rfl
  · rfl

theorem plain_entries (s : List Char) : plain (entries s) =
    (match plain (spaced? "\x7d" s) with
    | some (_, r) => .ok ([], r)
    | none => do
      let (key, r) ← plain (mapKey s)
      let (_, r) ← plain (demandSpaced ":" r)
      let (e, r) ← plain (condition r)
      match plain (spaced? "," r) with
      | some (_, r) =>
        let (more, r) ← plain (entries r)
        return (.named key e :: more, r)
      | none =>
        let (_, r) ← plain (demandSpaced "\x7d" r)
        return ([.named key e], r)) := by
  rw [entries]
  rcases spaced? "\x7d" s with _ | ⟨_, r, h⟩
  · refine plain_bind fun key r h => plain_past_bind fun _ r h => plain_past_bind fun e r h => ?_
    dsimp only
    rcases spaced? "," r with _ | ⟨_, t, h⟩
    · exact plain_past_bind fun _ r _ => rfl
    · exact plain_past_bind fun more r _ => rfl
  · rfl

end TagCompiler.Template
