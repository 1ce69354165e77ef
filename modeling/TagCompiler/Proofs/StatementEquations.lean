import TagCompiler.Proofs.ExpressionEquations
/-!
# Equations of the statement readers

One equation for each reader of a statement, a body or a template, between plain results only.
Nothing after this module unfolds one of these readers.
-/

namespace TagCompiler.Template

open Text

/-! ### Heads of statements -/

theorem plain_declarations (s : List Char) : plain (declarations s) =
    (match plain (spaced? ")" s) with
    | some (_, r) => .ok ([], r)
    | none => do
      let (n, r) ← plain (name s)
      let (value, r) ← plain (declarations.default r)
      match plain (spaced? "," r) with
      | some (_, r) =>
        let (more, r) ← plain (declarations r)
        return (.parameter (some n) value :: more, r)
      | none =>
        let (_, r) ← plain (demandSpaced ")" r)
        return ([.parameter (some n) value], r)) := by
  rw [declarations]
  rcases spaced? ")" s with _ | ⟨_, r, h⟩
  · refine plain_bind fun n r h => plain_past_bind fun value r h => ?_
    dsimp only
    rcases spaced? "," r with _ | ⟨_, t, h⟩
    · exact plain_past_bind fun _ r _ => rfl
    · exact plain_past_bind fun more r _ => rfl
  · rfl

theorem plain_default (s : List Char) : plain (declarations.default s) =
    (match plain (spaced? "=" s) with
    | some (_, r) => do
      let (e, r) ← plain (condition r)
      return (some e, r)
    | none => .ok (none, s)) := by
  unfold declarations.default
  rcases spaced? "=" s with _ | ⟨_, r, h⟩
  · rfl
  · exact plain_past_bind fun e r _ => rfl

theorem plain_macroHead (s : List Char) : plain (macroHead s) = (do
    let (n, r) ← plain (name s)
    let (_, r) ← plain (demandSpaced "(" r)
    let (ps, r) ← plain (declarations r)
    let (trim, r) ← plain (tagEnd "%\x7d" r)
    return ((n, ps, trim), r)) := by
  unfold macroHead
  exact plain_bind fun n r _ => plain_past_bind fun _ r _ => plain_past_bind fun ps r _ =>
    plain_past_bind fun trim r _ => rfl

theorem plain_blockParameters (s : List Char) : plain (callHead.blockParameters s) =
    (match plain (spaced? "(" s) with
    | some (_, r) => do
      let (_, r) ← plain (declarations r)
      return ((), r)
    | none => .ok ((), s)) := by
  unfold callHead.blockParameters
  rcases spaced? "(" s with _ | ⟨_, r, h⟩
  · rfl
  · exact plain_past_bind fun e r _ => rfl

theorem plain_callHead (s : List Char) : plain (callHead s) = (do
    let (_, r) ← plain (callHead.blockParameters s)
    let (n, r) ← plain (dottedName r)
    let (_, r) ← plain (demandSpaced "(" r)
    let (args, r) ← plain (arguments r)
    let (trim, r) ← plain (tagEnd "%\x7d" r)
    return ((n, args, trim), r)) := by
  unfold callHead
  exact plain_bind fun _ r _ => plain_skipping_bind fun n r _ => plain_past_bind fun _ r _ =>
    plain_past_bind fun args r _ => plain_past_bind fun trim r _ => rfl

theorem plain_loopNames (s : List Char) : plain (loopNames s) = (do
    let (first, r) ← plain (name s)
    match plain (spaced? "," r) with
    | some (_, r) =>
      let (second, r) ← plain (name r)
      return ((some first, second), r)
    | none => return ((none, first), r)) := by
  unfold loopNames
  refine plain_bind fun first r h => ?_
  dsimp only
  rcases spaced? "," r with _ | ⟨_, t, h⟩
  · rfl
  · exact plain_past_bind fun second r _ => rfl

theorem plain_loopHead (s : List Char) : plain (loopHead s) = (do
    let (names, r) ← plain (loopNames s)
    match plain (spacedKeyword? "in" r) with
    | none => fail (.missing "'in'") (skipBlanks r)
    | some (_, r) =>
      let (e, r) ← plain (condition r)
      let (trim, r) ← plain (tagEnd "%\x7d" r)
      return (⟨names.1, names.2, e, trim⟩, r)) := by
  unfold loopHead
  refine plain_bind fun names r h => ?_
  dsimp only
  rcases spacedKeyword? "in" r with _ | ⟨_, t, h⟩
  · rfl
  · exact plain_past_bind fun e r _ => plain_past_bind fun trim r _ => rfl

/-- What an output tag leaves in the tree. -/
def outputOf : Node → Node
  | .yield => .yield
  | e => .output [e]

theorem plain_outputTag (s : List Char) : plain (outputTag s) = (do
    let (e, r) ← plain (condition s)
    let (trim, r) ← plain (tagEnd "\x7d\x7d" r)
    return (⟨some (outputOf e), trim⟩, r)) := by
  unfold outputTag
  exact plain_bind fun e r _ => plain_past_bind fun trim r _ => rfl

/-! ### Tags and comments -/

theorem plain_tagStart? (opener : String) (s : List Char) : plain (tagStart? opener s) = (do
    let (_, r) ← plain (word? opener s)
    (plain (word? "-" r)).or (some ((), r))) := by
  unfold tagStart?
  rcases word? opener s with _ | ⟨_, r, h⟩
  · rfl
  · dsimp only
    show _ = (plain (word? "-" r)).or (some ((), r))
    rcases word? "-" r with _ | x <;> rfl

theorem plain_statementKeyword? (s : List Char) : plain (statementKeyword? s) = (do
    let (_, r) ← plain (tagStart? "\x7b%" s)
    plain (name? r)) := by
  unfold statementKeyword?
  rcases tagStart? "\x7b%" s with _ | ⟨_, r, h⟩
  · rfl
  · exact plain_past _ _

theorem plain_endTag? (ends : List String) (s : List Char) :
    plain (endTag? ends s) = (plain (statementKeyword? s)).filter (fun p => ends.contains p.1) := by
  unfold endTag?
  rcases statementKeyword? s with _ | x
  · rfl
  · show plain (if ends.contains x.value then some x else none) = _
    by_cases h : x.value ∈ ends <;> simp [h, Option.filter]

theorem plain_skipTag_cons (c : Char) (r : List Char) : plain (skipTag (c :: r)) =
    (if startsWith "%\x7d" (c :: r) || startsWith "-%\x7d" (c :: r) then .ok ((), c :: r)
    else if isQuote c then do
      let (_, t) ← plain (quoted (c :: r))
      plain (skipTag t)
    else plain (skipTag r)) := by
  rw [skipTag]
  split
  · rfl
  · split
    · refine plain_bind fun _ t h => ?_
      dsimp only [past]
      rcases skipTag t with e | x <;> rfl
    · rcases skipTag r with e | x <;> rfl

theorem plain_comment? (s : List Char) : (comment? s).map plain =
    (match plain (tagStart? "\x7b#" s) with
    | none => none
    | some (_, r) =>
      match plain (upTo? ['#', '\x7d'] r) with
      | none => some (fail (.unterminated "comment") s)
      | some (body, r) =>
        let trims := body.getLast? == some '-'
        some (.ok ((if trims then body.dropLast else body, trims), r))) := by
  unfold comment?
  rcases tagStart? "\x7b#" s with _ | ⟨_, r, h⟩
  · rfl
  · dsimp only [plain_some]
    rcases upTo? ['#', '\x7d'] r with _ | x <;> rfl

theorem plain_docComment? (s : List Char) : plain (docComment? s) = (do
    let (_, r) ← plain (word? "/**" s)
    plain (upTo? ['*', '/'] r)) := by
  unfold docComment?
  rcases word? "/**" s with _ | ⟨_, r, h⟩
  · rfl
  · exact plain_past _ _

/-! ### Statements -/

theorem plain_bodyFrom_cons (ends : List String) (done : List Node) (trim : Bool) (c : Char)
    (r : List Char) : plain (bodyFrom ends done trim (c :: r)) =
    (let done := if trimsBefore (c :: r) then trimTail done else done
    match plain (endTag? ends (c :: r)) with
    | some (closer, t) => .ok (⟨done.reverse, closer⟩, t)
    | none => do
      let (e, t) ← plain (element false none trim c r)
      plain (bodyFrom ends (pushAll done e.node?.toList) e.trim t)) := by
  rw [bodyFrom]
  dsimp only
  rcases endTag? ends (c :: r) with _ | x
  · refine plain_bind fun e t h => ?_
    dsimp only [past]
    generalize bodyFrom _ _ _ _ = x
    rcases x with e | x <;> rfl
  · rfl

theorem plain_element (top : Bool) (doc : Option String) (trim : Bool) (c : Char) (r : List Char) :
    plain (element top doc trim c r) =
    (match plain (tagStart? "\x7b\x7b" (c :: r)) with
    | some (_, t) => plain (outputTag t)
    | none =>
      match plain (tagStart? "\x7b%" (c :: r)) with
      | some (_, t) => plain (statement doc t)
      | none =>
        match (comment? (c :: r)).map plain with
        | some found => do
          let (b, t) ← found
          return (⟨none, b.2⟩, t)
        | none => .ok (⟨some (textFrom top trim c r).value, false⟩, (textSpan top r).rest)) := by
  rw [element]
  rcases tagStart? "\x7b\x7b" (c :: r) with _ | ⟨_, t, h⟩
  · dsimp only
    rcases tagStart? "\x7b%" (c :: r) with _ | ⟨_, t, h⟩
    · dsimp only
      rcases comment? (c :: r) with _ | (e | x) <;> rfl
    · exact plain_past _ _
  · exact plain_past _ _

theorem plain_setStatement (s : List Char) : plain (setStatement s) = (do
    let (n, r) ← plain (name s)
    match plain (spaced? "=" r) with
    | some (_, r) =>
      let (e, r) ← plain (condition r)
      let (trim, r) ← plain (tagEnd "%\x7d" r)
      return (⟨.assign (.var [n]) e .set, trim⟩, r)
    | none =>
      if startsWith "," (skipBlanks r) then fail .severalTargets (skipBlanks r)
      else
        let (trim, r) ← plain (tagEnd "%\x7d" r)
        let (b, r) ← plain (bodyFrom ["endset"] [] trim r)
        let (trim, r) ← plain (tagEnd "%\x7d" r)
        return (⟨.assign (.var [n]) (.list b.nodes) .set, trim⟩, r)) := by
  rw [setStatement]
  refine plain_bind fun n r h => ?_
  dsimp only
  rcases spaced? "=" r with _ | ⟨_, t, h⟩
  · show plain (if startsWith "," (skipBlanks r) then _ else _) =
      if startsWith "," (skipBlanks r) then _ else _
    split
    · rfl
    · exact plain_past_bind fun trim r _ => plain_past_bind fun b r _ =>
        plain_past_bind fun trim r _ => rfl
  · exact plain_past_bind fun e r _ => plain_past_bind fun trim r _ => rfl

theorem plain_ifStatement (s : List Char) : plain (ifStatement s) = (do
    let (e, r) ← plain (condition s)
    let (trim, r) ← plain (tagEnd "%\x7d" r)
    let (yes, r) ← plain (bodyFrom ["elif", "elseif", "else", "endif"] [] trim r)
    match yes.closer with
    | "elseif" | "elif" =>
      let (other, r) ← plain (ifStatement r)
      return (⟨.branch e yes.nodes [other.node], other.trim⟩, r)
    | "else" =>
      match plain (spacedKeyword? "if" r) with
      | some (_, r) =>
        let (other, r) ← plain (ifStatement r)
        return (⟨.branch e yes.nodes [other.node], other.trim⟩, r)
      | none =>
        let (trim, r) ← plain (tagEnd "%\x7d" r)
        let (no, r) ← plain (bodyFrom ["endif"] [] trim r)
        let (trim, r) ← plain (tagEnd "%\x7d" r)
        return (⟨.branch e yes.nodes no.nodes, trim⟩, r)
    | _ =>
      let (trim, r) ← plain (tagEnd "%\x7d" r)
      return (⟨.branch e yes.nodes [], trim⟩, r)) := by
  rw [ifStatement]
  refine plain_bind fun e r h => plain_past_bind fun trim r h => plain_past_bind fun yes r h => ?_
  dsimp only
  generalize yes.closer = closer
  split
  · exact plain_past_bind fun other r _ => rfl
  · exact plain_past_bind fun other r _ => rfl
  · rcases spacedKeyword? "if" r with _ | ⟨_, t, h⟩
    · exact plain_past_bind fun trim r _ => plain_past_bind fun no r _ =>
        plain_past_bind fun trim r _ => rfl
    · exact plain_past_bind fun other r _ => rfl
  · rename_i not_elif not_elseif not_else
    split
    · exact absurd rfl not_elseif
    · exact absurd rfl not_elif
    · exact absurd rfl not_else
    · exact plain_past_bind fun trim r _ => rfl

theorem plain_forStatement (s : List Char) : plain (forStatement s) = (do
    let (head, r) ← plain (loopHead s)
    let (b, r) ← plain (bodyFrom ["else", "endfor"] [] head.trim r)
    let (trim, r) ← plain (tagEnd "%\x7d" r)
    let n : Node := .loop head.key head.item head.source b.nodes
    if b.closer = "else" then
      let (no, r) ← plain (bodyFrom ["endfor"] [] trim r)
      let (trim, r) ← plain (tagEnd "%\x7d" r)
      return (⟨.branch head.source [n] no.nodes, trim⟩, r)
    else return (⟨n, trim⟩, r)) := by
  rw [forStatement]
  refine plain_bind fun head r h => plain_past_bind fun b r h => plain_past_bind fun trim r h => ?_
  show plain (if b.closer = "else" then _ else _) = if b.closer = "else" then _ else _
  split
  · exact plain_past_bind fun no r _ => plain_past_bind fun trim r _ => rfl
  · rfl

theorem plain_statement (doc : Option String) (s : List Char) : plain (statement doc s) = (do
    let (keyword, r) ← plain (name s)
    match keyword with
    | "call" =>
      let ((n, args, trim), r) ← plain (callHead r)
      let (b, r) ← plain (bodyFrom ["endcall"] [] trim r)
      let (trim, r) ← plain (tagEnd "%\x7d" r)
      return (⟨some (.call n (.parameters args) b.nodes), trim⟩, r)
    | "macro" =>
      let ((n, ps, trim), r) ← plain (macroHead r)
      let (b, r) ← plain (bodyFrom ["endmacro"] [] trim r)
      let (trim, r) ← plain (tagEnd "%\x7d" r)
      return (⟨some (.macroDef n (.parameters ps) b.nodes doc), trim⟩, r)
    | "set" =>
      let (t, r) ← plain (setStatement r)
      return (⟨some t.node, t.trim⟩, r)
    | "if" =>
      let (t, r) ← plain (ifStatement r)
      return (⟨some t.node, t.trim⟩, r)
    | "for" =>
      let (t, r) ← plain (forStatement r)
      return (⟨some t.node, t.trim⟩, r)
    | "from" | "import" =>
      let (_, r) ← plain (skipTag r)
      let (trim, r) ← plain (tagEnd "%\x7d" r)
      return (⟨none, trim⟩, r)
    | _ => fail (.unknownKeyword keyword) r) := by
  rw [statement]
  refine plain_bind fun keyword r h => ?_
  dsimp only
  split
  · exact plain_past_bind fun head r _ => plain_past_bind fun b r _ =>
      plain_past_bind fun trim r _ => rfl
  · exact plain_past_bind fun head r _ => plain_past_bind fun b r _ =>
      plain_past_bind fun trim r _ => rfl
  · exact plain_past_bind fun t r _ => rfl
  · exact plain_past_bind fun t r _ => rfl
  · exact plain_past_bind fun t r _ => rfl
  · exact plain_past_bind fun _ r _ => plain_past_bind fun trim r _ => rfl
  · exact plain_past_bind fun _ r _ => plain_past_bind fun trim r _ => rfl
  · rename_i not_macro not_call not_set not_if not_for not_from not_import
    split
    · exact absurd rfl not_call
    · exact absurd rfl not_macro
    · exact absurd rfl not_set
    · exact absurd rfl not_if
    · exact absurd rfl not_for
    · exact absurd rfl not_from
    · exact absurd rfl not_import
    · rfl

/-! ### Templates -/

theorem plain_docBlock? (trim : Bool) (s : List Char) : (docBlock? trim s).map plain =
    (match plain (docComment? s) with
    | some (body, r) =>
      some (.ok ((⟨docText body, ['/', '*', '*'] ++ body ++ ['*', '/'] ++ r.takeWhile isBlank⟩, trim),
        skipBlanks r))
    | none => ((comment? s).map plain).map fun found => do
      let ((body, trim), r) ← found
      return ((⟨docText body, r.takeWhile isBlank⟩, trim), skipBlanks r)) := by
  unfold docBlock?
  rcases docComment? s with _ | x
  · rcases comment? s with _ | (e | x) <;> rfl
  · rfl

theorem elementsFrom_nil (done : List Node) (run : List DocBlock) (doc : Option String)
    (trim : Bool) : elementsFrom done run doc trim [] = .ok (pushRun done run).reverse := by
  rw [elementsFrom]

theorem elementsFrom_cons (done : List Node) (run : List DocBlock) (doc : Option String)
    (trim : Bool) (c : Char) (r : List Char) : elementsFrom done run doc trim (c :: r) =
    (let done := if trimsBefore (c :: r) then trimTail done else done
    match (docBlock? trim (c :: r)).map plain with
    | some found => do
      let ((block, trim), t) ← found
      let run := run ++ [block]
      if (plain (statementKeyword? t)).any (·.1 == "macro") then
        elementsFrom done [] (run.head?.map DocBlock.doc) trim t
      else if startsDocBlock t then elementsFrom done run none trim t
      else elementsFrom (pushRun done run) [] none trim t
    | none => do
      let (e, t) ← plain (element true doc trim c r)
      elementsFrom (pushAll done e.node?.toList) run none e.trim t) := by
  rw [elementsFrom]
  dsimp only
  rcases docBlock? trim (c :: r) with _ | (e | ⟨block, t, h⟩)
  · rcases element true doc trim c r with e | x <;> rfl
  · rfl
  · have : (statementKeyword? t).any (·.value == "macro") =
        (plain (statementKeyword? t)).any (·.1 == "macro") := by
      rcases statementKeyword? t with _ | x <;> rfl
    show (if (statementKeyword? t).any (·.value == "macro") then _ else _) = _
    rw [this]
    rfl

end TagCompiler.Template
