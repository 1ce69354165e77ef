import Mathlib
import TagCompiler.Proofs.TrackedExpressions
/-!
# Statements and templates in input with a place

Each reader of a statement, and of the elements of a template, comes to the same in an input as in
its characters. So a source is accepted exactly if its characters are, with the same tree, and a
source that is rejected is rejected at the place that the readers of characters stop at.
-/

namespace TagCompiler.Template.Tracked

open Text

/-! ### Tags -/

theorem tagStart?_finds {w : String} (inLine : '\n' ∉ w.toList) (i : Input) :
    Finds i (Template.tagStart? w i.rest) (tagStart? w i) := by
  unfold Template.tagStart? tagStart?
  rcases (word?_finds inLine i).cases with ⟨hx, hy⟩ | ⟨_, j, u, u', reached, hx, hy⟩
  · rw [hx, hy]
    exact .none
  · rw [hx, hy]
    dsimp only
    rcases (word?_finds (w := "-") (by decide) j).cases with
      ⟨hx, hy⟩ | ⟨_, k, u, u', onward, hx, hy⟩
    · rw [hx, hy]
      exact .some (.intro reached)
    · rw [hx, hy]
      exact .some (.intro (reached.trans onward))

theorem statementKeyword?_finds (i : Input) :
    Finds i (Template.statementKeyword? i.rest) (statementKeyword? i) := by
  unfold Template.statementKeyword? statementKeyword?
  exact (tagStart?_finds (by decide) i).bind fun _ j _ _ _ => (name?_finds j).past

theorem endTag?_finds (ends : List String) (i : Input) :
    Finds i (Template.endTag? ends i.rest) (endTag? ends i) := by
  unfold Template.endTag? endTag?
  refine (statementKeyword?_finds i).bind fun keyword j _ _ _ => ?_
  dsimp only
  split
  · exact .some (.intro (.refl j))
  · exact .none

theorem skipTag_retraces (i : Input) : Retraces i (Template.skipTag i.rest) (skipTag i) := by
  induction hn : i.rest.length using Nat.strongRecOn generalizing i with
  | ind n ih =>
    subst hn
    obtain ⟨p, _ | ⟨c, s⟩⟩ := i
    · rw [Template.skipTag, skipTag]
      exact .here
    · rw [Template.skipTag, skipTag]
      split
      · exact .here
      · split
        · rename_i quote
          refine (quoted_retraces quote s).bind fun _ j _ u' _ => ?_
          exact (ih j.rest.length u' j rfl).past.bind fun _ j _ _ _ => .here
        · have rest := ih s.length (Nat.lt_succ_self _) ⟨p.afterChar c, s⟩ rfl
          exact Retraces.of_reaches (rest.bind fun _ j _ _ _ => .here) (.char p c s)

/-! ### Comments, doc blocks and text -/

theorem delimited?_finds {w : List Char} (inLine : '\n' ∉ w) (i : Input) :
    Finds i (upTo? w i.rest) (delimited? w i) := by
  obtain ⟨p, s⟩ := i
  unfold delimited?
  dsimp only
  cases hx : upTo? w s with
  | none => exact .none
  | some x =>
    obtain ⟨body, r, u⟩ := x
    have found : plain (upTo? w s) = some (body, r) := by rw [hx]; rfl
    have split := eq_of_upTo? found
    subst split
    have after : afterBody body (byteLength w) ⟨p, body ++ (w ++ r)⟩ =
        ⟨(p.after body).afterBytes (byteLength w), r⟩ := by
      rw [afterBody, Input.upToOffset_append, Input.afterBytes, dropBytes_append]
    have reached : Input.Reaches ⟨p, body ++ (w ++ r)⟩
        ⟨(p.after body).afterBytes (byteLength w), r⟩ :=
      .trans ⟨body, rfl, rfl⟩ (.bytes (p.after body) inLine r)
    simp only [after]
    exact .some (.intro reached)

theorem comment?_retraces (i : Input) :
    Option.Rel (Retraces i) (Template.comment? i.rest) (comment? i) := by
  unfold Template.comment? comment?
  rcases (tagStart?_finds (w := "\x7b#") (by decide) i).cases with
    ⟨hx, hy⟩ | ⟨_, j, u, u', reached, hx, hy⟩
  · rw [hx, hy]
    exact .none
  · rw [hx, hy]
    dsimp only
    rcases (delimited?_finds (w := ['#', '\x7d']) (by decide) j).cases with
      ⟨hx, hy⟩ | ⟨body, k, u, u', onward, hx, hy⟩
    · rw [hx, hy]
      exact .some (.fail _ i)
    · rw [hx, hy]
      exact .some (.ok (.intro (reached.trans onward)))

theorem docComment?_finds (i : Input) :
    Finds i (Template.docComment? i.rest) (docComment? i) := by
  unfold Template.docComment? docComment?
  rcases (word?_finds (w := "/**") (by decide) i).cases with
    ⟨hx, hy⟩ | ⟨_, j, u, u', reached, hx, hy⟩
  · rw [hx, hy]
    exact .none
  · rw [hx, hy]
    exact (delimited?_finds (by decide) j).past.of_reaches reached

theorem textSpan_agrees (top : Bool) (p : Place) (s : List Char) :
    Agrees ⟨p, s⟩ (Template.textSpan top s) (textSpan top p s) := by
  induction s generalizing p with
  | nil => exact .nothing (.refl ⟨p, []⟩)
  | cons c s ih =>
    rw [Template.textSpan, textSpan]
    split
    · exact .nothing (.refl ⟨p, c :: s⟩)
    · exact ((ih (p.afterChar c)).map _).cons.loosen.of_reaches (.char p c s)

theorem textFrom_agrees (top trim : Bool) (p : Place) (c : Char) (s : List Char) :
    Agrees ⟨p, c :: s⟩ (Template.textFrom top trim c s) (textFrom top trim p c s) :=
  ((textSpan_agrees top (p.afterChar c) s).cons.map _).of_reaches (.char p c s)

/-! ### Heads of statements -/

theorem default_retraces (i : Input) :
    Retraces i (Template.declarations.default i.rest) (default i) := by
  unfold Template.declarations.default default
  rcases (spaced?_finds (w := "=") (by decide) i).cases with
    ⟨hx, hy⟩ | ⟨_, j, u, u', reached, hx, hy⟩
  · rw [hx, hy]
    exact .here
  · rw [hx, hy]
    refine Retraces.of_reaches ?_ reached
    exact (condition_retraces j).past.bind fun e j _ _ _ => .here

theorem declarations_retraces (i : Input) :
    Retraces i (Template.declarations i.rest) (declarations i) := by
  rw [Template.declarations, declarations]
  rcases (spaced?_finds (w := ")") (by decide) i).cases with
    ⟨hx, hy⟩ | ⟨_, j, u, u', reached, hx, hy⟩
  · rw [hx, hy]
    refine (name_retraces i).bind fun n j _ _ _ => ?_
    refine (default_retraces j).past.bind fun value j _ _ _ => ?_
    dsimp only
    rcases (spaced?_finds (w := ",") (by decide) j).cases with
      ⟨hx, hy⟩ | ⟨_, k, u, u', reached, hx, hy⟩
    · rw [hx, hy]
      exact (demandSpaced_retraces (by decide) j).past.bind fun _ j _ _ _ => .here
    · rw [hx, hy]
      refine Retraces.of_reaches ?_ reached
      exact (declarations_retraces k).past.bind fun more j _ _ _ => .here
  · rw [hx, hy]
    exact .ok (.intro reached)
termination_by i.rest.length
decreasing_by all_goals omega

theorem macroHead_retraces (i : Input) : Retraces i (Template.macroHead i.rest) (macroHead i) := by
  unfold Template.macroHead macroHead
  refine (name_retraces i).bind fun n j _ _ _ => ?_
  refine (demandSpaced_retraces (by decide) j).past.bind fun _ j _ _ _ => ?_
  refine (declarations_retraces j).past.bind fun ps j _ _ _ => ?_
  exact (tagEnd_retraces (by decide) j).past.bind fun trim j _ _ _ => .here

theorem blockParameters_retraces (i : Input) :
    Retraces i (Template.callHead.blockParameters i.rest) (blockParameters i) := by
  unfold Template.callHead.blockParameters blockParameters
  rcases (spaced?_finds (w := "(") (by decide) i).cases with
    ⟨hx, hy⟩ | ⟨_, j, u, u', reached, hx, hy⟩
  · rw [hx, hy]
    exact .here
  · rw [hx, hy]
    refine Retraces.of_reaches ?_ reached
    exact (declarations_retraces j).past.bind fun ps j _ _ _ => .here

theorem callHead_retraces (i : Input) : Retraces i (Template.callHead i.rest) (callHead i) := by
  unfold Template.callHead callHead
  refine (blockParameters_retraces i).bind fun _ j _ _ _ => ?_
  refine (dottedName_retraces j).skipping.bind fun n j _ _ _ => ?_
  refine (demandSpaced_retraces (by decide) j).past.bind fun _ j _ _ _ => ?_
  refine (arguments_retraces j).past.bind fun args j _ _ _ => ?_
  exact (tagEnd_retraces (by decide) j).past.bind fun trim j _ _ _ => .here

theorem loopNames_retraces (i : Input) : Retraces i (Template.loopNames i.rest) (loopNames i) := by
  unfold Template.loopNames loopNames
  refine (name_retraces i).bind fun first j _ _ _ => ?_
  dsimp only
  rcases (spaced?_finds (w := ",") (by decide) j).cases with
    ⟨hx, hy⟩ | ⟨_, k, u, u', reached, hx, hy⟩
  · rw [hx, hy]
    exact .here
  · rw [hx, hy]
    refine Retraces.of_reaches ?_ reached
    exact (name_retraces k).past.bind fun second j _ _ _ => .here

theorem loopHead_retraces (i : Input) : Retraces i (Template.loopHead i.rest) (loopHead i) := by
  unfold Template.loopHead loopHead
  refine (loopNames_retraces i).bind fun names j _ _ _ => ?_
  dsimp only
  rcases (spacedKeyword?_finds (w := "in") (by decide) j).cases with
    ⟨hx, hy⟩ | ⟨_, k, u, u', reached, hx, hy⟩
  · rw [hx, hy, ← Input.rest_skipBlanks]
    exact (Retraces.fail _ j.skipBlanks).of_reaches (.skipBlanks j)
  · rw [hx, hy]
    refine Retraces.of_reaches ?_ reached
    refine (condition_retraces k).past.bind fun e j _ _ _ => ?_
    exact (tagEnd_retraces (by decide) j).past.bind fun trim j _ _ _ => .here

theorem outputTag_retraces (i : Input) : Retraces i (Template.outputTag i.rest) (outputTag i) := by
  unfold Template.outputTag outputTag
  refine (condition_retraces i).bind fun e j _ _ _ => ?_
  exact (tagEnd_retraces (by decide) j).past.bind fun trim j _ _ _ => .here

/-! ### Statements -/

mutual

theorem bodyFrom_retraces (ends : List String) (done : List Node) (trim : Bool) (p : Place)
    (s : List Char) : Retraces ⟨p, s⟩ (Template.bodyFrom ends done trim s)
      (bodyFrom ends done trim ⟨p, s⟩) := by
  cases hs : s with
  | nil =>
    rw [Template.bodyFrom, bodyFrom]
    exact .fail _ ⟨p, []⟩
  | cons c r =>
    have size : s.length = r.length + 1 := by rw [hs, List.length_cons]
    rw [Template.bodyFrom, bodyFrom]
    have ended := endTag?_finds ends ⟨p, c :: r⟩
    dsimp only at ended ⊢
    rcases ended.cases with ⟨hx, hy⟩ | ⟨closer, j, u, u', reached, hx, hy⟩
    · rw [hx, hy]
      refine (element_retraces false none trim p c r).bind fun e j _ _ _ => ?_
      exact (bodyFrom_retraces ends _ e.trim j.place j.rest).past.bind fun b j _ _ _ => .here
    · rw [hx, hy]
      exact .ok (.intro reached)
termination_by 8 * s.length + 3
decreasing_by all_goals simp only [List.length_cons] at *; omega

theorem element_retraces (top : Bool) (doc : Option String) (trim : Bool) (p : Place) (c : Char)
    (s : List Char) : Retraces ⟨p, c :: s⟩ (Template.element top doc trim c s)
      (element top doc trim p c s) := by
  rw [Template.element, element]
  have output := tagStart?_finds (w := "\x7b\x7b") (by decide) ⟨p, c :: s⟩
  have tag := tagStart?_finds (w := "\x7b%") (by decide) ⟨p, c :: s⟩
  have comment := comment?_retraces ⟨p, c :: s⟩
  dsimp only at output tag comment
  rcases output.cases with ⟨hx, hy⟩ | ⟨_, j, u, u', reached, hx, hy⟩
  · rw [hx, hy]
    dsimp only
    rcases tag.cases with ⟨hx, hy⟩ | ⟨_, j, u, u', reached, hx, hy⟩
    · rw [hx, hy]
      dsimp only
      generalize Template.comment? (c :: s) = x at comment ⊢
      generalize comment? ⟨p, c :: s⟩ = y at comment ⊢
      cases comment with
      | some tracked => exact tracked.map fun same => same.map _
      | none => exact .ok ((textFrom_agrees top trim p c s).map _)
    · rw [hx, hy]
      have shorter : j.rest.length ≤ s.length := Nat.le_of_succ_le_succ u'
      exact (statement_retraces doc j).past.of_reaches reached
  · rw [hx, hy]
    exact (outputTag_retraces j).past.of_reaches reached
termination_by 8 * (c :: s).length + 2
decreasing_by all_goals simp only [List.length_cons] at *; omega

theorem statement_retraces (doc : Option String) (i : Input) :
    Retraces i (Template.statement doc i.rest) (statement doc i) := by
  rw [Template.statement, statement]
  refine (name_retraces i).bind fun keyword j _ _ _ => ?_
  dsimp only
  apply Retraces.apart keyword
  intro other same
  split <;> subst same
  · refine (macroHead_retraces j).past.bind fun head j _ _ _ => ?_
    refine (bodyFrom_retraces _ [] head.2.2 j.place j.rest).past.bind fun b j _ _ _ => ?_
    exact (tagEnd_retraces (by decide) j).past.bind fun trim j _ _ _ => .here
  · refine (callHead_retraces j).past.bind fun head j _ _ _ => ?_
    refine (bodyFrom_retraces _ [] head.2.2 j.place j.rest).past.bind fun b j _ _ _ => ?_
    exact (tagEnd_retraces (by decide) j).past.bind fun trim j _ _ _ => .here
  · exact (setStatement_retraces j).past.bind fun t j _ _ _ => .here
  · exact (ifStatement_retraces j).past.bind fun t j _ _ _ => .here
  · exact (forStatement_retraces j).past.bind fun t j _ _ _ => .here
  · refine (skipTag_retraces j).past.bind fun _ j _ _ _ => ?_
    exact (tagEnd_retraces (by decide) j).past.bind fun trim j _ _ _ => .here
  · refine (skipTag_retraces j).past.bind fun _ j _ _ _ => ?_
    exact (tagEnd_retraces (by decide) j).past.bind fun trim j _ _ _ => .here
  · rename_i not_macro not_call not_set not_if not_for not_from not_import
    split
    · exact absurd rfl not_macro
    · exact absurd rfl not_call
    · exact absurd rfl not_set
    · exact absurd rfl not_if
    · exact absurd rfl not_for
    · exact absurd rfl not_from
    · exact absurd rfl not_import
    · exact .fail _ j
termination_by 8 * i.rest.length + 1
decreasing_by all_goals omega

theorem setStatement_retraces (i : Input) :
    Retraces i (Template.setStatement i.rest) (setStatement i) := by
  rw [Template.setStatement, setStatement]
  refine (name_retraces i).bind fun n j _ _ _ => ?_
  dsimp only
  rcases (spaced?_finds (w := "=") (by decide) j).cases with
    ⟨hx, hy⟩ | ⟨_, k, u, u', reached, hx, hy⟩
  · rw [hx, hy]
    simp only [← Input.rest_skipBlanks]
    show Retraces j (if _ then _ else _) (if _ then _ else _)
    split
    · exact (Retraces.fail _ j.skipBlanks).of_reaches (.skipBlanks j)
    · refine (tagEnd_retraces (by decide) j).past.bind fun trim j _ _ _ => ?_
      refine (bodyFrom_retraces ["endset"] [] trim j.place j.rest).past.bind fun b j _ _ _ => ?_
      exact (tagEnd_retraces (by decide) j).past.bind fun trim j _ _ _ => .here
  · rw [hx, hy]
    refine Retraces.of_reaches ?_ reached
    refine (condition_retraces k).past.bind fun e j _ _ _ => ?_
    exact (tagEnd_retraces (by decide) j).past.bind fun trim j _ _ _ => .here
termination_by 8 * i.rest.length
decreasing_by all_goals omega

theorem ifStatement_retraces (i : Input) :
    Retraces i (Template.ifStatement i.rest) (ifStatement i) := by
  rw [Template.ifStatement, ifStatement]
  refine (condition_retraces i).bind fun e j _ _ _ => ?_
  refine (tagEnd_retraces (by decide) j).past.bind fun trim j _ _ _ => ?_
  refine (bodyFrom_retraces _ [] trim j.place j.rest).past.bind fun yes j _ _ _ => ?_
  dsimp only
  generalize yes.closer = closer
  apply Retraces.apart closer
  intro other same
  split <;> subst same
  · exact (ifStatement_retraces j).past.bind fun other j _ _ _ => .here
  · exact (ifStatement_retraces j).past.bind fun other j _ _ _ => .here
  · rcases (spacedKeyword?_finds (w := "if") (by decide) j).cases with
      ⟨hx, hy⟩ | ⟨_, k, u, u', reached, hx, hy⟩
    · rw [hx, hy]
      refine (tagEnd_retraces (by decide) j).past.bind fun trim j _ _ _ => ?_
      refine (bodyFrom_retraces _ [] trim j.place j.rest).past.bind fun no j _ _ _ => ?_
      exact (tagEnd_retraces (by decide) j).past.bind fun trim j _ _ _ => .here
    · rw [hx, hy]
      refine Retraces.of_reaches ?_ reached
      exact (ifStatement_retraces k).past.bind fun other j _ _ _ => .here
  · rename_i not_elif not_elseif not_else
    split
    · exact absurd rfl not_elif
    · exact absurd rfl not_elseif
    · exact absurd rfl not_else
    · exact (tagEnd_retraces (by decide) j).past.bind fun trim j _ _ _ => .here
termination_by 8 * i.rest.length
decreasing_by all_goals omega

theorem forStatement_retraces (i : Input) :
    Retraces i (Template.forStatement i.rest) (forStatement i) := by
  rw [Template.forStatement, forStatement]
  refine (loopHead_retraces i).bind fun head j _ _ _ => ?_
  refine (bodyFrom_retraces _ [] head.trim j.place j.rest).past.bind fun b j _ _ _ => ?_
  refine (tagEnd_retraces (by decide) j).past.bind fun trim j _ _ _ => ?_
  dsimp only
  split
  · refine (bodyFrom_retraces _ [] trim j.place j.rest).past.bind fun no j _ _ _ => ?_
    exact (tagEnd_retraces (by decide) j).past.bind fun trim j _ _ _ => .here
  · exact .here
termination_by 8 * i.rest.length
decreasing_by all_goals omega

end

/-! ### Templates -/

theorem blanks_agrees (i : Input) :
    Agrees i (Text.takeAll isBlank i.rest) (docBlock?.blanks i) := by
  have reached := Input.Reaches.skipBlanks i
  have same : i.skipBlanks.rest = i.rest.dropWhile isBlank := i.rest_skipBlanks
  unfold Text.takeAll docBlock?.blanks
  simp only [← same]
  exact .intro reached

theorem docBlock?_retraces (trim : Bool) (i : Input) :
    Option.Rel (Retraces i) (Template.docBlock? trim i.rest) (docBlock? trim i) := by
  unfold Template.docBlock? docBlock?
  rcases (docComment?_finds i).cases with ⟨hx, hy⟩ | ⟨body, j, u, u', reached, hx, hy⟩
  · have comment := comment?_retraces i
    rw [hx, hy]
    dsimp only
    generalize Template.comment? i.rest = x at comment ⊢
    generalize comment? i = y at comment ⊢
    cases comment with
    | none => exact .none
    | some tracked =>
      refine .some (tracked.bind fun found j _ _ _ => ?_)
      exact .ok ((blanks_agrees j).past.map fun gap => (DocBlock.mk (docText found.1) gap, found.2))
  · rw [hx, hy]
    refine .some (.ok (Agrees.of_reaches ?_ reached))
    exact ((blanks_agrees j).past (u := u)).map fun gap =>
      (DocBlock.mk (docText body) (['/', '*', '*'] ++ body ++ ['*', '/'] ++ gap), trim)

/-- A reader of a whole input comes to the same as the reader of its characters. -/
inductive RetracesAll {α : Type} (i : Input) : Except Failure α → Except Fault α → Prop
  | ok {v : α} : RetracesAll i (.ok v) (.ok v)
  | error {cause : Cause} {j : Input} (reached : i.Reaches j) :
      RetracesAll i (.error ⟨cause, j.rest.length⟩) (.error ⟨cause, j.place⟩)

theorem RetracesAll.of_reaches {α : Type} {i j : Input} {x : Except Failure α} {y : Except Fault α}
    (h : RetracesAll j x y) (reached : i.Reaches j) : RetracesAll i x y := by
  cases h with
  | ok => exact .ok
  | error onward => exact .error (reached.trans onward)

theorem RetracesAll.bind {k : Nat} {α β : Type} {s : List Char} {i i₀ : Input}
    {x : Except Failure (Reading k α s)} {y : Except Fault (Advance k α i₀)}
    {f : Reading k α s → Except Failure β} {g : Advance k α i₀ → Except Fault β}
    (h : Retraces i x y) (next : ∀ v j u u', RetracesAll j (f ⟨v, j.rest, u⟩) (g ⟨v, j, u'⟩)) :
    RetracesAll i (x >>= f) (y >>= g) := by
  cases h with
  | ok same =>
    cases same with
    | intro reached => exact (next _ _ _ _).of_reaches reached
  | error reached => exact .error reached

theorem elementsFrom_retraces (done : List Node) (run : List DocBlock) (doc : Option String)
    (trim : Bool) (i : Input) : RetracesAll i (Template.elementsFrom done run doc trim i.rest)
      (elementsFrom done run doc trim i) := by
  induction hn : i.rest.length using Nat.strongRecOn generalizing i done run doc trim with
  | ind n ih =>
    subst hn
    obtain ⟨p, _ | ⟨c, s⟩⟩ := i
    · rw [Template.elementsFrom, elementsFrom]
      exact .ok
    · rw [Template.elementsFrom, elementsFrom]
      have block := docBlock?_retraces trim ⟨p, c :: s⟩
      dsimp only at block ⊢
      generalize Template.docBlock? trim (c :: s) = x at block ⊢
      generalize docBlock? trim ⟨p, c :: s⟩ = y at block ⊢
      cases block with
      | some tracked =>
        refine RetracesAll.bind tracked fun found j u u' => ?_
        have keyword : (Template.statementKeyword? j.rest).any (·.value == "macro") =
            (statementKeyword? j).any (·.value == "macro") := by
          rcases (statementKeyword?_finds j).cases with ⟨hx, hy⟩ | ⟨_, _, _, _, _, hx, hy⟩
          · rw [hx, hy]
            rfl
          · rw [hx, hy]
            rfl
        dsimp only
        rw [keyword]
        split
        · exact ih _ u' _ _ _ _ j rfl
        · split
          · exact ih _ u' _ _ _ _ j rfl
          · exact ih _ u' _ _ _ _ j rfl
      | none =>
        refine RetracesAll.bind (element_retraces true doc trim p c s) fun e j u u' => ?_
        exact ih _ u' _ _ _ _ j rfl

end TagCompiler.Template.Tracked

namespace TagCompiler.Template

open Text

/-! ### Places in a source -/

/-- The characters after the last newline. -/
def lastLine (s : List Char) : List Char := (s.reverse.takeWhile (· != '\n')).reverse

/-- The counts of the place are those of the text before it. -/
structure Place.IsAfter (p : Place) (before : List Char) : Prop where
  offset_eq : p.offset = byteLength before
  line_eq : p.line = 1 + before.count '\n'
  lineStart_eq : p.offset = p.lineStart + byteLength (lastLine before)

theorem byteLength_append (a b : List Char) :
    byteLength (a ++ b) = byteLength a + byteLength b := by
  simp [byteLength_eq]

/-- Going on by a character keeps the counts right. -/
theorem Place.IsAfter.afterChar {p : Place} {before : List Char} (h : p.IsAfter before) (c : Char) :
    (p.afterChar c).IsAfter (before ++ [c]) := by
  have bytes : byteLength (before ++ [c]) = byteLength before + c.utf8Size :=
    byteLength_append before [c]
  unfold Place.afterChar
  by_cases newline : c = '\n'
  · subst newline
    have line : lastLine (before ++ ['\n']) = [] := by simp [lastLine]
    rw [if_pos rfl]
    refine ⟨?_, ?_, ?_⟩
    · rw [bytes, ← h.offset_eq]
    · rw [List.count_append, h.line_eq]
      rfl
    · rw [line]
      rfl
  · have line : lastLine (before ++ [c]) = lastLine before ++ [c] := by simp [lastLine, newline]
    have count : (before ++ [c]).count '\n' = before.count '\n' := by
      simp [List.count_append, newline]
    rw [if_neg newline]
    refine ⟨?_, ?_, ?_⟩
    · rw [bytes, ← h.offset_eq]
    · rw [count, h.line_eq]
    · rw [line, byteLength_append, ← Nat.add_assoc, ← h.lineStart_eq]
      rfl

theorem Place.isAfter_start (text : List Char) : (Place.start.after text).IsAfter text := by
  have run : ∀ (p : Place) (before : List Char), p.IsAfter before →
      (p.after text).IsAfter (before ++ text) := by
    induction text with
    | nil =>
      intro p before h
      rw [List.append_nil]
      exact h
    | cons c text ih =>
      intro p before h
      have rest := ih _ _ (h.afterChar c)
      rw [List.append_assoc] at rest
      exact rest
  exact run .start [] ⟨rfl, rfl, rfl⟩

/-- A failure in a source, as an error with the place that it leaves so much unread. -/
def SyntaxError.locate (source : List Char) (f : Failure) : SyntaxError :=
  let place := source.length - f.unread
  let before := source.take place
  { line := 1 + before.count '\n'
    column := 1 + byteLength (lastLine before)
    fragment := String.ofList ((source.drop place).take fragmentLength)
    cause := f.cause }

/-- The place that an input has come to is that of what it has left unread. -/
theorem toError_of_reaches {source : List Char} {j : Input}
    (reached : (Input.ofSource source).Reaches j) (cause : Cause) :
    (Fault.mk cause j.place).toError source =
      SyntaxError.locate source ⟨cause, j.rest.length⟩ := by
  obtain ⟨text, rest, place⟩ := reached
  have counts := Place.isAfter_start text
  rw [← show j.place = Place.start.after text from place] at counts
  have rest : source = text ++ j.rest := rest
  subst rest
  have column : j.place.column = 1 + byteLength (lastLine text) := by
    have := counts.lineStart_eq
    unfold Place.column
    omega
  simp [Fault.toError, SyntaxError.locate, counts.line_eq, column, counts.offset_eq,
    dropBytes_append]

/-- A source is read like its characters, and rejected where that fails. -/
theorem parse_eq (source : String) : parse source =
    match elementsFrom [] [] none false source.toList with
    | .ok nodes => .ok (ofElements nodes)
    | .error f => .error (SyntaxError.locate source.toList f) := by
  have tracked := Tracked.elementsFrom_retraces [] [] none false (.ofSource source.toList)
  unfold parse
  change Tracked.RetracesAll _ (elementsFrom [] [] none false source.toList) _ at tracked
  generalize elementsFrom [] [] none false source.toList = x at tracked ⊢
  generalize Tracked.elementsFrom [] [] none false (.ofSource source.toList) = y at tracked ⊢
  cases tracked with
  | ok => rfl
  | error reached => exact congrArg Except.error (toError_of_reaches reached _)

end TagCompiler.Template
