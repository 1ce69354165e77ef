import TagCompiler.Proofs.TrackedReading
/-!
# Expressions in input with a place

Each reader of an expression comes to the same in an input as in its characters. The induction
follows the recursion of the readers, as for `condition_reads`.
-/

namespace TagCompiler.Template.Tracked

open Text

/-! ### Operators -/

theorem connective?_finds (i : Input) :
    Finds i (Template.connective? i.rest) (connective? i) := by
  have both := ((keyword?_finds (w := "and") (by decide) i.skipBlanks).orElse
    (word?_finds (w := "&&") (by decide) i.skipBlanks)).map fun _ => "and"
  have either := ((keyword?_finds (w := "or") (by decide) i.skipBlanks).orElse
    (word?_finds (w := "||") (by decide) i.skipBlanks)).map fun _ => "or"
  have found := both.orElse either
  rw [Input.rest_skipBlanks] at found
  exact found.skipping.of_reaches (.skipBlanks i)

theorem findSome?_finds (ws : List String) (inLine : ∀ w ∈ ws, '\n' ∉ w.toList) (i : Input) :
    Finds i (ws.findSome? fun w => (Text.word? w i.rest).map (Reading.map fun _ => w))
      (ws.findSome? fun w => (word? w i).map (Advance.map fun _ => w)) := by
  induction ws with
  | nil => exact .none
  | cons w ws ih =>
    have rest := ih fun v hv => inLine v (List.mem_cons_of_mem w hv)
    have first := (word?_finds (inLine w List.mem_cons_self) i).map fun _ => w
    rw [List.findSome?_cons, List.findSome?_cons]
    rcases first.cases with ⟨hx, hy⟩ | ⟨v, j, u, u', reached, hx, hy⟩
    · rw [hx, hy]
      exact rest
    · rw [hx, hy]
      exact .some (.intro reached)

theorem operator?_finds (i : Input) : Finds i (Template.operator? i.rest) (operator? i) := by
  have word := keyword?_finds (w := "in") (by decide) i.skipBlanks
  have sign := findSome?_finds operatorSigns (by decide) i.skipBlanks
  unfold Template.operator? operator?
  dsimp only
  rw [Input.rest_skipBlanks] at word sign ⊢
  split
  · exact .none
  · refine Finds.of_reaches (Finds.skipping ?_) (.skipBlanks i)
    rcases word.cases with ⟨hx, hy⟩ | ⟨v, j, u, u', reached, hx, hy⟩
    · rw [hx, hy]
      exact sign
    · rw [hx, hy]
      exact .some (.intro reached)

theorem negation?_finds (i : Input) : Finds i (Template.negation? i.rest) (negation? i) := by
  have word := keyword?_finds (w := "not") (by decide) i.skipBlanks
  have sign := word?_finds (w := "!") (by decide) i.skipBlanks
  unfold Template.negation? negation?
  dsimp only
  rw [Input.rest_skipBlanks] at word sign ⊢
  refine Finds.of_reaches (Finds.skipping ?_) (.skipBlanks i)
  rcases word.cases with ⟨hx, hy⟩ | ⟨v, j, u, u', reached, hx, hy⟩
  · rw [hx, hy]
    dsimp only
    split
    · exact .none
    · exact sign
  · rw [hx, hy]
    exact .some (.intro reached)

theorem pipe?_finds (i : Input) : Finds i (Template.pipe? i.rest) (pipe? i) := by
  unfold Template.pipe? pipe?
  rw [Input.rest_skipBlanks]
  split
  · exact .none
  · exact spaced?_finds (by decide) i

theorem keywordArgument?_finds (i : Input) :
    Finds i (Template.keywordArgument? i.rest) (keywordArgument? i) := by
  unfold Template.keywordArgument? keywordArgument?
  refine (name?_finds i).bind fun n j _ _ _ => ?_
  dsimp only
  rw [Input.rest_skipBlanks]
  split
  · exact .none
  · exact (spaced?_finds (by decide) j).past.bind fun _ j _ _ _ => .some (.intro (.refl j))

/-! ### Paths and keys -/

theorem mapKey_retraces (i : Input) : Retraces i (Template.mapKey i.rest) (mapKey i) := by
  have key : ∀ j : Input, Retraces j
      (if j.rest.head?.any isQuote then Template.quoted j.rest else Template.nameHere j.rest)
      (if j.rest.head?.any isQuote then quoted j else nameHere j) := by
    rintro ⟨p, _ | ⟨c, s⟩⟩
    · exact nameHere_retraces _
    · split
      · rename_i quote
        exact quoted_retraces (by simpa using quote) s
      · exact nameHere_retraces _
  have tracked := key i.skipBlanks
  unfold Template.mapKey mapKey
  dsimp only
  rw [Input.rest_skipBlanks] at tracked ⊢
  exact tracked.skipping.of_reaches (.skipBlanks i)

theorem index_retraces (i : Input) : Retraces i (Template.index i.rest) (index i) := by
  obtain ⟨p, _ | ⟨c, s⟩⟩ := i
  · exact .fail _ ⟨p, []⟩
  · unfold Template.index index
    dsimp only
    split
    · rename_i quote
      exact quoted_retraces quote s
    · split
      · exact .ok ((takeSome_agrees isNameChar_short p s _).map _)
      · exact .fail _ ⟨p, c :: s⟩

theorem spacedIndex_retraces (i : Input) : Retraces i
    (Text.skipping (skipBlanks_length_le i.rest) (Template.index (Text.skipBlanks i.rest)))
    (spacedIndex i) := by
  have tracked := index_retraces i.skipBlanks
  rw [Input.rest_skipBlanks] at tracked
  exact tracked.skipping.of_reaches (.skipBlanks i)

theorem pathTail_retraces (i : Input) : Retraces i (Template.pathTail i.rest) (pathTail i) := by
  induction hn : i.rest.length using Nat.strongRecOn generalizing i with
  | ind n ih =>
    subst hn
    obtain ⟨p, s⟩ := i
    show Retraces _ (Template.pathTail s) _
    by_cases dot : ∃ c r, s = '.' :: c :: r
    · obtain ⟨c, r, rfl⟩ := dot
      rw [Template.pathTail, pathTail]
      split
      · rename_i hc
        have part := takeSome_agrees isNameChar_short (p.afterBytes 1) r hc
        generalize Text.takeSome isNameChar c r hc = x at part ⊢
        generalize takeSome isNameChar (p.afterBytes 1) c r hc = y at part ⊢
        cases part with
        | @intro _ j u u' reached =>
          have tail := ih j.rest.length (Nat.lt_of_lt_of_le u' (Nat.le_succ _)) j rfl
          refine Retraces.of_reaches ?_ ((reaches_sign (by decide) p (c :: r)).trans reached)
          exact tail.past.bind fun _ j _ _ _ => .here
      · exact .here
    by_cases bracket : ∃ r, s = '[' :: r
    · obtain ⟨r, rfl⟩ := bracket
      rw [Template.pathTail, pathTail]
      refine Retraces.of_reaches ?_ (reaches_sign (by decide) p r)
      refine (spacedIndex_retraces ⟨p.afterBytes 1, r⟩).bind fun part j u u' _ => ?_
      refine (demandSpaced_retraces (by decide) j).past.bind fun _ j u u' _ => ?_
      have tail := ih j.rest.length (Nat.lt_of_lt_of_le u' (Nat.le_succ _)) j rfl
      exact tail.past.bind fun _ j _ _ _ => .here
    · rw [Template.pathTail.eq_3 s (fun c r h => dot ⟨c, r, h⟩) (fun r h => bracket ⟨r, h⟩),
        pathTail.eq_3 ⟨p, s⟩ (fun _ c r h => dot ⟨c, r, (Input.mk.inj h).2⟩)
          (fun _ r h => bracket ⟨r, (Input.mk.inj h).2⟩)]
      exact .here

/-! ### Expressions -/

mutual

theorem condition_retraces (i : Input) : Retraces i (Template.condition i.rest) (condition i) := by
  rw [Template.condition, condition]
  refine (expression_retraces i).bind fun first j _ _ _ => ?_
  exact (connectives_retraces j).past.bind fun more j _ _ _ => .here
termination_by 16 * i.rest.length + 9
decreasing_by all_goals omega

theorem connectives_retraces (i : Input) :
    Retraces i (Template.connectives i.rest) (connectives i) := by
  rw [Template.connectives, connectives]
  rcases (connective?_finds i).cases with ⟨hx, hy⟩ | ⟨op, j, u, u', reached, hx, hy⟩
  · rw [hx, hy]
    exact .afterBlanks
  · rw [hx, hy]
    refine Retraces.of_reaches ?_ reached
    refine (expression_retraces j).past.bind fun e j _ _ _ => ?_
    exact (connectives_retraces j).past.bind fun more j _ _ _ => .here
termination_by 16 * i.rest.length
decreasing_by all_goals omega

theorem expression_retraces (i : Input) :
    Retraces i (Template.expression i.rest) (expression i) := by
  rw [Template.expression, expression]
  refine (operand_retraces i).bind fun first j _ _ _ => ?_
  exact (operators_retraces j).past.bind fun more j _ _ _ => .here
termination_by 16 * i.rest.length + 8
decreasing_by all_goals omega

theorem operators_retraces (i : Input) : Retraces i (Template.operators i.rest) (operators i) := by
  rw [Template.operators, operators]
  rcases (operator?_finds i).cases with ⟨hx, hy⟩ | ⟨op, j, u, u', reached, hx, hy⟩
  · rw [hx, hy]
    exact .afterBlanks
  · rw [hx, hy]
    refine Retraces.of_reaches ?_ reached
    refine (operand_retraces j).past.bind fun e j _ _ _ => ?_
    exact (operators_retraces j).past.bind fun more j _ _ _ => .here
termination_by 16 * i.rest.length
decreasing_by all_goals omega

theorem operand_retraces (i : Input) : Retraces i (Template.operand i.rest) (operand i) := by
  rw [Template.operand, operand]
  rcases (negation?_finds i).cases with ⟨hx, hy⟩ | ⟨_, j, u, u', reached, hx, hy⟩
  · rw [hx, hy]
    have blanks := i.skipBlanks_length_le
    have tracked : Retraces i.skipBlanks (Template.primary i.skipBlanks.rest)
        (primary i.skipBlanks) := primary_retraces i.skipBlanks.place i.skipBlanks.rest
    rw [Input.rest_skipBlanks] at tracked
    refine (tracked.skipping.of_reaches (.skipBlanks i)).bind fun e j _ _ _ => ?_
    exact (filters_retraces e j).past.bind fun e j _ _ _ => .here
  · rw [hx, hy]
    refine Retraces.of_reaches ?_ reached
    exact (operand_retraces j).past.bind fun e j _ _ _ => .here
termination_by 16 * i.rest.length + 7
decreasing_by all_goals omega

theorem filters_retraces (subject : Node) (i : Input) :
    Retraces i (Template.filters subject i.rest) (filters subject i) := by
  rw [Template.filters, filters]
  rcases (pipe?_finds i).cases with ⟨hx, hy⟩ | ⟨_, j, u, u', reached, hx, hy⟩
  · rw [hx, hy]
    exact .afterBlanks
  · rw [hx, hy]
    refine Retraces.of_reaches ?_ reached
    refine (name_retraces j).past.bind fun n j _ _ _ => ?_
    dsimp only
    rcases (spaced?_finds (w := "(") (by decide) j).cases with
      ⟨hx, hy⟩ | ⟨_, k, u, u', reached, hx, hy⟩
    · rw [hx, hy]
      exact (filters_retraces _ j).past.bind fun e j _ _ _ => .here
    · rw [hx, hy]
      refine Retraces.of_reaches ?_ reached
      refine (arguments_retraces k).past.bind fun args j _ _ _ => ?_
      exact (filters_retraces _ j).past.bind fun e j _ _ _ => .here
termination_by 16 * i.rest.length
decreasing_by all_goals omega

theorem primary_retraces (p : Place) (s : List Char) :
    Retraces ⟨p, s⟩ (Template.primary s) (primary ⟨p, s⟩) := by
  cases hs : s with
  | nil =>
    rw [Template.primary, primary]
    exact .fail _ ⟨p, []⟩
  | cons c r =>
    have shorter : s.length = r.length + 1 := by rw [hs, List.length_cons]
    have inside : c.utf8Size = 1 ∧ c ≠ '\n' → Input.Reaches ⟨p, c :: r⟩ ⟨p.afterBytes 1, r⟩ :=
      fun short => reaches_sign short p r
    by_cases group : c = '('
    · subst group
      rw [Template.primary, primary]
      refine Retraces.of_reaches ?_ (inside (by decide))
      refine (condition_retraces ⟨p.afterBytes 1, r⟩).bind fun e j _ _ _ => ?_
      exact (demandSpaced_retraces (by decide) j).past.bind fun _ j _ _ _ => .here
    by_cases array : c = '['
    · subst array
      rw [Template.primary, primary]
      refine Retraces.of_reaches ?_ (inside (by decide))
      exact (items_retraces ⟨p.afterBytes 1, r⟩).bind fun cs j _ _ _ => .here
    by_cases map : c = '\x7b'
    · subst map
      rw [Template.primary, primary]
      refine Retraces.of_reaches ?_ (inside (by decide))
      exact (entries_retraces ⟨p.afterBytes 1, r⟩).bind fun es j _ _ _ => .here
    rw [Template.primary.eq_5 c r group array map, primary.eq_5 p c r group array map]
    split
    · rename_i quote
      exact (quoted_retraces quote r).bind fun v j _ _ _ => .here
    · have literal := number?_retraces ⟨p, c :: r⟩
      dsimp only at literal
      generalize Template.number? (c :: r) = x at literal ⊢
      generalize number? ⟨p, c :: r⟩ = y at literal ⊢
      cases literal with
      | some tracked => exact tracked
      | none =>
        dsimp only
        split
        · exact reference_retraces ⟨p, c :: r⟩
        · exact .fail _ ⟨p, c :: r⟩
termination_by 16 * s.length + 6
decreasing_by all_goals simp only [List.length_cons]; omega

theorem reference_retraces (i : Input) : Retraces i (Template.reference i.rest) (reference i) := by
  rw [Template.reference, reference]
  refine (nameHere_retraces i).bind fun n j _ _ _ => ?_
  dsimp only
  cases namedLiteral? n with
  | some e => exact .here
  | none =>
    refine (pathTail_retraces j).past.bind fun parts j _ _ _ => ?_
    dsimp only
    rcases (word?_finds (w := "(") (by decide) j).cases with
      ⟨hx, hy⟩ | ⟨_, k, u, u', reached, hx, hy⟩
    · rw [hx, hy]
      exact .here
    · rw [hx, hy]
      refine Retraces.of_reaches ?_ reached
      exact (arguments_retraces k).past.bind fun args j _ _ _ => .here
termination_by 16 * i.rest.length + 5
decreasing_by all_goals omega

theorem arguments_retraces (i : Input) : Retraces i (Template.arguments i.rest) (arguments i) := by
  rw [Template.arguments, arguments]
  rcases (spaced?_finds (w := ")") (by decide) i).cases with
    ⟨hx, hy⟩ | ⟨_, j, u, u', reached, hx, hy⟩
  · rw [hx, hy]
    refine (argument_retraces i).bind fun a j _ _ _ => ?_
    dsimp only
    rcases (spaced?_finds (w := ",") (by decide) j).cases with
      ⟨hx, hy⟩ | ⟨_, k, u, u', reached, hx, hy⟩
    · rw [hx, hy]
      exact (demandSpaced_retraces (by decide) j).past.bind fun _ j _ _ _ => .here
    · rw [hx, hy]
      refine Retraces.of_reaches ?_ reached
      exact (arguments_retraces k).past.bind fun more j _ _ _ => .here
  · rw [hx, hy]
    exact .ok (.intro reached)
termination_by 16 * i.rest.length + 11
decreasing_by all_goals omega

theorem argument_retraces (i : Input) : Retraces i (Template.argument i.rest) (argument i) := by
  rw [Template.argument, argument]
  rcases (keywordArgument?_finds i).cases with ⟨hx, hy⟩ | ⟨n, j, u, u', reached, hx, hy⟩
  · rw [hx, hy]
    exact (condition_retraces i).bind fun e j _ _ _ => .here
  · rw [hx, hy]
    refine Retraces.of_reaches ?_ reached
    exact (condition_retraces j).past.bind fun e j _ _ _ => .here
termination_by 16 * i.rest.length + 10
decreasing_by all_goals omega

theorem items_retraces (i : Input) : Retraces i (Template.items i.rest) (items i) := by
  rw [Template.items, items]
  rcases (spaced?_finds (w := "]") (by decide) i).cases with
    ⟨hx, hy⟩ | ⟨_, j, u, u', reached, hx, hy⟩
  · rw [hx, hy]
    refine (condition_retraces i).bind fun e j _ _ _ => ?_
    dsimp only
    rcases (spaced?_finds (w := ",") (by decide) j).cases with
      ⟨hx, hy⟩ | ⟨_, k, u, u', reached, hx, hy⟩
    · rw [hx, hy]
      exact (demandSpaced_retraces (by decide) j).past.bind fun _ j _ _ _ => .here
    · rw [hx, hy]
      refine Retraces.of_reaches ?_ reached
      exact (items_retraces k).past.bind fun more j _ _ _ => .here
  · rw [hx, hy]
    exact .ok (.intro reached)
termination_by 16 * i.rest.length + 10
decreasing_by all_goals omega

theorem entries_retraces (i : Input) : Retraces i (Template.entries i.rest) (entries i) := by
  rw [Template.entries, entries]
  rcases (spaced?_finds (w := "\x7d") (by decide) i).cases with
    ⟨hx, hy⟩ | ⟨_, j, u, u', reached, hx, hy⟩
  · rw [hx, hy]
    refine (mapKey_retraces i).bind fun key j _ _ _ => ?_
    refine (demandSpaced_retraces (by decide) j).past.bind fun _ j _ _ _ => ?_
    refine (condition_retraces j).past.bind fun e j _ _ _ => ?_
    dsimp only
    rcases (spaced?_finds (w := ",") (by decide) j).cases with
      ⟨hx, hy⟩ | ⟨_, k, u, u', reached, hx, hy⟩
    · rw [hx, hy]
      exact (demandSpaced_retraces (by decide) j).past.bind fun _ j _ _ _ => .here
    · rw [hx, hy]
      refine Retraces.of_reaches ?_ reached
      exact (entries_retraces k).past.bind fun more j _ _ _ => .here
  · rw [hx, hy]
    exact .ok (.intro reached)
termination_by 16 * i.rest.length + 10
decreasing_by all_goals omega

end

end TagCompiler.Template.Tracked
