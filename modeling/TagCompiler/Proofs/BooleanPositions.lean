import TagCompiler.Proofs.ConditionTruth
/-!
# Bare variables in conditions

A condition is tested as a whole, and with it the operands of its chains, what stands in its groups
and what its negations deny. These are its boolean positions. The pass for emptiness tests replaces
a variable there by tests, and so it does with the negation of a variable. It does not look into
what else is negated, though: a variable below such a negation is left to the tag file.
-/

namespace TagCompiler.Conditions

open Node

/-! ### Boolean positions -/

def isConnective : Node → Bool
  | .connective _ => true
  | _ => false

/-- The node `k` stands in a boolean position of a condition. What is negated stands in one only if
`negations` holds. -/
inductive BooleanPosition (negations : Prop) (k : Node) : Node → Prop
  | self : BooleanPosition negations k k
  | operand {chain : List Node} {m : Node} : m ∈ chain → isConnective m = false →
      BooleanPosition negations k m → BooleanPosition negations k (.condition chain)
  | inner {ns : List Node} {m : Node} : m ∈ ns → BooleanPosition negations k m →
      BooleanPosition negations k (.group ns)
  | negated {m : Node} : negations → BooleanPosition negations k m →
      BooleanPosition negations k (.expression [.operator "not", m])

/-- The node can hold no other boolean position than its own. -/
def isSimple : Node → Bool
  | .condition _ | .group _ | .expression [.operator "not", _] => false
  | _ => true

section

variable {negations : Prop} {k : Node}

theorem booleanPosition_condition {chain : List Node} :
    BooleanPosition negations k (.condition chain) ↔ k = .condition chain ∨
      ∃ m ∈ chain, isConnective m = false ∧ BooleanPosition negations k m := by
  constructor
  · intro h
    cases h with
    | self => exact .inl rfl
    | operand hm other h => exact .inr ⟨_, hm, other, h⟩
  · rintro (rfl | ⟨m, hm, other, h⟩)
    · exact .self
    · exact .operand hm other h

theorem booleanPosition_group {ns : List Node} : BooleanPosition negations k (.group ns) ↔
    k = .group ns ∨ ∃ m ∈ ns, BooleanPosition negations k m := by
  constructor
  · intro h
    cases h with
    | self => exact .inl rfl
    | inner hm h => exact .inr ⟨_, hm, h⟩
  · rintro (rfl | ⟨m, hm, h⟩)
    · exact .self
    · exact .inner hm h

theorem booleanPosition_negation {m : Node} :
    BooleanPosition negations k (.expression [.operator "not", m]) ↔
      k = .expression [.operator "not", m] ∨ negations ∧ BooleanPosition negations k m := by
  constructor
  · intro h
    cases h with
    | self => exact .inl rfl
    | negated through h => exact .inr ⟨through, h⟩
  · rintro (rfl | ⟨through, h⟩)
    · exact .self
    · exact .negated through h

theorem booleanPosition_simple {n : Node} (simple : isSimple n = true) :
    BooleanPosition negations k n ↔ k = n := by
  constructor
  · intro h
    cases h with
    | self => rfl
    | operand | inner | negated => cases simple
  · rintro rfl
    exact .self

end

/-- A condition is a chain, a group or a negation, or it has no boolean position inside. -/
theorem simple_or (n : Node) : (∃ chain, n = .condition chain) ∨ (∃ ns, n = .group ns) ∨
    (∃ m, n = .expression [.operator "not", m]) ∨ isSimple n = true := by
  unfold isSimple
  split
  · exact .inl ⟨_, rfl⟩
  · exact .inr (.inl ⟨_, rfl⟩)
  · exact .inr (.inr (.inl ⟨_, rfl⟩))
  · exact .inr (.inr (.inr rfl))

/-! ### Emptiness tests in a tree -/

theorem isLeaf_useEmptiness (n : Node) : n.useEmptiness.isLeaf = n.isLeaf := by
  cases n with
  | parameter name value => cases value <;> rfl
  | expression chain =>
    rw [useEmptiness_expression]
    cases made : Emptiness.test? (chain.map Node.useEmptiness) with
    | none => rfl
    | some test =>
      obtain ⟨-, -, -, subject, -, rfl | rfl, -⟩ := test?_cases made <;> rfl
  | _ => rfl

theorem useEmptiness_of_isLeaf {n : Node} (leaf : n.isLeaf = true) : n.useEmptiness = n := by
  cases n with
  | parameter name value =>
    cases value with
    | none => rfl
    | some v => cases leaf
  | data | literal | text | var | operator | connective | yield => rfl
  | _ => cases leaf

theorem useEmptiness_eq_leaf_iff {n k : Node} (leaf : k.isLeaf = true) :
    n.useEmptiness = k ↔ n = k := by
  constructor
  · rintro rfl
    rw [isLeaf_useEmptiness] at leaf
    exact (useEmptiness_of_isLeaf leaf).symm
  · rintro rfl
    exact useEmptiness_of_isLeaf leaf

/-- What holds of leaves only holds of a node if and only if it holds of what becomes of it. -/
theorem useEmptiness_of_leafTest {f : Node → Bool} (leaves : ∀ n, f n = true → n.isLeaf = true)
    (n : Node) : f n.useEmptiness = f n := by
  cases leaf : n.isLeaf with
  | true => rw [useEmptiness_of_isLeaf leaf]
  | false =>
    have other : ∀ k : Node, k.isLeaf = false → f k = false := fun k inner =>
      Bool.eq_false_iff.mpr fun holds => by rw [leaves k holds] at inner; cases inner
    rw [other n leaf, other _ (by rwa [isLeaf_useEmptiness])]

theorem isConnective_useEmptiness (n : Node) : isConnective n.useEmptiness = isConnective n := by
  refine useEmptiness_of_leafTest (fun k h => ?_) n
  cases k with
  | connective => rfl
  | _ => cases h

theorem useEmptiness_condition (chain : List Node) :
    (Node.condition chain).useEmptiness = .condition (chain.map Node.useEmptiness) :=
  useEmptiness_eq_node _

theorem useEmptiness_group (ns : List Node) :
    (Node.group ns).useEmptiness = .group (ns.map Node.useEmptiness) := useEmptiness_eq_node _

theorem useEmptiness_negation (m : Node) :
    (Node.expression [.operator "not", m]).useEmptiness =
      .expression [.operator "not", m.useEmptiness] := by
  rw [useEmptiness_expression]
  have pair : ∀ k, Emptiness.test? [.operator "not", k] = none := fun k => by
    simp [Emptiness.test?]
  exact congrArg (Option.getD · _) (pair _)

theorem isSimple_useEmptiness {n : Node} (simple : isSimple n = true) :
    isSimple n.useEmptiness = true := by
  cases n with
  | expression chain =>
    rw [useEmptiness_expression]
    cases made : Emptiness.test? (chain.map Node.useEmptiness) with
    | some test =>
      obtain ⟨-, -, -, subject, -, rfl | rfl, -⟩ := test?_cases made <;> rfl
    | none =>
      rw [Option.getD_none]
      rcases simple_or (.expression (chain.map Node.useEmptiness)) with
        ⟨_, same⟩ | ⟨_, same⟩ | ⟨m, same⟩ | kept
      · cases same
      · cases same
      · obtain ⟨sign, rest, rfl, hsign, hrest⟩ := List.map_eq_cons_iff.mp (Node.expression.inj same)
        obtain ⟨k, others, rfl, -, end_⟩ := List.map_eq_cons_iff.mp hrest
        rw [useEmptiness_eq_leaf_iff rfl] at hsign
        obtain rfl := List.map_eq_nil_iff.mp end_
        rw [hsign] at simple
        cases simple
      · exact kept
  | condition | group => cases simple
  | parameter name value => cases value <;> rfl
  | _ => rfl

/-- Emptiness tests leave the variables in boolean positions there. -/
theorem booleanPosition_useEmptiness (path : List String) (n : Node) :
    BooleanPosition True (.var path) n.useEmptiness ↔ BooleanPosition True (.var path) n := by
  induction n using induction_on_subtrees with
  | step n ih =>
    rcases simple_or n with ⟨chain, rfl⟩ | ⟨ns, rfl⟩ | ⟨m, rfl⟩ | simple
    · rw [useEmptiness_condition, booleanPosition_condition, booleanPosition_condition]
      simp only [reduceCtorEq, false_or, List.mem_map, exists_exists_and_eq_and]
      refine exists_congr fun m => and_congr_right fun hm => ?_
      rw [isConnective_useEmptiness, ih m hm]
    · rw [useEmptiness_group, booleanPosition_group, booleanPosition_group]
      simp only [reduceCtorEq, false_or, List.mem_map, exists_exists_and_eq_and]
      exact exists_congr fun m => and_congr_right (ih m)
    · rw [useEmptiness_negation, booleanPosition_negation, booleanPosition_negation,
        ih m (by simp [subtrees, children])]
      simp only [reduceCtorEq, false_or]
    · rw [booleanPosition_simple (isSimple_useEmptiness simple), booleanPosition_simple simple,
        eq_comm, useEmptiness_eq_leaf_iff rfl, eq_comm]

/-! ### Variables that are left -/

theorem truth_of_isSimple {n : Node} (simple : isSimple n = true) (other : ∀ path, n ≠ .var path) :
    Emptiness.truth n = n := by
  unfold Emptiness.truth
  split
  · exact absurd rfl (other _)
  · cases simple
  · cases simple
  · cases simple
  · rfl

theorem truth_negation {m : Node} (other : ∀ path, m ≠ .var path) :
    Emptiness.truth (.expression [.operator "not", m]) = .expression [.operator "not", m] := by
  cases m with
  | var path => exact absurd rfl (other path)
  | _ => simp [Emptiness.truth]

theorem isConnective_truth (n : Node) : isConnective (Emptiness.truth n) = isConnective n := by
  unfold Emptiness.truth
  split <;> rfl

theorem isConnective_lowered (n : Node) : isConnective (lowered n) = isConnective n := by
  rw [lowered, isConnective_truth, isConnective_useEmptiness]

/-- The boolean positions of a test for truth with two parts. -/
theorem booleanPosition_test {negations : Prop} {k first second : Node} {link : String}
    (simple : isSimple first = true ∧ isSimple second = true)
    (h : BooleanPosition negations k (.group [.condition [first, .connective link, second]])) :
    (∃ ns, k = .group ns) ∨ (∃ chain, k = .condition chain) ∨ k = first ∨ k = second := by
  rcases booleanPosition_group.mp h with same | ⟨_, only, below⟩
  · exact .inl ⟨_, same⟩
  obtain rfl := List.mem_singleton.mp only
  rcases booleanPosition_condition.mp below with same | ⟨m, listed, other, part⟩
  · exact .inr (.inl ⟨_, same⟩)
  obtain rfl | rfl | rfl : m = first ∨ m = .connective link ∨ m = second := by simpa using listed
  · exact .inr (.inr (.inl ((booleanPosition_simple simple.1).mp part)))
  · cases other
  · exact .inr (.inr (.inr ((booleanPosition_simple simple.2).mp part)))

/-- A test for truth has no variable in a boolean position. -/
theorem not_booleanPosition_test {path : List String} {first second : Node} {link : String}
    (simple : isSimple first = true ∧ isSimple second = true)
    (other : first ≠ .var path ∧ second ≠ .var path) :
    ¬BooleanPosition True (.var path) (.group [.condition [first, .connective link, second]]) := by
  intro h
  rcases booleanPosition_test simple h with ⟨_, same⟩ | ⟨_, same⟩ | same | same
  · cases same
  · cases same
  · exact other.1 same.symm
  · exact other.2 same.symm

/-- The variable stands below a negation, in a boolean position of what is negated, and is not
itself what is negated. -/
def BelowNegation (path : List String) (c : Node) : Prop :=
  ∃ m, BooleanPosition False (.expression [.operator "not", m]) c ∧ (∀ q, m ≠ .var q) ∧
    BooleanPosition True (.var path) m

theorem belowNegation_condition {path : List String} {chain : List Node} :
    BelowNegation path (.condition chain) ↔
      ∃ m ∈ chain, isConnective m = false ∧ BelowNegation path m := by
  simp only [BelowNegation, booleanPosition_condition, reduceCtorEq, false_or]
  grind

theorem belowNegation_group {path : List String} {ns : List Node} :
    BelowNegation path (.group ns) ↔ ∃ m ∈ ns, BelowNegation path m := by
  simp only [BelowNegation, booleanPosition_group, reduceCtorEq, false_or]
  grind

theorem belowNegation_negation {path : List String} {m : Node} :
    BelowNegation path (.expression [.operator "not", m]) ↔
      (∀ q, m ≠ .var q) ∧ BooleanPosition True (.var path) m := by
  simp only [BelowNegation, booleanPosition_negation, false_and, or_false, Node.expression.injEq,
    List.cons.injEq, true_and, and_true]
  grind

theorem not_belowNegation_of_isSimple {path : List String} {n : Node} (simple : isSimple n = true) :
    ¬BelowNegation path n := by
  rintro ⟨m, negation, -⟩
  rw [booleanPosition_simple simple] at negation
  subst negation
  cases simple

/-- A variable is left in a boolean position exactly if it stands below a negation of something
else. -/
theorem booleanPosition_lowered (path : List String) (c : Node) :
    BooleanPosition True (.var path) (lowered c) ↔ BelowNegation path c := by
  induction c using induction_on_subtrees with
  | step c ih =>
    rcases simple_or c with ⟨chain, rfl⟩ | ⟨ns, rfl⟩ | ⟨m, rfl⟩ | simple
    · rw [lowered_condition, booleanPosition_condition, belowNegation_condition]
      simp only [reduceCtorEq, false_or, List.mem_map, exists_exists_and_eq_and]
      refine exists_congr fun m => and_congr_right fun hm => ?_
      rw [isConnective_lowered, ih m hm]
    · rw [lowered_group, booleanPosition_group, belowNegation_group]
      simp only [reduceCtorEq, false_or, List.mem_map, exists_exists_and_eq_and]
      exact exists_congr fun m => and_congr_right (ih m)
    · -- A negated variable becomes a test, and what else is negated is not looked into.
      rw [belowNegation_negation, lowered, useEmptiness_negation]
      by_cases bare : ∃ q, m = .var q
      · obtain ⟨q, rfl⟩ := bare
        refine iff_of_false ?_ fun h => h.1 q rfl
        exact not_booleanPosition_test ⟨rfl, rfl⟩ ⟨by simp [Emptiness.emptyTest], by simp⟩
      · have other : ∀ q, m ≠ .var q := fun q same => bare ⟨q, same⟩
        rw [truth_negation fun q => mt (useEmptiness_eq_leaf_iff rfl).mp (other q),
          booleanPosition_negation, booleanPosition_useEmptiness]
        simp [other]
    · refine iff_of_false ?_ (not_belowNegation_of_isSimple simple)
      by_cases bare : ∃ q, c = .var q
      · obtain ⟨q, rfl⟩ := bare
        exact not_booleanPosition_test ⟨rfl, rfl⟩ ⟨by simp [Emptiness.filledTest], by simp⟩
      · have other : ∀ q, c.useEmptiness ≠ .var q := fun q same =>
          bare ⟨q, (useEmptiness_eq_leaf_iff rfl).mp same⟩
        have simple := isSimple_useEmptiness simple
        rw [lowered, truth_of_isSimple simple other, booleanPosition_simple simple]
        exact fun same => other path same.symm

/-- What the pass leaves to the tag file: a condition has a bare variable in a boolean position
exactly if the variable stood, in a boolean position, below a negation of something else than a
variable. -/
theorem bare_variable_left_iff_belowNegation (t : Node) (scope : Option SiteContext)
    (before : Memory) :
    ∃ out, (Pass.empty.run scope t).run before = (.ok out, before) ∧
      List.Forall₂ (fun c c' => ∀ path, BooleanPosition True (.var path) c' ↔ BelowNegation path c)
        (branchConditions t) (branchConditions out) := by
  refine ⟨t.useEmptiness, rfl, ?_⟩
  rw [branchConditions_useEmptiness, List.forall₂_map_right_iff, List.forall₂_same]
  exact fun c _ path => booleanPosition_lowered path c

/-- The negation of a group: the variable in it is left. -/
theorem bare_variable_left_in_group :
    Template.parse "\x7b% if not (x) %\x7d\x7b% endif %\x7d" =
      .ok (.list [.branch (.expression [.operator "not", .group [.var ["x"]]]) [] []]) ∧
    ∃ out, (Pass.empty.run none (.list [.branch (.expression
        [.operator "not", .group [.var ["x"]]]) [] []])).run .empty = (.ok out, .empty) ∧
      ∃ c ∈ branchConditions out, BooleanPosition True (.var ["x"]) c := by
  refine ⟨?_, _, rfl, .expression [.operator "not", .group [.var ["x"]]], ?_, ?_⟩
  · rw [Template.parse_eq]
    cbv
  · exact List.mem_singleton_self _
  · exact .negated trivial (.inner (List.mem_singleton_self _) .self)

end TagCompiler.Conditions
