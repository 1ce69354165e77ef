import Mathlib.Data.List.Flatten
import TagCompiler.Proofs.BooleanPositions
import TagCompiler.Proofs.Recursion
/-!
# Emptiness tests are settled after one pass

A tree is settled if no chain in it compares something with nothing and no condition tests a
variable by itself. The pass leaves such a tree as it is, and every tree that it makes is settled.

The pass can also be read from the root down: a comparison with nothing is replaced by its test, and
then the test is gone through like any other expression. A test may have as many nodes as the
comparison had, but it is not a comparison again, so this comes to an end on every tree, with the
same result.
-/

namespace TagCompiler.Emptiness

open Node Conditions

/-! ### Comparisons with nothing -/

/-- The chain compares two things for equality, of which exactly one is nothing. -/
def ComparesNothing (chain : List Node) : Prop :=
  ∃ left op right, chain = [left, .operator op, right] ∧ (op = "==" ∨ op = "!=") ∧
    isEquality left = false ∧ isVoid left ≠ isVoid right

theorem test?_eq_none_iff {chain : List Node} : test? chain = none ↔ ¬ComparesNothing chain := by
  unfold test?
  split
  · rename_i left op right
    have equality : isEquality (.operator op) = true ↔ op = "==" ∨ op = "!=" := by
      simp [isEquality]
    cases sign : isEquality (.operator op) <;> cases first : isEquality left <;>
      cases voidLeft : isVoid left <;> cases voidRight : isVoid right <;>
      simp_all [ComparesNothing]
  · rename_i other
    refine iff_of_true rfl ?_
    rintro ⟨left, op, right, rfl, -⟩
    exact other left op right rfl

theorem test?_pair (a b : Node) : test? [a, b] = none := by
  refine test?_eq_none_iff.mpr ?_
  rintro ⟨left, op, right, same, -⟩
  simp at same

theorem test?_filled (subject : Node) :
    test? [.operator "not", .operator "empty", subject] = none := by
  refine test?_eq_none_iff.mpr ?_
  rintro ⟨left, op, right, same, sign, -⟩
  obtain ⟨-, rfl, -⟩ : Node.operator "not" = left ∧ "empty" = op ∧ subject = right := by
    simpa using same
  simp at sign

theorem isVoid_useEmptiness (n : Node) : isVoid n.useEmptiness = isVoid n := by
  refine useEmptiness_of_leafTest (fun k h => ?_) n
  cases k with
  | literal => rfl
  | _ => cases h

theorem isEquality_useEmptiness (n : Node) : isEquality n.useEmptiness = isEquality n := by
  refine useEmptiness_of_leafTest (fun k h => ?_) n
  cases k with
  | operator => rfl
  | _ => cases h

theorem useEmptiness_emptyTest (subject : Node) :
    (emptyTest subject).useEmptiness = emptyTest subject.useEmptiness := by
  rw [emptyTest, useEmptiness_expression]
  exact congrArg (Option.getD · _) (test?_pair _ _)

theorem useEmptiness_filledTest (subject : Node) :
    (filledTest subject).useEmptiness = filledTest subject.useEmptiness := by
  rw [filledTest, useEmptiness_expression]
  exact congrArg (Option.getD · _) (test?_filled _)

theorem comparesNothing_useEmptiness {chain : List Node} :
    ComparesNothing (chain.map Node.useEmptiness) ↔ ComparesNothing chain := by
  constructor
  · rintro ⟨left, op, right, same, sign, other, void⟩
    obtain ⟨l, rest, rfl, rfl, later⟩ := List.map_eq_cons_iff.mp same
    obtain ⟨o, rest, rfl, ho, last⟩ := List.map_eq_cons_iff.mp later
    obtain ⟨r, rest, rfl, rfl, end_⟩ := List.map_eq_cons_iff.mp last
    obtain rfl := List.map_eq_nil_iff.mp end_
    obtain rfl := (useEmptiness_eq_leaf_iff rfl).mp ho
    rw [isEquality_useEmptiness] at other
    rw [isVoid_useEmptiness, isVoid_useEmptiness] at void
    exact ⟨l, op, r, rfl, sign, other, void⟩
  · rintro ⟨l, op, r, rfl, sign, other, void⟩
    refine ⟨l.useEmptiness, op, r.useEmptiness, rfl, sign, ?_, ?_⟩
    · rwa [isEquality_useEmptiness]
    · rwa [isVoid_useEmptiness, isVoid_useEmptiness]

/-- The test for a comparison is about what becomes of its subject. -/
theorem test?_useEmptiness (chain : List Node) :
    test? (chain.map Node.useEmptiness) = (test? chain).map Node.useEmptiness := by
  by_cases compares : ComparesNothing chain
  · obtain ⟨l, op, r, rfl, -, -, -⟩ := compares
    have sign : (Node.operator op).useEmptiness = .operator op := rfl
    simp only [List.map_cons, List.map_nil, sign, test?, isEquality_useEmptiness,
      isVoid_useEmptiness]
    split
    · rfl
    · cases isVoid l <;> cases isVoid r <;>
        simp only [Option.map_some, Option.map_none] <;> split <;>
        simp [useEmptiness_filledTest, useEmptiness_emptyTest]
  · rw [test?_eq_none_iff.mpr compares, Option.map_none, test?_eq_none_iff,
      comparesNothing_useEmptiness]
    exact compares

theorem useEmptiness_of_test? {chain : List Node} {test : Node} (h : test? chain = some test) :
    (Node.expression chain).useEmptiness = test.useEmptiness := by
  rw [useEmptiness_expression, test?_useEmptiness, h]
  rfl

theorem useEmptiness_of_no_test {chain : List Node} (h : test? chain = none) :
    (Node.expression chain).useEmptiness = .expression (chain.map Node.useEmptiness) := by
  rw [useEmptiness_expression, test?_useEmptiness, h]
  rfl

/-! ### Settled trees -/

/-- A variable or the negation of one. -/
def isBare : Node → Bool
  | .var _ | .expression [.operator "not", .var _] => true
  | _ => false

/-- The node has nothing that the pass changes. -/
def OwnSettled : Node → Prop
  | .expression chain => ¬ComparesNothing chain
  | .branch c _ _ => ∀ k, BooleanPosition False k c → isBare k = false
  | _ => True

def Settled (n : Node) : Prop := ∀ k ∈ n.preorder, OwnSettled k

theorem settled_iff {n : Node} : Settled n ↔ OwnSettled n ∧ ∀ k ∈ n.subtrees, Settled k :=
  forall_preorder_iff

theorem map_eq_self {f : Node → Node} {ns : List Node} (kept : ∀ n ∈ ns, f n = n) :
    ns.map f = ns :=
  (List.map_congr_left (g := id) kept).trans (List.map_id ns)

theorem truth_of_not_bare {n : Node} (h : ∀ k, BooleanPosition False k n → isBare k = false) :
    truth n = n := by
  induction n using induction_on_subtrees with
  | step n ih =>
    have self := h n .self
    unfold truth
    split
    · cases self
    · cases self
    · rename_i chain
      rw [truthOfOperands_eq_map]
      refine congrArg _ (map_eq_self fun m hm => ?_)
      cases connective : isConnective m with
      | true =>
        cases m with
        | connective => rfl
        | _ => cases connective
      | false => exact ih m hm fun k hk => h k (.operand hm connective hk)
    · rename_i ns
      rw [truths_eq_map]
      exact congrArg _ (map_eq_self fun m hm => ih m hm fun k hk => h k (.inner hm hk))
    · rfl

/-- A settled tree is kept. -/
theorem useEmptiness_of_settled {n : Node} (h : Settled n) : n.useEmptiness = n := by
  induction n using induction_on_subtrees with
  | step n ih =>
    obtain ⟨own, below⟩ := settled_iff.mp h
    have kept : ∀ k ∈ n.subtrees, k.useEmptiness = k := fun k hk => ih k hk (below k hk)
    have outs : n.outside.map Node.useEmptiness = n.outside :=
      map_eq_self fun k hk => kept k (mem_subtrees_of_mem_outside hk)
    have stats : n.elements.map Node.useEmptiness = n.elements :=
      map_eq_self fun k hk => kept k (mem_subtrees_of_mem_elements hk)
    rw [useEmptiness_eq_node, outs, stats, replace_self]
    cases n with
    | expression chain =>
      have none : test? chain = none := test?_eq_none_iff.mpr own
      exact congrArg (Option.getD · _) none
    | branch c ys ns => exact congrArg (Node.branch · ys ns) (truth_of_not_bare own)
    | _ => rfl

theorem settled_var (path : List String) : Settled (.var path) := by
  simp [Settled, preorder, OwnSettled]

theorem settled_operator (s : String) : Settled (.operator s) := by
  simp [Settled, preorder, OwnSettled]

theorem settled_emptyTest {subject : Node} (h : Settled subject) : Settled (emptyTest subject) := by
  refine settled_iff.mpr ⟨test?_eq_none_iff.mp (test?_pair _ _), ?_⟩
  simpa [emptyTest, subtrees, children] using ⟨settled_operator _, h⟩

theorem settled_filledTest {subject : Node} (h : Settled subject) :
    Settled (filledTest subject) := by
  refine settled_iff.mpr ⟨test?_eq_none_iff.mp (test?_filled _), ?_⟩
  simpa [filledTest, subtrees, children] using ⟨settled_operator _, settled_operator _, h⟩

/-- The text of a variable is compared with something. -/
theorem settled_textTest (path : List String) (op : String) :
    Settled (.expression [asText (.var path), .operator op, .string "false"]) := by
  refine settled_iff.mpr ⟨?_, ?_⟩
  · rintro ⟨left, sign, right, same, -, -, void⟩
    obtain ⟨rfl, -, rfl⟩ : asText (.var path) = left ∧ op = sign ∧ Node.string "false" = right := by
      simpa using same
    exact void rfl
  · simp [subtrees, children, Settled, asText, Node.string, preorder, preorderAll, OwnSettled]

/-- A test for truth is settled if its two parts are. -/
theorem settled_test {first second : Node} {link : String} (h : Settled first)
    (h' : Settled second) : Settled (.group [.condition [first, .connective link, second]]) := by
  refine settled_iff.mpr ⟨trivial, List.forall_mem_singleton.mpr (settled_iff.mpr ⟨trivial, ?_⟩)⟩
  have sign : Settled (.connective link) := by simp [Settled, preorder, OwnSettled]
  simpa [subtrees, children] using ⟨h, sign, h'⟩

theorem settled_truth {n : Node} (h : Settled n) : Settled (truth n) := by
  induction n using induction_on_subtrees with
  | step n ih =>
    have below := (settled_iff.mp h).2
    unfold truth
    split
    · exact settled_test (settled_filledTest h) (settled_textTest _ _)
    · exact settled_test (settled_emptyTest (settled_var _)) (settled_textTest _ _)
    · rw [truthOfOperands_eq_map]
      refine settled_iff.mpr ⟨trivial, List.forall_mem_map.mpr fun m hm => ih m hm (below m hm)⟩
    · rw [truths_eq_map]
      refine settled_iff.mpr ⟨trivial, List.forall_mem_map.mpr fun m hm => ih m hm (below m hm)⟩
    · exact h

/-- Read by its truth, a condition has no bare variable. -/
theorem not_bare_truth {n k : Node} (h : BooleanPosition False k (truth n)) : isBare k = false := by
  have tested : ∀ {first second : Node} {link : String},
      isSimple first = true ∧ isSimple second = true →
      isBare first = false ∧ isBare second = false →
      BooleanPosition False k (.group [.condition [first, .connective link, second]]) →
      isBare k = false := by
    intro first second link simple other h
    rcases booleanPosition_test simple h with ⟨_, rfl⟩ | ⟨_, rfl⟩ | rfl | rfl
    · rfl
    · rfl
    · exact other.1
    · exact other.2
  induction n using induction_on_subtrees with
  | step n ih =>
    unfold truth at h
    split at h
    · exact tested ⟨rfl, rfl⟩ ⟨rfl, rfl⟩ h
    · exact tested ⟨rfl, rfl⟩ ⟨rfl, rfl⟩ h
    · rw [truthOfOperands_eq_map] at h
      rcases booleanPosition_condition.mp h with rfl | ⟨_, inside, -, h⟩
      · rfl
      · obtain ⟨m, hm, rfl⟩ := List.mem_map.mp inside
        exact ih m hm h
    · rw [truths_eq_map] at h
      rcases booleanPosition_group.mp h with rfl | ⟨_, inside, h⟩
      · rfl
      · obtain ⟨m, hm, rfl⟩ := List.mem_map.mp inside
        exact ih m hm h
    · rename_i notVar notNegated notCondition notGroup
      cases h with
      | self =>
        unfold isBare
        split
        · exact absurd rfl (notVar _)
        · exact absurd rfl (notNegated _)
        · rfl
      | operand => exact absurd rfl (notCondition _)
      | inner => exact absurd rfl (notGroup _)
      | negated through => exact through.elim

theorem settled_test? {chain : List Node} {test : Node} (h : test? chain = some test)
    (parts : ∀ n ∈ chain, Settled n) : Settled test := by
  obtain ⟨left, op, right, subject, rfl, made, which⟩ := test?_cases h
  have about : Settled subject := by
    rcases which with ⟨rfl, -⟩ | ⟨rfl, -⟩
    · exact parts _ (by simp)
    · exact parts _ (by simp)
  rcases made with rfl | rfl
  · exact settled_filledTest about
  · exact settled_emptyTest about

/-- What the pass makes is settled. -/
theorem settled_useEmptiness (n : Node) : Settled n.useEmptiness := by
  induction n using induction_on_subtrees with
  | step n ih =>
    by_cases chain : ∃ cs, n = .expression cs
    · obtain ⟨cs, rfl⟩ := chain
      have parts : ∀ m ∈ cs.map Node.useEmptiness, Settled m := List.forall_mem_map.mpr ih
      rw [useEmptiness_expression]
      cases made : test? (cs.map Node.useEmptiness) with
      | none => exact settled_iff.mpr ⟨test?_eq_none_iff.mp made, parts⟩
      | some test => exact settled_test? made parts
    · by_cases branching : ∃ c ys ns, n = .branch c ys ns
      · obtain ⟨c, ys, ns, rfl⟩ := branching
        obtain ⟨condition, bodies⟩ := List.forall_mem_cons.mp ih
        rw [useEmptiness_branch]
        refine settled_iff.mpr ⟨fun k => not_bare_truth, ?_⟩
        refine List.forall_mem_cons.mpr ⟨settled_truth condition, ?_⟩
        rw [← List.map_append]
        exact List.forall_mem_map.mpr bodies
      · push Not at chain branching
        have made := useEmptiness_eq_replace chain branching
        have fit : n.Fit (n.outside.map Node.useEmptiness) (n.elements.map Node.useEmptiness) :=
          ⟨List.length_map .., List.length_map ..⟩
        refine settled_iff.mpr ⟨?_, ?_⟩
        · rw [made]
          cases n with
          | expression cs => exact absurd rfl (chain cs)
          | branch c ys ns => exact absurd rfl (branching c ys ns)
          | parameter name value => cases value <;> trivial
          | _ => trivial
        · rw [made, fit.subtrees_replace, ← List.map_append, ← subtrees_eq_append]
          exact List.forall_mem_map.mpr ih

/-- The trees that the pass keeps. -/
theorem useEmptiness_eq_self_iff {n : Node} : n.useEmptiness = n ↔ Settled n := by
  constructor
  · intro kept
    have settled := settled_useEmptiness n
    rwa [kept] at settled
  · exact useEmptiness_of_settled

/-! ### The pass from the root down -/

/-- What can be asked for while a tree is gone through. -/
inductive RewritingTask where
  | node (n : Node)
  | all (ns : List Node)

@[reducible] def RewritingTask.Answer : RewritingTask → Type
  | .node _ => Node
  | .all _ => List Node

/-- Going through a tree cannot fail. -/
abbrev RewritingWork := Code Empty RewritingTask RewritingTask.Answer

def ask (t : RewritingTask) : RewritingWork t.Answer := Code.ask t

namespace RewritingWork

/-- A comparison with nothing is replaced by its test, which is gone through in its place. Other
nodes are put together from what becomes of their subtrees. -/
def node (n : Node) : RewritingWork Node :=
  match n with
  | .expression chain =>
    match test? chain with
    | some test => ask (.node test)
    | none => do return .expression (← ask (.all chain))
  | .branch c ys ns => do
    return .branch (truth (← ask (.node c))) (← ask (.all ys)) (← ask (.all ns))
  | n => do return n.replace (← ask (.all n.outside)) (← ask (.all n.elements))

def all (ns : List Node) : RewritingWork (List Node) :=
  match ns with
  | [] => return []
  | n :: ns => do return (← ask (.node n)) :: (← ask (.all ns))

end RewritingWork

def work : (t : RewritingTask) → RewritingWork t.Answer
  | .node n => RewritingWork.node n
  | .all ns => RewritingWork.all ns

def result : (t : RewritingTask) → Except Empty t.Answer
  | .node n => .ok n.useEmptiness
  | .all ns => .ok (ns.map Node.useEmptiness)

/-- The pass is a solution of the equations. -/
theorem eval_work (t : RewritingTask) : (work t).eval result = result t := by
  cases t with
  | node n =>
    rw [work, result]
    fun_cases RewritingWork.node n with
    | case1 chain test made =>
      rw [ask, Code.eval_ask, result, useEmptiness_of_test? made]
    | case2 chain none =>
      rw [useEmptiness_of_no_test none]
      rfl
    | case3 c ys ns =>
      rw [useEmptiness_branch]
      rfl
    | case4 _ chain branching =>
      rw [useEmptiness_eq_replace chain branching]
      rfl
  | all ns => cases ns <;> rfl

/-! ### Descent -/

def isOperator : Node → Bool
  | .operator _ => true
  | _ => false

/-- How much the nodes weigh, of which operators weigh less than others. -/
def weight (nodes : List Node) : Nat := 2 * nodes.length + nodes.countP (!isOperator ·)

theorem weight_nil : weight [] = 0 := rfl

theorem weight_append (ns ms : List Node) : weight (ns ++ ms) = weight ns + weight ms := by
  simp only [weight, List.length_append, List.countP_append]
  omega

theorem weight_cons (n : Node) (ns : List Node) :
    weight (n :: ns) = (if isOperator n then 2 else 3) + weight ns := by
  simp only [weight, List.length_cons, List.countP_cons]
  cases isOperator n <;> simp <;> omega

theorem weight_of_sublist {ns ms : List Node} (h : ns.Sublist ms) : weight ns ≤ weight ms :=
  Nat.add_le_add (Nat.mul_le_mul_left 2 h.length_le) h.countP_le

/-- A list takes one more step than its elements. -/
def RewritingTask.rank : RewritingTask → Nat
  | .node n => weight n.preorder
  | .all ns => weight (ns.flatMap preorder) + 1

theorem rank_of_sublist {n : Node} {ns : List Node} (h : ns.Sublist n.subtrees) :
    (RewritingTask.all ns).rank < (RewritingTask.node n).rank := by
  have below := weight_of_sublist (h.flatMap preorder)
  rw [RewritingTask.rank, RewritingTask.rank, Node.preorder_eq_cons, weight_cons]
  split <;> omega

theorem rank_of_mem {n : Node} {ns : List Node} (h : n ∈ ns) :
    (RewritingTask.node n).rank < (RewritingTask.all ns).rank := by
  have below := weight_of_sublist ((List.singleton_sublist.mpr h).flatMap preorder)
  rw [List.flatMap_singleton] at below
  exact Nat.lt_succ_of_le below

theorem rank_of_tail (n : Node) (ns : List Node) :
    (RewritingTask.all ns).rank < (RewritingTask.all (n :: ns)).rank := by
  rw [RewritingTask.rank, RewritingTask.rank, List.flatMap_cons, weight_append,
    Node.preorder_eq_cons, weight_cons]
  split <;> omega

/-- A test weighs less than the comparison that it stands for. -/
theorem rank_of_test? {chain : List Node} {test : Node} (h : test? chain = some test) :
    (RewritingTask.node test).rank < (RewritingTask.node (.expression chain)).rank := by
  -- The literal that goes weighs more than the operator that may come instead of it.
  obtain ⟨left, op, right, subject, rfl, made, which⟩ := test?_cases h
  have literal : ∀ {k : Node}, isVoid k = true → weight k.preorder = 3 := by
    intro k void
    cases k with
    | literal => rfl
    | _ => cases void
  have chained : (RewritingTask.node (.expression [left, .operator op, right])).rank =
      5 + weight left.preorder + weight right.preorder := by
    simp only [RewritingTask.rank, preorder, preorderAll, weight_cons, weight_append, weight_nil,
      isOperator, Bool.false_eq_true, ↓reduceIte]
    omega
  have tested : (RewritingTask.node test).rank ≤ 7 + weight subject.preorder := by
    rcases made with rfl | rfl
    · simp only [RewritingTask.rank, filledTest, preorder, preorderAll, weight_cons, weight_append,
        weight_nil, isOperator, Bool.false_eq_true, ↓reduceIte]
      omega
    · simp only [RewritingTask.rank, emptyTest, preorder, preorderAll, weight_cons, weight_append,
        weight_nil, isOperator, Bool.false_eq_true, ↓reduceIte]
      omega
  rcases which with ⟨rfl, void⟩ | ⟨rfl, void⟩
  · have := literal void
    omega
  · have := literal void
    omega

/-- The work asks only for what weighs less than the task. -/
theorem work_descends (t : RewritingTask) :
    (work t).Proceeds (fun _ _ => True) (fun s => s.rank < t.rank) fun _ => True := by
  cases t with
  | node n =>
    rw [work]
    fun_cases RewritingWork.node n with
    | case1 chain test made => exact ⟨rank_of_test? made, fun _ _ => trivial⟩
    | case2 chain none => exact ⟨rank_of_sublist (List.Sublist.refl _), fun _ _ => trivial⟩
    | case3 c ys ns =>
      have condition : (RewritingTask.all [c]).rank < (RewritingTask.node (.branch c ys ns)).rank :=
        rank_of_sublist (by simp [subtrees])
      refine ⟨(rank_of_mem (List.mem_singleton_self c)).trans condition, fun _ _ => ?_⟩
      refine ⟨rank_of_sublist (by simp [subtrees]), fun _ _ => ?_⟩
      exact ⟨rank_of_sublist (by simp [subtrees]), fun _ _ => trivial⟩
    | case4 _ chain branching =>
      refine ⟨rank_of_sublist ?_, fun _ _ => ⟨rank_of_sublist ?_, fun _ _ => trivial⟩⟩
      · rw [subtrees_eq_append]
        exact List.sublist_append_left _ _
      · rw [subtrees_eq_append]
        exact List.sublist_append_right _ _
  | all ns =>
    cases ns with
    | nil => trivial
    | cons n ns =>
      refine ⟨rank_of_mem List.mem_cons_self, fun _ _ => ⟨?_, fun _ _ => trivial⟩⟩
      exact rank_of_tail n ns

/-- The pass gives a tree for every tree, which is what going through it from the root down comes
to. This tree is settled, and another run keeps it. -/
theorem empty_settles_in_one_run (t : Node) (scope : Option SiteContext) (before : Memory) :
    ∃ out, (∀ r, (work (.node t)).Ends work r ↔ r = .ok out) ∧
      (Pass.empty.run scope t).run before = (.ok out, before) ∧ Settled out ∧
      ∀ scope after, (Pass.empty.run scope out).run after = (.ok out, after) := by
  have ends := Code.ends_iff (measure RewritingTask.rank).wf work_descends eval_work
  have settled := settled_useEmptiness t
  refine ⟨t.useEmptiness, ends (.node t), rfl, settled, fun scope after => ?_⟩
  show (Except.ok t.useEmptiness.useEmptiness, after) = _
  rw [useEmptiness_eq_self_iff.mpr settled]

end TagCompiler.Emptiness
