import TagCompiler.Node.Basic
/-!
# The nodes of a tree

Preorder lists the root and then the nodes of its subtrees, and what is said about it here is mostly
membership. The subtrees of a node are the statements of its bodies, and the others, which are
outside of its bodies.
-/

namespace TagCompiler.Node

theorem preorderAll_eq_flatMap (ns : List Node) : preorderAll ns = ns.flatMap preorder := by
  induction ns with
  | nil => rfl
  | cons n ns ih => rw [preorderAll, ih, List.flatMap_cons]

theorem preorder_eq_cons (n : Node) : n.preorder = n :: n.subtrees.flatMap preorder := by
  cases n with
  | parameter name value => cases value <;> simp [preorder, subtrees]
  | _ => simp [preorder, subtrees, children, preorderAll_eq_flatMap]

theorem mem_preorderAll {k : Node} {ns : List Node} :
    k ∈ preorderAll ns ↔ ∃ n ∈ ns, k ∈ n.preorder := by
  rw [preorderAll_eq_flatMap, List.mem_flatMap]

theorem mem_preorder {k n : Node} : k ∈ n.preorder ↔ k = n ∨ ∃ m ∈ n.subtrees, k ∈ m.preorder := by
  rw [preorder_eq_cons, List.mem_cons, List.mem_flatMap]

theorem mem_preorder_self (n : Node) : n ∈ n.preorder := mem_preorder.mpr (.inl rfl)

theorem preorder_subset {m n : Node} (h : m ∈ n.subtrees) : m.preorder ⊆ n.preorder :=
  fun _ hk => mem_preorder.mpr (.inr ⟨m, h, hk⟩)

/-- What holds of all nodes of a tree holds of its root and of all nodes of its subtrees. -/
theorem forall_preorder_iff {P : Node → Prop} {n : Node} :
    (∀ k ∈ n.preorder, P k) ↔ P n ∧ ∀ m ∈ n.subtrees, ∀ k ∈ m.preorder, P k := by
  constructor
  · intro h
    exact ⟨h n n.mem_preorder_self, fun m hm k hk => h k (preorder_subset hm hk)⟩
  · rintro ⟨own, below⟩ k hk
    rcases mem_preorder.mp hk with rfl | ⟨m, hm, hk⟩
    · exact own
    · exact below m hm k hk

theorem sizeOf_lt_of_mem_subtrees {m n : Node} (h : m ∈ n.subtrees) : sizeOf m < sizeOf n := by
  have inList : ∀ ns : List Node, m ∈ ns → sizeOf m < sizeOf ns := fun ns => List.sizeOf_lt_of_mem
  cases n with
  | parameter name value =>
    obtain rfl : value = some m := by simpa [subtrees] using h
    simp +arith
  | _ => grind [subtrees, children]

theorem induction_on_subtrees {P : Node → Prop} (step : ∀ n, (∀ k ∈ n.subtrees, P k) → P n)
    (n : Node) : P n :=
  step n fun k _ => induction_on_subtrees step k
termination_by sizeOf n
decreasing_by exact sizeOf_lt_of_mem_subtrees (by assumption)

/-- The nodes of a node of a tree are nodes of the tree. -/
theorem preorder_trans {k n : Node} (h : k ∈ n.preorder) : k.preorder ⊆ n.preorder := by
  induction n using induction_on_subtrees with
  | step n ih =>
    rcases mem_preorder.mp h with rfl | ⟨m, below, hk⟩
    · exact List.Subset.refl _
    · exact List.Subset.trans (ih m below hk) (preorder_subset below)

theorem sizeOf_le_of_mem_preorder {k n : Node} (h : k ∈ n.preorder) : sizeOf k ≤ sizeOf n := by
  induction n using induction_on_subtrees with
  | step n ih =>
    rcases mem_preorder.mp h with rfl | ⟨m, below, hk⟩
    · exact Nat.le_refl _
    · exact Nat.le_trans (ih m below hk) (Nat.le_of_lt (sizeOf_lt_of_mem_subtrees below))

/-! ### Statements and other subtrees -/

/-- The subtrees of a node that are not statements of its bodies. -/
def outside : Node → List Node
  | .list _ => []
  | .call _ p _ | .macroDef _ p _ _ => [p]
  | .branch c _ _ => [c]
  | .loop _ _ v _ => [v]
  | n => n.subtrees

/-- The statements of the bodies of a node. -/
def elements : Node → List Node
  | .call _ _ cs | .macroDef _ _ cs _ | .loop _ _ _ cs | .list cs => cs
  | .branch _ ys ns => ys ++ ns
  | _ => []

theorem subtrees_eq_append (n : Node) : n.subtrees = n.outside ++ n.elements := by
  cases n <;> simp [outside, elements, subtrees, children]

theorem mem_subtrees_of_mem_outside {m n : Node} (h : m ∈ n.outside) : m ∈ n.subtrees := by
  rw [subtrees_eq_append]
  exact List.mem_append_left _ h

theorem mem_subtrees_of_mem_elements {m n : Node} (h : m ∈ n.elements) : m ∈ n.subtrees := by
  rw [subtrees_eq_append]
  exact List.mem_append_right _ h

end TagCompiler.Node
