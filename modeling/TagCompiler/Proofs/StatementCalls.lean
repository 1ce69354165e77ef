import TagCompiler.Pipeline.Compiler
import TagCompiler.Proofs.InlinedCode
import TagCompiler.Proofs.NormalForm
import TagCompiler.Proofs.TreeNodes
/-!
# Calls that stand as statements

A call can be expanded where it is an element of a body, or all of an output that is one. This
module says which macros a tree calls in such places, what the parameters of a macro are set to
before its code, and what becomes of these places when the names in that code are substituted.
-/

namespace TagCompiler

open Grammar Inlining

namespace Node

/-- The macro that is called, if the statement is nothing but a call. -/
def statementCallee? : Node → Option String
  | .call name _ _ => some name
  | .output [.call name _ _] => some name
  | _ => none

/-- The macros that a tree calls as statements, at any depth. -/
def statementCallees (n : Node) : List String :=
  n.preorder.flatMap fun k => (bodies k).flatten.filterMap statementCallee?

/-- The macros that are defined in a tree. -/
def definedMacros (n : Node) : List String := n.preorder.filterMap macroName?

/-- In the tree `t`, a definition of the macro `m` has somewhere a call of `c`, which is a macro of
`t` too. -/
def Invokes (t : Node) (m c : String) : Prop :=
  c ∈ t.definedMacros ∧ ∃ d ∈ t.preorder, d.macroName? = some m ∧ c ∈ Meaning.callees d

/-! ### Places of calls -/

theorem elements_eq (n : Node) : n.elements = (bodies n).flatten := by
  cases n <;> simp [elements, bodies]

theorem mem_subtrees_of_mem_bodies {n k : Node} (h : k ∈ (bodies n).flatten) : k ∈ n.subtrees :=
  mem_subtrees_of_mem_elements (n.elements_eq ▸ h)

theorem mem_statementCallees {n : Node} {c : String} : c ∈ n.statementCallees ↔
    (∃ k ∈ (bodies n).flatten, k.statementCallee? = some c) ∨
      ∃ m ∈ n.subtrees, c ∈ m.statementCallees := by
  unfold statementCallees
  simp only [List.mem_flatMap, List.mem_filterMap]
  constructor
  · rintro ⟨k, hk, called⟩
    rcases mem_preorder.mp hk with rfl | ⟨m, hm, hk⟩
    · exact .inl called
    · exact .inr ⟨m, hm, k, hk, called⟩
  · rintro (called | ⟨m, hm, k, hk, called⟩)
    · exact ⟨n, n.mem_preorder_self, called⟩
    · exact ⟨k, preorder_subset hm hk, called⟩

theorem mem_statementCallees_list {ns : List Node} {c : String} :
    c ∈ (Node.list ns).statementCallees ↔
      ∃ n ∈ ns, n.statementCallee? = some c ∨ c ∈ n.statementCallees := by
  rw [mem_statementCallees]
  simp only [bodies, List.flatten_cons, List.flatten_nil, List.append_nil, subtrees, children,
    and_or_left, exists_or]

theorem mem_statementCallees_singleton {n : Node} {c : String} :
    c ∈ (Node.list [n]).statementCallees ↔ n.statementCallee? = some c ∨ c ∈ n.statementCallees := by
  simp [mem_statementCallees_list]

theorem statementCallees_subset {k n : Node} (h : k ∈ n.preorder) :
    k.statementCallees ⊆ n.statementCallees := by
  intro c hc
  obtain ⟨j, hj, called⟩ := List.mem_flatMap.mp hc
  exact List.mem_flatMap.mpr ⟨j, preorder_trans h hj, called⟩

theorem mem_callees_of_statementCallee? {n : Node} {c : String} (h : n.statementCallee? = some c) :
    c ∈ Meaning.callees n := by
  unfold statementCallee? at h
  split at h
  · cases h
    exact List.mem_filterMap.mpr ⟨_, mem_preorder_self _, rfl⟩
  · cases h
    exact List.mem_filterMap.mpr
      ⟨_, preorder_subset (List.mem_singleton_self _) (mem_preorder_self _), rfl⟩
  · cases h

theorem mem_callees_of_statementCallees {n : Node} {c : String} (h : c ∈ n.statementCallees) :
    c ∈ Meaning.callees n := by
  obtain ⟨k, hk, called⟩ := List.mem_flatMap.mp h
  obtain ⟨e, he, called⟩ := List.mem_filterMap.mp called
  obtain ⟨j, hj, call⟩ := List.mem_filterMap.mp (mem_callees_of_statementCallee? called)
  have inside := preorder_subset (mem_subtrees_of_mem_bodies he) hj
  exact List.mem_filterMap.mpr ⟨j, preorder_trans hk inside, call⟩

/-- In an expression there is no body, so there is no statement. -/
theorem statementCallees_of_isExpressionTree {n : Node} (h : IsExpressionTree n) :
    n.statementCallees = [] := by
  refine List.eq_nil_iff_forall_not_mem.mpr fun c hc => ?_
  obtain ⟨k, hk, called⟩ := List.mem_flatMap.mp hc
  have part := h k hk
  cases k <;> simp_all [bodies, isExpressionPart]

end Node

namespace Inlining

/-! ### Statements that stay -/

theorem extract?_of_absent {lib : Library} {c : String} (h : lib.find? c = none) :
    lib.extract? c = none := by
  unfold Library.extract?
  split
  · rename_i found
    cases found.symm.trans h
  · rfl

theorem statement_of_absent {lib : Library} {n : Node}
    (absent : ∀ c, n.statementCallee? = some c → lib.find? c = none) :
    statement lib n = node lib n := by
  rw [statement.eq_def]
  split
  · rw [extract?_of_absent (absent _ rfl)]
  · rw [extract?_of_absent (absent _ rfl)]
  · rfl

/-! ### Settings -/

/-- The value that the parameter `x` is set to before an expansion: an inlined argument with this name
or without one, the default, or null. -/
inductive Setting (lib : Library) (d : Definition) (block : List Node) (arguments : Node)
    (ps : List Node) (x : String) : Node → Prop
  | passed {name : Option String} {w v : Node} (small : sizeOf w < sizeOf arguments)
      (given : .parameter name (some w) ∈ arguments.parameterList)
      (named : name = some x ∨ name = none) (inlined : node lib w = .ok v) :
      Setting lib d block arguments ps x v
  | default {w : Node} (declared : .parameter (some x) (some w) ∈ ps) :
      Setting lib d block arguments ps x (substitute d block w)
  | null : Setting lib d block arguments ps x .null

theorem preorder_of_parameterList {p : Node} : ∀ {n : Node}, p ∈ n.parameterList → p ∈ n.preorder
  | .parameters _, h => Node.preorder_subset h p.mem_preorder_self
  | .call _ q _, h => Node.preorder_subset List.mem_cons_self (preorder_of_parameterList (n := q) h)
  | .macroDef _ q _ _, h =>
    Node.preorder_subset List.mem_cons_self (preorder_of_parameterList (n := q) h)
  | .filter _ _ q, h => Node.preorder_subset (by simp [Node.subtrees])
      (preorder_of_parameterList (n := q) h)

theorem preorder_of_given {arguments w : Node} {name : Option String}
    (h : .parameter name (some w) ∈ arguments.parameterList) : w ∈ arguments.preorder :=
  Node.preorder_trans (preorder_of_parameterList h)
    (Node.preorder_subset (by simp [Node.subtrees]) (Node.mem_preorder_self _))

theorem isNamed_of_parameterNamed? {name : String} {p : Node} :
    ∀ {n : Node}, n.parameterNamed? name = some p → p.isNamed name = true
  | .parameters _, h => List.find?_some h
  | .call _ q _, h => isNamed_of_parameterNamed? (n := q) h
  | .macroDef _ q _ _, h => isNamed_of_parameterNamed? (n := q) h

/-- The argument for a parameter has its name or none. -/
theorem name_of_passed? {arguments : Node} {x : String} {place : Nat} {name : Option String}
    {value : Option Node} (h : passed? arguments x place = some (.parameter name value)) :
    name = some x ∨ name = none := by
  unfold passed? at h
  rcases Option.or_eq_some_iff.mp h with byName | ⟨-, byPlace⟩
  · have named := isNamed_of_parameterNamed? byName
    cases name with
    | none => exact .inr rfl
    | some y => exact .inl (congrArg some (beq_iff_eq.mp named))
  · have positional := (List.mem_filter.mp (List.mem_of_getElem? byPlace)).2
    cases name with
    | none => exact .inr rfl
    | some y => cases positional

theorem exists_of_value? {arguments : Node} {x : String} {place : Nat}
    {v : { v : Node // sizeOf v < sizeOf arguments }} (h : value? arguments x place = some v) :
    ∃ name, .parameter name (some v.1) ∈ arguments.parameterList ∧
      (name = some x ∨ name = none) := by
  have value := Meaning.value?_eq arguments x place
  rw [h] at value
  obtain ⟨p, passed, hp⟩ := Option.bind_eq_some_iff.mp value.symm
  cases p with
  | parameter name value =>
    cases hp
    exact ⟨name, mem_parameterList_of_passed? passed, name_of_passed? passed⟩
  | _ => cases hp

theorem Setting.mono {lib : Library} {d : Definition} {block : List Node} {arguments : Node}
    {ps qs : List Node} {x : String} {v : Node} (h : Setting lib d block arguments ps x v)
    (sub : ps ⊆ qs) : Setting lib d block arguments qs x v := by
  cases h with
  | passed small given named inlined => exact .passed small given named inlined
  | default declared => exact .default (sub declared)
  | null => exact .null

theorem mem_of_bindings {lib : Library} {d : Definition} {block : List Node} {arguments : Node}
    {ps ss : List Node} {place : Nat} (h : bindings lib d block arguments place ps = .ok ss) :
    ∀ s ∈ ss, ∃ x v, s = .assign (.var [boundName d.name x]) v .set ∧
      Setting lib d block arguments ps x v := by
  induction ps generalizing place ss with
  | nil =>
    rw [bindings] at h
    cases h
    simp
  | cons p ps ih =>
    have later : ∀ {place ss}, bindings lib d block arguments place ps = .ok ss → ∀ s ∈ ss,
        ∃ x v, s = .assign (.var [boundName d.name x]) v .set ∧
          Setting lib d block arguments (p :: ps) x v := by
      intro place ss h s hs
      obtain ⟨x, v, rfl, setting⟩ := ih h s hs
      exact ⟨x, v, rfl, setting.mono (List.subset_cons_self p ps)⟩
    rw [bindings.eq_def] at h
    split at h
    · cases ‹_ :: _ = []›
    · rename_i x default qs heq
      obtain ⟨rfl, rfl⟩ := List.cons.inj heq
      have first : ∀ {v : Node},
          Setting lib d block arguments (.parameter (some x) default :: ps) x v →
          (bindings lib d block arguments (place + 1) ps >>= fun more =>
            .ok (.assign (.var [boundName d.name x]) v .set :: more)) = .ok ss →
          ∀ s ∈ ss, ∃ x' v, s = .assign (.var [boundName d.name x']) v .set ∧
            Setting lib d block arguments (.parameter (some x) default :: ps) x' v := by
        intro v setting h
        obtain ⟨more, hmore, h⟩ := ok_of_bind h
        cases h
        exact List.forall_mem_cons.mpr ⟨⟨x, v, rfl, setting⟩, later hmore⟩
      dsimp only at h
      split at h
      · rename_i w small found
        obtain ⟨v, hv, h⟩ := ok_of_bind h
        obtain ⟨name, given, named⟩ := exists_of_value? found
        exact first (.passed small given named hv) h
      · exact first (.default List.mem_cons_self) h
      · exact first .null h
    · rename_i other qs notNamed heq
      obtain ⟨rfl, rfl⟩ := List.cons.inj heq
      exact later h

/-! ### Substitution -/

section Substitution

variable (d : Definition) (block : List Node)

theorem subtrees_substitute {n : Node} (other : n ≠ .yield) :
    (substitute d block n).subtrees = n.subtrees.map (substitute d block) := by
  have runAll := Meaning.Host.runAll_substitution (freshNames d) block
  have runBody := Meaning.Host.runBody_substitution (freshNames d) block
  cases n with
  | yield => exact absurd rfl other
  | parameter name value => cases value <;> rfl
  | parameters cs | array cs | condition cs | expression cs | group cs | output cs => exact runAll cs
  | call name p cs | macroDef name p cs doc | loop key x p cs =>
    exact congrArg (substitute d block p :: ·) (runBody cs)
  | branch c ys ns =>
    rw [Node.subtrees, List.map_cons, List.map_append]
    exact congrArg (substitute d block c :: ·) (congrArg₂ (· ++ ·) (runBody ys) (runBody ns))
  | list cs => exact runBody cs
  | data | literal | text | var | operator | connective | assign | filter => rfl

theorem bodies_substitute {n : Node} (other : n ≠ .yield) :
    bodies (substitute d block n) = (bodies n).map (List.map (substitute d block)) := by
  have runBody := Meaning.Host.runBody_substitution (freshNames d) block
  cases n with
  | yield => exact absurd rfl other
  | parameter name value => cases value <;> rfl
  | call name p cs | macroDef name p cs doc | loop key x p cs | list cs =>
    exact congrArg (fun b => [b]) (runBody cs)
  | branch c ys ns => exact congrArg₂ (fun a b => [a, b]) (runBody ys) (runBody ns)
  | _ => rfl

theorem macroName?_substitute (n : Node) : (substitute d block n).macroName? = n.macroName? := by
  cases n with
  | parameter name value => cases value <;> rfl
  | _ => rfl

theorem statementCallee?_substitute (n : Node) :
    (substitute d block n).statementCallee? = n.statementCallee? := by
  have several (a b : Node) (cs : List Node) :
      (Node.output (a :: b :: cs)).statementCallee? = none := by
    cases a <;> rfl
  have runAll := Meaning.Host.runAll_substitution (freshNames d) block
  cases n with
  | parameter name value => cases value <;> rfl
  | output cs =>
    show (Node.output (Id.run ((substitution (freshNames d) block).runAll cs))).statementCallee? = _
    rw [runAll]
    rcases cs with _ | ⟨a, _ | ⟨b, cs⟩⟩
    · rfl
    · cases a with
      | parameter name value => cases value <;> rfl
      | _ => rfl
    · rw [List.map_cons, List.map_cons, several, several]
  | _ => rfl

/-- The nodes of substituted code are substituted nodes of the code, and nodes of the block. -/
theorem mem_preorder_substitute {n k : Node} (h : k ∈ (substitute d block n).preorder) :
    (∃ j ∈ n.preorder, k = substitute d block j) ∨ ∃ b ∈ block, k ∈ b.preorder := by
  induction hs : sizeOf n using Nat.strongRecOn generalizing n with
  | ind size ih =>
    rcases Node.mem_preorder.mp h with rfl | ⟨m, hm, hk⟩
    · exact .inl ⟨n, n.mem_preorder_self, rfl⟩
    · by_cases filled : n = .yield
      · subst filled
        exact .inr ⟨m, hm, hk⟩
      · rw [subtrees_substitute d block filled] at hm
        obtain ⟨j, hj, rfl⟩ := List.mem_map.mp hm
        rcases ih _ (hs ▸ Node.sizeOf_lt_of_mem_subtrees hj) hk rfl with ⟨i, hi, rfl⟩ | inBlock
        · exact .inl ⟨i, Node.preorder_subset hj hi, rfl⟩
        · exact .inr inBlock

theorem statementCallees_substitute {n : Node} {c : String}
    (h : c ∈ (substitute d block n).statementCallees) :
    c ∈ n.statementCallees ∨ c ∈ (Node.list block).statementCallees := by
  obtain ⟨k, hk, inBody⟩ := List.mem_flatMap.mp h
  obtain ⟨e, he, called⟩ := List.mem_filterMap.mp inBody
  rcases mem_preorder_substitute d block hk with ⟨j, hj, rfl⟩ | ⟨b, hb, hk⟩
  · by_cases filled : j = .yield
    · subst filled
      have given : e ∈ block := List.append_nil block ▸ he
      exact .inr (Node.mem_statementCallees_list.mpr ⟨e, given, .inl called⟩)
    · rw [bodies_substitute d block filled, ← List.map_flatten] at he
      obtain ⟨i, hi, rfl⟩ := List.mem_map.mp he
      rw [statementCallee?_substitute] at called
      exact .inl (Node.statementCallees_subset hj
        (Node.mem_statementCallees.mpr (.inl ⟨i, hi, called⟩)))
  · have inside := Node.mem_statementCallees.mpr (.inl ⟨e, he, called⟩)
    exact .inr (Node.mem_statementCallees_list.mpr
      ⟨b, hb, .inr (Node.statementCallees_subset hk inside)⟩)

end Substitution

end Inlining
end TagCompiler
