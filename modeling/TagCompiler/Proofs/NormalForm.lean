import TagCompiler.Proofs.StatementReads
import TagCompiler.Proofs.Subtrees
import TagCompiler.Proofs.TrackedStatements
/-!
# The normal form of trees that were read

The grammar says how a tree is put together. This module says what holds at each of its nodes, so
that a pass over trees may rely on it wherever it stands: which kinds of nodes a body has, where the
symbols of a chain are, what stands in a parameter list. Both are true of every tree that `parse`
returns.
-/

namespace TagCompiler.Grammar

open Template

/-! ### The shape of a node -/

/-- The kinds of nodes that a body is made of. -/
def isStatementKind : Node → Bool
  | .text _ | .output _ | .yield | .assign .. | .branch .. | .loop .. | .call .. | .macroDef .. => true
  | _ => false

/-- The bodies that a node holds. -/
def bodies : Node → List (List Node)
  | .list body | .call _ _ body | .macroDef _ _ body _ | .loop _ _ _ body => [body]
  | .branch _ yes no => [yes, no]
  | _ => []

structure BodyShape (body : List Node) : Prop where
  kinds : ∀ n ∈ body, isStatementKind n = true
  noEmptyText : Node.text "" ∉ body
  apart : body.IsChain Apart

/-- A chain of at least two members with one of the symbols between each two of them. -/
structure Alternates (sign : String → Node) (symbols : List String) (chain : List Node) : Prop where
  odd_length : chain.length % 2 = 1
  length_le : 3 ≤ chain.length
  symbol : ∀ i n, chain[i]? = some n → i % 2 = 1 → ∃ s ∈ symbols, n = sign s
  member : ∀ i n, chain[i]? = some n → i % 2 = 0 → ∀ s, n ≠ sign s

/-- The subtrees of a node without the target of an assignment and the parameter list of a call, a
macro or a filter. -/
def operands : Node → List Node
  | .call _ _ body | .macroDef _ _ body _ => body
  | .assign _ value _ => [value]
  | .filter _ subject _ => [subject]
  | n => n.subtrees

/-- What a node has to be where it stands for a value. There a parameter list is a map. -/
def ValueShape : Node → Prop
  | .var path => ∀ root ∈ path.head?, root ∉ reserved
  | .parameters entries => ∀ e ∈ entries, ∃ key value, e = .named key value
  | _ => True

/-- What a node has to be wherever it stands. -/
def OwnShape : Node → Prop
  | .text s => s ≠ ""
  | .var path => ∃ root ∈ path.head?, isName root = true
  | .output inner => ∃ e, inner = [e] ∧ e ≠ .yield
  | .group inner => ∃ e, inner = [e]
  | .condition chain => Alternates .connective ["and", "or"] chain
  | .expression chain =>
    (∃ e, chain = [.operator "not", e]) ∨ Alternates .operator binaryOperators chain
  | .call _ params _ | .filter _ _ params =>
    ∃ args, params = .parameters args ∧ ∀ a ∈ args, ∃ name value, a = .parameter name (some value)
  | .macroDef _ params _ _ =>
    ∃ decls, params = .parameters decls ∧ ∀ d ∈ decls, ∃ name value, d = .parameter (some name) value
  | .assign target _ _ => ∃ x, target = .var [x]
  | .parameters entries => ∀ e ∈ entries, e.isParameter = true
  | _ => True

structure WellShaped (n : Node) : Prop where
  own : OwnShape n
  bodies : ∀ body ∈ bodies n, BodyShape body
  operands : ∀ m ∈ operands n, ValueShape m

/-! ### From the grammar to the nodes -/

/-- A tree that may stand for a value, all of whose nodes are well shaped. -/
structure Shaped (n : Node) : Prop where
  value : ValueShape n
  nodes : ∀ m ∈ n.preorder, WellShaped m

theorem operands_subset (n : Node) : operands n ⊆ n.subtrees := by
  cases n <;> simp [operands, Node.subtrees]

/-- A tree is shaped if its root is and if all its subtrees are, whose parameter lists need not be
maps. -/
theorem Shaped.intro {n : Node} (value : ValueShape n) (own : OwnShape n)
    (inBodies : ∀ body ∈ bodies n, BodyShape body) (inOperands : ∀ m ∈ operands n, Shaped m)
    (others : ∀ m ∈ n.subtrees, m ∈ operands n ∨ ∀ k ∈ m.preorder, WellShaped k) : Shaped n := by
  refine ⟨value, fun k hk => ?_⟩
  rcases Node.mem_preorder.mp hk with rfl | ⟨m, hm, hk⟩
  · exact ⟨own, inBodies, fun m hm => (inOperands m hm).value⟩
  · rcases others m hm with operand | nodes
    · exact (inOperands m operand).nodes k hk
    · exact nodes k hk

theorem shaped_of_children {n : Node} (value : ValueShape n) (own : OwnShape n)
    (noBody : bodies n = []) (all : operands n = n.subtrees) (below : ∀ m ∈ n.subtrees, Shaped m) :
    Shaped n := by
  refine .intro value own (by simp [noBody]) (all ▸ below) fun m hm => .inl ?_
  rwa [all]

theorem shaped_leaf {n : Node} (value : ValueShape n) (own : OwnShape n) (noBody : bodies n = [])
    (noSubtree : n.subtrees = []) : Shaped n := by
  have noOperand : operands n = [] := List.subset_nil.mp (noSubtree ▸ operands_subset n)
  exact shaped_of_children value own noBody (by rw [noOperand, noSubtree]) (by simp [noSubtree])

theorem shaped_parameter {name : Option String} {v : Node} (h : Shaped v) :
    Shaped (.parameter name (some v)) :=
  shaped_of_children trivial trivial rfl rfl (by simpa [Node.subtrees] using h)

/-- The nodes of a parameter list that is not a map. -/
theorem parameters_nodes {ps : List Node} (all : ∀ p ∈ ps, Shaped p)
    (params : ∀ p ∈ ps, p.isParameter = true) :
    ∀ k ∈ (Node.parameters ps).preorder, WellShaped k := by
  intro k hk
  rcases Node.mem_preorder.mp hk with rfl | ⟨m, hm, hk⟩
  · exact ⟨params, by simp [bodies], fun m hm => (all m hm).value⟩
  · exact (all m hm).nodes k hk

theorem arguments_nodes {args : List Node}
    (h : ∀ a ∈ args, Shaped a ∧ ∃ name value, a = .parameter name (some value)) :
    ∀ k ∈ (Node.parameters args).preorder, WellShaped k := by
  refine parameters_nodes (fun a ha => (h a ha).1) fun a ha => ?_
  obtain ⟨name, value, rfl⟩ := (h a ha).2
  rfl

/-! ### Chains -/

/-- What follows the first member of a chain. -/
inductive Separated (sign : String → Node) (symbols : List String) : List Node → Prop
  | nil : Separated sign symbols []
  | cons {s : String} {n : Node} {more : List Node} : s ∈ symbols → (∀ t, n ≠ sign t) →
      Separated sign symbols more → Separated sign symbols (sign s :: n :: more)

theorem Separated.alternates {sign : String → Node} {symbols : List String} {first : Node}
    {more : List Node} (h : Separated sign symbols more) (hf : ∀ s, first ≠ sign s)
    (nonempty : more ≠ []) : Alternates sign symbols (first :: more) := by
  have even : more.length % 2 = 0 := by
    clear nonempty
    induction h with
    | nil => rfl
    | cons _ _ _ ih =>
      simp only [List.length_cons]
      omega
  have positive : 0 < more.length := List.length_pos_iff.mpr nonempty
  have places : ∀ i n, (first :: more)[i]? = some n →
      (i % 2 = 1 → ∃ s ∈ symbols, n = sign s) ∧ (i % 2 = 0 → ∀ s, n ≠ sign s) := by
    clear nonempty even positive
    induction h generalizing first with
    | nil =>
      intro i n hn
      cases i with
      | zero =>
        cases hn
        exact ⟨by simp, fun _ => hf⟩
      | succ i => simp at hn
    | @cons s m more hs hm _ ih =>
      intro i n hn
      match i with
      | 0 =>
        cases hn
        exact ⟨by simp, fun _ => hf⟩
      | 1 =>
        cases hn
        exact ⟨fun _ => ⟨s, hs, rfl⟩, by simp⟩
      | i + 2 => simpa [Nat.add_mod] using ih hm i n hn
  refine ⟨by simp [Nat.add_mod, even], ?_, fun i n hn => (places i n hn).1,
    fun i n hn => (places i n hn).2⟩
  simp only [List.length_cons]
  omega

/-- A sign of a chain. -/
def isSign : Node → Bool
  | .operator _ | .connective _ => true
  | _ => false

theorem not_isSign_of_isOperand {n : Node} (h : IsOperand .parsed n) : isSign n = false := by
  rcases h with h | (h | h)
  · rfl
  · rcases h with (h | h | h | h | h | h | h)
    · cases h <;> rfl
    all_goals rfl
  · rfl

theorem not_isSign_of_isExpression {n : Node} (h : IsExpression .parsed n) : isSign n = false := by
  rcases h with h | h
  · exact not_isSign_of_isOperand h
  · rfl

theorem ne_connective {n : Node} (h : isSign n = false) (s : String) : n ≠ .connective s := by
  rintro rfl
  cases h

theorem ne_operator {n : Node} (h : isSign n = false) (s : String) : n ≠ .operator s := by
  rintro rfl
  cases h

theorem IsConnected.separated {more : List Node} (h : IsConnected .parsed more) :
    Separated .connective ["and", "or"] more := by
  cases h with
  | nil => exact .nil
  | cons hs hn hm =>
    refine .cons ?_ (ne_connective (not_isSign_of_isExpression hn)) hm.separated
    simpa using hs

theorem IsOperated.separated {more : List Node} (h : IsOperated .parsed more) :
    Separated .operator binaryOperators more := by
  cases h with
  | nil => exact .nil
  | cons hs hn hm =>
    exact .cons hs (ne_operator (not_isSign_of_isOperand hn)) hm.separated

/-! ### Expressions -/

mutual

theorem IsCondition.shaped : {n : Node} → IsCondition .parsed n → Shaped n
  | _, .expression h => h.shaped
  | _, .chain hn hm nonempty => by
    refine shaped_of_children trivial ?_ rfl rfl (List.forall_mem_cons.mpr ⟨hn.shaped, hm.shaped⟩)
    exact hm.separated.alternates (ne_connective (not_isSign_of_isExpression hn)) nonempty

theorem IsConnected.shaped : {more : List Node} → IsConnected .parsed more → ∀ m ∈ more, Shaped m
  | _, .nil => by simp
  | _, .cons _ hn hm => by
    refine List.forall_mem_cons.mpr ⟨shaped_leaf trivial trivial rfl rfl, ?_⟩
    exact List.forall_mem_cons.mpr ⟨hn.shaped, hm.shaped⟩

theorem IsExpression.shaped : {n : Node} → IsExpression .parsed n → Shaped n
  | _, .operand h => h.shaped
  | _, .chain hn hm nonempty => by
    refine shaped_of_children trivial (.inr ?_) rfl rfl
      (List.forall_mem_cons.mpr ⟨hn.shaped, hm.shaped⟩)
    exact hm.separated.alternates (ne_operator (not_isSign_of_isOperand hn)) nonempty

theorem IsOperated.shaped : {more : List Node} → IsOperated .parsed more → ∀ m ∈ more, Shaped m
  | _, .nil => by simp
  | _, .cons _ hn hm => by
    refine List.forall_mem_cons.mpr ⟨shaped_leaf trivial trivial rfl rfl, ?_⟩
    exact List.forall_mem_cons.mpr ⟨hn.shaped, hm.shaped⟩

theorem IsOperand.shaped : {n : Node} → IsOperand .parsed n → Shaped n
  | _, .negated h => by
    refine shaped_of_children trivial (.inl ⟨_, rfl⟩) rfl rfl ?_
    refine List.forall_mem_cons.mpr ⟨shaped_leaf trivial trivial rfl rfl, ?_⟩
    exact List.forall_mem_singleton.mpr h.shaped
  | _, .term h => h.shaped

theorem IsTerm.shaped : {n : Node} → IsTerm .parsed n → Shaped n
  | _, .primary h => h.shaped
  | _, .filtered _ hs ha => by
    have args := ha.shaped
    refine .intro trivial ⟨_, rfl, fun a h => (args a h).2⟩ (by simp [bodies]) ?_ ?_
    · exact List.forall_mem_singleton.mpr hs.shaped
    · refine List.forall_mem_cons.mpr ⟨.inl (by simp [operands]), ?_⟩
      exact List.forall_mem_singleton.mpr (.inr (arguments_nodes args))

theorem IsPrimary.shaped : {n : Node} → IsPrimary .parsed n → Shaped n
  | _, .literal h => by cases h <;> exact shaped_leaf trivial trivial rfl rfl
  | _, .var h => by
    obtain ⟨root, more, rfl, hn, free⟩ := h
    exact shaped_leaf (by simpa [ValueShape] using free) ⟨root, rfl, hn⟩ rfl rfl
  | _, .yield _ => shaped_leaf trivial trivial rfl rfl
  | _, .call _ ha => by
    have args := ha.shaped
    refine .intro trivial ⟨_, rfl, fun a h => (args a h).2⟩ ?_ (by simp [operands]) ?_
    · exact List.forall_mem_singleton.mpr ⟨by simp, by simp, .nil⟩
    · exact List.forall_mem_singleton.mpr (.inr (arguments_nodes args))
  | _, .group h => by
    exact shaped_of_children trivial ⟨_, rfl⟩ rfl rfl (List.forall_mem_singleton.mpr h.shaped)
  | _, .array h => shaped_of_children trivial trivial rfl rfl h.shaped
  | _, .map h => by
    have entries := h.shaped
    refine shaped_of_children (fun e h => (entries e h).2) ?_ rfl rfl fun e h => (entries e h).1
    intro e h
    obtain ⟨key, value, rfl⟩ := (entries e h).2
    rfl

theorem IsArguments.shaped : {args : List Node} → IsArguments .parsed args →
    ∀ a ∈ args, Shaped a ∧ ∃ name value, a = .parameter name (some value)
  | _, .nil => by simp
  | _, .positional hn hm => by
    exact List.forall_mem_cons.mpr ⟨⟨shaped_parameter hn.shaped, _, _, rfl⟩, hm.shaped⟩
  | _, .named _ hn hm => by
    exact List.forall_mem_cons.mpr ⟨⟨shaped_parameter hn.shaped, _, _, rfl⟩, hm.shaped⟩

theorem IsItems.shaped : {items : List Node} → IsItems .parsed items → ∀ n ∈ items, Shaped n
  | _, .nil => by simp
  | _, .cons hn hm => List.forall_mem_cons.mpr ⟨hn.shaped, hm.shaped⟩

theorem IsEntries.shaped : {entries : List Node} → IsEntries .parsed entries →
    ∀ e ∈ entries, Shaped e ∧ ∃ key value, e = .named key value
  | _, .nil => by simp
  | _, .cons hn hm => by
    exact List.forall_mem_cons.mpr ⟨⟨shaped_parameter hn.shaped, _, _, rfl⟩, hm.shaped⟩

end

/-! ### Statements -/

theorem IsDeclarations.shaped {decls : List Node} (h : IsDeclarations .parsed decls) :
    ∀ d ∈ decls, Shaped d ∧ ∃ name value, d = .parameter (some name) value := by
  induction h with
  | nil => simp
  | bare _ _ ih =>
    exact List.forall_mem_cons.mpr ⟨⟨shaped_leaf trivial trivial rfl rfl, _, _, rfl⟩, ih⟩
  | defaulted _ hn _ ih =>
    exact List.forall_mem_cons.mpr ⟨⟨shaped_parameter hn.shaped, _, _, rfl⟩, ih⟩

theorem declarations_nodes {decls : List Node} (h : IsDeclarations .parsed decls) :
    ∀ k ∈ (Node.parameters decls).preorder, WellShaped k := by
  refine parameters_nodes (fun d hd => (h.shaped d hd).1) fun d hd => ?_
  obtain ⟨name, value, rfl⟩ := (h.shaped d hd).2
  rfl

theorem IsBody.bodyShape {body : List Node} (h : IsBody .parsed body) : BodyShape body := by
  obtain ⟨all, apart⟩ := isBody_iff.mp h
  refine ⟨fun n hn => ?_, fun empty => ?_, apart⟩
  · cases all n hn <;> rfl
  · cases all _ empty with
    | text nonempty => exact nonempty rfl

/-- The target of an assignment need not be a value, so only its own node counts. -/
theorem target_nodes {x : String} (h : isName x = true) :
    ∀ k ∈ (Node.var [x]).preorder, WellShaped k := by
  intro k hk
  rcases Node.mem_preorder.mp hk with rfl | ⟨m, hm, -⟩
  · exact ⟨⟨x, rfl, h⟩, by simp [bodies], by simp [operands, Node.subtrees, Node.children]⟩
  · simp [Node.subtrees, Node.children] at hm

theorem shaped_assign {x : String} {value : Node} {op : AssignOp} (hx : isName x = true)
    (hv : Shaped value) : Shaped (.assign (.var [x]) value op) := by
  refine .intro trivial ⟨x, rfl⟩ (by simp [bodies]) (List.forall_mem_singleton.mpr hv) ?_
  refine List.forall_mem_cons.mpr ⟨.inr (target_nodes hx), ?_⟩
  exact List.forall_mem_singleton.mpr (.inl (by simp [operands]))

theorem shaped_list {body : List Node} (shape : BodyShape body) (all : ∀ n ∈ body, Shaped n) :
    Shaped (.list body) :=
  .intro trivial trivial (List.forall_mem_singleton.mpr shape) all fun _ h => .inl h

mutual

theorem IsStatement.shaped : {n : Node} → IsStatement .parsed n → Shaped n
  | _, .text h => shaped_leaf trivial h rfl rfl
  | _, .output h other =>
    shaped_of_children trivial ⟨_, rfl, other⟩ rfl rfl (List.forall_mem_singleton.mpr h.shaped)
  | _, .yield => shaped_leaf trivial trivial rfl rfl
  | _, .set hx h => shaped_assign hx h.shaped
  | _, .blockSet hx h => shaped_assign hx (shaped_list h.bodyShape h.shaped)
  | _, .branch hc hyes hno => by
    have below := List.forall_mem_cons.mpr ⟨hc.shaped, List.forall_mem_append.mpr
      ⟨hyes.shaped, hno.shaped⟩⟩
    refine .intro trivial trivial ?_ below fun _ h => .inl h
    exact List.forall_mem_cons.mpr ⟨hyes.bodyShape, List.forall_mem_singleton.mpr hno.bodyShape⟩
  | _, .loop _ _ hs hb =>
    .intro trivial trivial (List.forall_mem_singleton.mpr hb.bodyShape)
      (List.forall_mem_cons.mpr ⟨hs.shaped, hb.shaped⟩) fun _ h => .inl h
  | _, .call _ ha hb => by
    have args := ha.shaped
    refine .intro trivial ⟨_, rfl, fun a h => (args a h).2⟩
      (List.forall_mem_singleton.mpr hb.bodyShape) hb.shaped ?_
    exact List.forall_mem_cons.mpr ⟨.inr (arguments_nodes args), fun _ h => .inl h⟩
  | _, .macroDef _ hd hb => by
    refine .intro trivial ⟨_, rfl, fun d h => (hd.shaped d h).2⟩
      (List.forall_mem_singleton.mpr hb.bodyShape) hb.shaped ?_
    exact List.forall_mem_cons.mpr ⟨.inr (declarations_nodes hd), fun _ h => .inl h⟩

theorem IsBody.shaped : {body : List Node} → IsBody .parsed body → ∀ n ∈ body, Shaped n
  | _, .nil => by simp
  | _, .cons hn _ hm => List.forall_mem_cons.mpr ⟨hn.shaped, hm.shaped⟩

end

/-! ### Templates -/

/-- The documentation of a macro has no part in its shape. -/
theorem Shaped.of_undocumented {n : Node} (h : Shaped (undocumented n)) : Shaped n := by
  cases n with
  | macroDef name params body doc =>
    have root := h.nodes _ (Node.mem_preorder.mpr (.inl rfl))
    refine ⟨trivial, fun k hk => ?_⟩
    rcases Node.mem_preorder.mp hk with rfl | below
    · exact ⟨root.own, root.bodies, root.operands⟩
    · exact h.nodes k (Node.mem_preorder.mpr (.inr below))
  | _ => exact h

theorem BodyShape.of_undocumented {ns : List Node} (h : BodyShape (ns.map undocumented)) :
    BodyShape ns := by
  refine ⟨fun n hn => ?_, fun empty => ?_, ?_⟩
  · have kind := h.kinds _ (List.mem_map_of_mem hn)
    cases n <;> exact kind
  · exact h.noEmptyText (List.mem_map_of_mem (f := undocumented) empty)
  · refine ((List.isChain_map _).mp h.apart).imp fun m n apart => ?_
    rw [Apart, ← isText_undocumented m, ← isText_undocumented n]
    exact apart

theorem IsTemplate.shaped {ns : List Node} (h : IsTemplate .parsed ns) : Shaped (ofElements ns) := by
  have all : ∀ n ∈ ns, Shaped n := fun n hn =>
    .of_undocumented (IsBody.shaped h _ (List.mem_map_of_mem hn))
  unfold ofElements
  split
  · rename_i name params body doc only
    have member : Node.macroDef name params body doc ∈ ns.filter (!·.isBlankText) := by
      rw [only]
      exact List.mem_singleton.mpr rfl
    exact all _ (List.mem_filter.mp member).1
  · exact shaped_list (.of_undocumented (IsBody.bodyShape h)) all

/-- Every tree that is read is the template of some elements of the grammar, and each of its nodes
has the shape that passes over trees rely on. -/
theorem normalForm_of_parse {source : String} {t : Node} (h : parse source = .ok t) :
    (∃ ns, IsTemplate .parsed ns ∧ t = ofElements ns) ∧ ∀ n ∈ t.preorder, WellShaped n := by
  have reads := elementsFrom_reads [] [] none false source.toList .nil
  rw [parse_eq] at h
  split at h
  · rename_i ns hns
    cases h
    rw [hns] at reads
    exact ⟨⟨ns, reads.2, rfl⟩, reads.2.shaped.nodes⟩
  · cases h

/-- Text around a comment is one text, and only the target of an assignment may be called `true`. -/
theorem normalForm_of_joined_text :
    parse "a\x7b# c #\x7db\x7b% set true = not x %\x7d" = .ok (.list [.text "ab",
      .assign (.var ["true"]) (.expression [.operator "not", .var ["x"]]) .set]) ∧
    ∀ n ∈ (Node.list [.text "ab", .assign (.var ["true"])
      (.expression [.operator "not", .var ["x"]]) .set]).preorder, WellShaped n := by
  have tree : parse "a\x7b# c #\x7db\x7b% set true = not x %\x7d" = .ok (.list [.text "ab",
      .assign (.var ["true"]) (.expression [.operator "not", .var ["x"]]) .set]) := by
    rw [Template.parse_eq]
    cbv
  exact ⟨tree, (normalForm_of_parse tree).2⟩

end TagCompiler.Grammar
