import TagCompiler.Proofs.StatementReads
import TagCompiler.Proofs.Subtrees
import TagCompiler.Proofs.TrackedStatements
/-!
# The nodes of an expression and of a statement

An expression is made of expression nodes all the way down; a call in it has no block. A node of a
template is therefore a statement, the list that a block assignment sets, or a part of an
expression, and every macro definition in a template is a statement of the grammar.
-/

namespace TagCompiler.Grammar

open Template

/-! ### Expressions -/

/-- Whether a node can be part of an expression. -/
def isExpressionPart : Node → Bool
  | .literal .. | .var _ | .operator _ | .connective _ | .parameter .. | .parameters _ | .array _
  | .condition _ | .expression _ | .group _ | .filter .. | .yield => true
  | .call _ _ block => block.isEmpty
  | _ => false

/-- All nodes of the tree can be part of an expression. -/
def IsExpressionTree (n : Node) : Prop := ∀ k ∈ n.preorder, isExpressionPart k = true

theorem isExpressionTree_iff {n : Node} : IsExpressionTree n ↔
    isExpressionPart n = true ∧ ∀ m ∈ n.subtrees, IsExpressionTree m := Node.forall_preorder_iff

theorem isExpressionTree_leaf {n : Node} (own : isExpressionPart n = true)
    (noSubtree : n.subtrees = []) : IsExpressionTree n :=
  isExpressionTree_iff.mpr ⟨own, by simp [noSubtree]⟩

theorem isExpressionTree_chain {n : Node} {sign : Node} {more : List Node}
    (leaf : isExpressionPart sign = true ∧ sign.subtrees = []) (hn : IsExpressionTree n)
    (hm : ∀ m ∈ more, IsExpressionTree m) : ∀ m ∈ sign :: n :: more, IsExpressionTree m :=
  List.forall_mem_cons.mpr ⟨isExpressionTree_leaf leaf.1 leaf.2, List.forall_mem_cons.mpr ⟨hn, hm⟩⟩

theorem isExpressionTree_parameter {name : Option String} {v : Node} (h : IsExpressionTree v) :
    IsExpressionTree (.parameter name (some v)) :=
  isExpressionTree_iff.mpr ⟨rfl, by simpa [Node.subtrees] using h⟩

theorem isExpressionTree_parameters {ps : List Node} (h : ∀ p ∈ ps, IsExpressionTree p) :
    IsExpressionTree (.parameters ps) := isExpressionTree_iff.mpr ⟨rfl, h⟩

mutual

theorem IsCondition.isExpressionTree : {n : Node} → IsCondition .parsed n → IsExpressionTree n
  | _, .expression h => h.isExpressionTree
  | _, .chain hn hm _ => isExpressionTree_iff.mpr
      ⟨rfl, List.forall_mem_cons.mpr ⟨hn.isExpressionTree, hm.isExpressionTree⟩⟩

theorem IsConnected.isExpressionTree : {more : List Node} → IsConnected .parsed more →
    ∀ m ∈ more, IsExpressionTree m
  | _, .nil => by simp
  | _, .cons _ hn hm => isExpressionTree_chain ⟨rfl, rfl⟩ hn.isExpressionTree hm.isExpressionTree

theorem IsExpression.isExpressionTree : {n : Node} → IsExpression .parsed n → IsExpressionTree n
  | _, .operand h => h.isExpressionTree
  | _, .chain hn hm _ => isExpressionTree_iff.mpr
      ⟨rfl, List.forall_mem_cons.mpr ⟨hn.isExpressionTree, hm.isExpressionTree⟩⟩

theorem IsOperated.isExpressionTree : {more : List Node} → IsOperated .parsed more →
    ∀ m ∈ more, IsExpressionTree m
  | _, .nil => by simp
  | _, .cons _ hn hm => isExpressionTree_chain ⟨rfl, rfl⟩ hn.isExpressionTree hm.isExpressionTree

theorem IsOperand.isExpressionTree : {n : Node} → IsOperand .parsed n → IsExpressionTree n
  | _, .negated h => isExpressionTree_iff.mpr
      ⟨rfl, isExpressionTree_chain ⟨rfl, rfl⟩ h.isExpressionTree (by simp)⟩
  | _, .term h => h.isExpressionTree

theorem IsTerm.isExpressionTree : {n : Node} → IsTerm .parsed n → IsExpressionTree n
  | _, .primary h => h.isExpressionTree
  | _, .filtered _ hs ha => isExpressionTree_iff.mpr ⟨rfl, List.forall_mem_cons.mpr
      ⟨hs.isExpressionTree, List.forall_mem_singleton.mpr
        (isExpressionTree_parameters ha.isExpressionTree)⟩⟩

theorem IsPrimary.isExpressionTree : {n : Node} → IsPrimary .parsed n → IsExpressionTree n
  | _, .literal h => by cases h <;> exact isExpressionTree_leaf rfl rfl
  | _, .var _ => isExpressionTree_leaf rfl rfl
  | _, .yield _ => isExpressionTree_leaf rfl rfl
  | _, .call _ ha => isExpressionTree_iff.mpr ⟨rfl, List.forall_mem_singleton.mpr
      (isExpressionTree_parameters ha.isExpressionTree)⟩
  | _, .group h => isExpressionTree_iff.mpr ⟨rfl, List.forall_mem_singleton.mpr h.isExpressionTree⟩
  | _, .array h => isExpressionTree_iff.mpr ⟨rfl, h.isExpressionTree⟩
  | _, .map h => isExpressionTree_parameters h.isExpressionTree

theorem IsArguments.isExpressionTree : {args : List Node} → IsArguments .parsed args →
    ∀ a ∈ args, IsExpressionTree a
  | _, .nil => by simp
  | _, .positional hn hm => List.forall_mem_cons.mpr
      ⟨isExpressionTree_parameter hn.isExpressionTree, hm.isExpressionTree⟩
  | _, .named _ hn hm => List.forall_mem_cons.mpr
      ⟨isExpressionTree_parameter hn.isExpressionTree, hm.isExpressionTree⟩

theorem IsItems.isExpressionTree : {items : List Node} → IsItems .parsed items →
    ∀ n ∈ items, IsExpressionTree n
  | _, .nil => by simp
  | _, .cons hn hm => List.forall_mem_cons.mpr ⟨hn.isExpressionTree, hm.isExpressionTree⟩

theorem IsEntries.isExpressionTree : {entries : List Node} → IsEntries .parsed entries →
    ∀ e ∈ entries, IsExpressionTree e
  | _, .nil => by simp
  | _, .cons hn hm => List.forall_mem_cons.mpr
      ⟨isExpressionTree_parameter hn.isExpressionTree, hm.isExpressionTree⟩

end

theorem IsDeclarations.isExpressionTree {decls : List Node} (h : IsDeclarations .parsed decls) :
    ∀ d ∈ decls, IsExpressionTree d := by
  induction h with
  | nil => simp
  | bare _ _ ih => exact List.forall_mem_cons.mpr ⟨isExpressionTree_leaf rfl rfl, ih⟩
  | defaulted _ hn _ ih =>
    exact List.forall_mem_cons.mpr ⟨isExpressionTree_parameter hn.isExpressionTree, ih⟩

/-! ### Statements -/

/-- What a node of a template can be. -/
inductive IsTemplatePart : Node → Prop
  | statement {n : Node} : IsStatement .parsed n → IsTemplatePart n
  | block {body : List Node} : IsBody .parsed body → IsTemplatePart (.list body)
  | expression {n : Node} : isExpressionPart n = true → IsTemplatePart n

/-- All nodes of the tree are parts of a template. -/
def IsTemplateTree (n : Node) : Prop := ∀ k ∈ n.preorder, IsTemplatePart k

theorem isTemplateTree_of_subtrees {n : Node} (own : IsTemplatePart n)
    (below : ∀ m ∈ n.subtrees, IsTemplateTree m) : IsTemplateTree n :=
  Node.forall_preorder_iff.mpr ⟨own, below⟩

theorem isTemplateTree_leaf {n : Node} (own : IsTemplatePart n) (noSubtree : n.subtrees = []) :
    IsTemplateTree n := isTemplateTree_of_subtrees own (by simp [noSubtree])

theorem IsExpressionTree.isTemplateTree {n : Node} (h : IsExpressionTree n) : IsTemplateTree n :=
  fun k hk => .expression (h k hk)

theorem isTemplateTree_of_declarations {decls : List Node} (h : IsDeclarations .parsed decls) :
    IsTemplateTree (.parameters decls) :=
  (isExpressionTree_parameters h.isExpressionTree).isTemplateTree

mutual

theorem IsStatement.isTemplateTree : {n : Node} → IsStatement .parsed n → IsTemplateTree n
  | _, .text h => isTemplateTree_leaf (.statement (.text h)) rfl
  | _, .output h other => isTemplateTree_of_subtrees (.statement (.output h other))
      (List.forall_mem_singleton.mpr h.isExpressionTree.isTemplateTree)
  | _, .yield => isTemplateTree_leaf (.statement .yield) rfl
  | _, .set hx h => isTemplateTree_of_subtrees (.statement (.set hx h)) (List.forall_mem_cons.mpr
      ⟨(isExpressionTree_leaf rfl rfl).isTemplateTree,
        List.forall_mem_singleton.mpr h.isExpressionTree.isTemplateTree⟩)
  | _, .blockSet hx h => isTemplateTree_of_subtrees (.statement (.blockSet hx h))
      (List.forall_mem_cons.mpr ⟨(isExpressionTree_leaf rfl rfl).isTemplateTree,
        List.forall_mem_singleton.mpr (isTemplateTree_of_subtrees (.block h) h.isTemplateTree)⟩)
  | _, .branch hc hyes hno => isTemplateTree_of_subtrees (.statement (.branch hc hyes hno))
      (List.forall_mem_cons.mpr ⟨hc.isExpressionTree.isTemplateTree,
        List.forall_mem_append.mpr ⟨hyes.isTemplateTree, hno.isTemplateTree⟩⟩)
  | _, .loop hk hi hs hb => isTemplateTree_of_subtrees (.statement (.loop hk hi hs hb))
      (List.forall_mem_cons.mpr ⟨hs.isExpressionTree.isTemplateTree, hb.isTemplateTree⟩)
  | _, .call hx ha hb => isTemplateTree_of_subtrees (.statement (.call hx ha hb))
      (List.forall_mem_cons.mpr
        ⟨(isExpressionTree_parameters ha.isExpressionTree).isTemplateTree, hb.isTemplateTree⟩)
  | _, .macroDef hx hd hb => isTemplateTree_of_subtrees (.statement (.macroDef hx hd hb))
      (List.forall_mem_cons.mpr ⟨isTemplateTree_of_declarations hd, hb.isTemplateTree⟩)

theorem IsBody.isTemplateTree : {body : List Node} → IsBody .parsed body →
    ∀ n ∈ body, IsTemplateTree n
  | _, .nil => by simp
  | _, .cons hn _ hm => List.forall_mem_cons.mpr ⟨hn.isTemplateTree, hm.isTemplateTree⟩

end

/-! ### Definitions -/

theorem subtrees_undocumented (n : Node) : (undocumented n).subtrees = n.subtrees := by
  cases n <;> rfl

theorem IsTemplatePart.undocumented {n : Node} (h : IsTemplatePart n) :
    IsTemplatePart (undocumented n) := by
  cases h with
  | statement h => exact .statement (by rwa [undocumented_of_isStatement h])
  | block h => exact .block h
  | expression h => cases n <;> exact .expression h

/-- The documentation of macros aside, the nodes of an element are those of a statement. -/
theorem isTemplatePart_of_element {n k : Node} (h : IsStatement .parsed (undocumented n))
    (hk : k ∈ n.preorder) : IsTemplatePart (undocumented k) := by
  rcases Node.mem_preorder.mp hk with rfl | ⟨m, hm, hk⟩
  · exact .statement h
  · rw [← subtrees_undocumented] at hm
    exact (h.isTemplateTree k (Node.mem_preorder.mpr (.inr ⟨m, hm, hk⟩))).undocumented

theorem isTemplate_of_parse {source : String} {t : Node} (h : parse source = .ok t) :
    ∃ ns, IsTemplate .parsed ns ∧ t = ofElements ns := by
  have reads := elementsFrom_reads [] [] none false source.toList .nil
  rw [parse_eq] at h
  split at h
  · rename_i ns read
    cases h
    rw [read] at reads
    exact ⟨ns, reads.2, rfl⟩
  · cases h

/-- A macro definition in the tree of a template is one of its elements or inside one. -/
theorem mem_preorder_ofElements {ns : List Node} {k : Node} (hk : k ∈ (ofElements ns).preorder)
    (definition : k.isMacroDef = true) : ∃ n ∈ ns, k ∈ n.preorder := by
  unfold ofElements at hk
  split at hk
  · rename_i name params body doc lone
    have member : Node.macroDef name params body doc ∈ ns.filter (!·.isBlankText) := by
      rw [lone]
      exact List.mem_singleton_self _
    exact ⟨_, (List.mem_filter.mp member).1, hk⟩
  · rcases Node.mem_preorder.mp hk with rfl | below
    · cases definition
    · exact below

/-- Every macro definition in a template declares parameters of the grammar and has a body of the
grammar. -/
theorem isStatement_of_mem_parse {source : String} {t k : Node} (h : parse source = .ok t)
    (hk : k ∈ t.preorder) (definition : k.isMacroDef = true) :
    IsStatement .parsed (undocumented k) := by
  obtain ⟨ns, template, rfl⟩ := isTemplate_of_parse h
  obtain ⟨n, hn, hk⟩ := mem_preorder_ofElements hk definition
  have element := (isBody_iff.mp template).1 _ (List.mem_map_of_mem hn)
  cases k with
  | macroDef =>
    cases isTemplatePart_of_element element hk with
    | statement h => exact h
    | expression h => cases h
  | _ => cases definition

end TagCompiler.Grammar
