import TagCompiler.Proofs.Effects
import TagCompiler.Proofs.WellBuiltPasses
/-!
# Splitting string building keeps the effect of code

An assignment that builds a string becomes several: the target holds the part of the string that has
been built so far. This is right because no further term reads the target, or else the assignment
stays one. The statements around it, and the bodies in which it stands, then have the same effect as
before, under every interpretation of expressions.
-/

namespace TagCompiler

open Grammar Node
open StringBuilding (terms joiners)

namespace Effects

/-! ### Variables that are not read -/

namespace Interpretation

variable {I : Interpretation}

theorem eval_of_subtrees {σ τ : Store I.Val} {n : Node}
    (own : ∀ root, n.rootName? = some root → σ root = τ root)
    (below : ∀ k ∈ n.subtrees, I.eval σ k = I.eval τ k) : I.eval σ n = I.eval τ n := by
  have all : n.subtrees.map (I.eval σ) = n.subtrees.map (I.eval τ) := List.map_congr_left below
  cases n with
  | var path =>
    cases path with
    | nil => rfl
    | cons root fields => rw [eval, eval, own root rfl]
  | parameter name value =>
    cases value with
    | none => rfl
    | some v => rw [eval, eval, below v (by simp [subtrees])]
  | parameters cs | array cs | group cs | condition cs | expression cs =>
    rw [eval, eval, evalAll_eq_map, evalAll_eq_map]
    exact congrArg _ all
  | call name p body => rw [eval, eval, below p List.mem_cons_self]
  | filter name v p =>
    rw [eval, eval, below v List.mem_cons_self, below p (by simp [subtrees])]
  | _ => rfl

/-- The value of an expression only depends on the variables that occur in it. -/
theorem eval_congr {σ τ : Store I.Val} {n : Node}
    (same : ∀ k ∈ n.preorder, ∀ root, k.rootName? = some root → σ root = τ root) :
    I.eval σ n = I.eval τ n := by
  induction hs : sizeOf n using Nat.strongRecOn generalizing n with
  | ind size ih =>
    refine eval_of_subtrees (same n n.mem_preorder_self) fun k hk => ?_
    exact ih _ (hs ▸ sizeOf_lt_of_mem_subtrees hk) (fun j hj => same j (preorder_subset hk hj)) rfl

theorem eval_update {x : String} {n : Node} (unread : StringBuilding.reads (some x) n = false)
    (σ : Store I.Val) (v : I.Val) : I.eval (Function.update σ x v) n = I.eval σ n := by
  refine eval_congr fun k hk root named => ?_
  have other : root ≠ x := by
    rintro rfl
    have read : (k.isVar && k.rootName? == some root) = true := by
      cases k with
      | var path => simpa [isVar] using named
      | _ => cases named
    exact List.any_eq_false.mp unread k hk read
  rw [Function.update_apply, if_neg other]

end Interpretation

/-! ### Chains -/

theorem map_terms {α β : Type} (f : α → β) : (l : List α) → terms (l.map f) = (terms l).map f
  | [] => rfl
  | [_] => rfl
  | a :: _ :: rest => congrArg (f a :: ·) (map_terms f rest)

theorem map_joiners {α β : Type} (f : α → β) : (l : List α) → joiners (l.map f) = (joiners l).map f
  | [] => rfl
  | [_] => rfl
  | _ :: b :: rest => congrArg (f b :: ·) (map_joiners f rest)

theorem terms_intersperse {α : Type} (a : α) (l : List α) : terms (l.intersperse a) = l := by
  induction l with
  | nil => rfl
  | cons first rest ih =>
    cases rest with
    | nil => rfl
    | cons second rest =>
      rw [List.intersperse_cons_cons]
      exact congrArg (first :: ·) ih

theorem joiners_intersperse {α : Type} (a first : α) (rest : List α) :
    joiners ((first :: rest).intersperse a) = rest.map fun _ => a := by
  induction rest generalizing first with
  | nil => rfl
  | cons second rest ih =>
    rw [List.intersperse_cons_cons]
    exact congrArg (a :: ·) (ih second)

theorem any_isStringLiteral {ns : List Node} : ns.any StringBuilding.isStringLiteral = true ↔
    ∃ v, Form.literal v .string ∈ ns.map form := by
  have own (n : Node) :
      StringBuilding.isStringLiteral n = true ↔ ∃ v, form n = .literal v .string := by
    cases n with
    | literal v kind => cases kind <;> simp [StringBuilding.isStringLiteral, form]
    | _ => simp [StringBuilding.isStringLiteral, form]
  simp only [List.any_eq_true, own, List.mem_map]
  exact ⟨fun ⟨n, hn, v, same⟩ => ⟨v, n, hn, same⟩, fun ⟨v, n, hn, same⟩ => ⟨n, hn, v, same⟩⟩

/-- Whether a chain stands for a concatenation only depends on the kinds of its members. -/
theorem concatenates_congr {ns ms : List Node} (same : ms.map form = ns.map form) :
    concatenates ms = concatenates ns := by
  have terms : (terms ms).map form = (terms ns).map form := by
    rw [← map_terms, ← map_terms, same]
  have joiners : (joiners ms).map form = (joiners ns).map form := by
    rw [← map_joiners, ← map_joiners, same]
  have joined := congrArg (List.all · Form.joins) joiners
  have sign := congrArg (List.any · Form.isConcatSign) joiners
  have several := congrArg List.length terms
  have literal : (StringBuilding.terms ms).any StringBuilding.isStringLiteral =
      (StringBuilding.terms ns).any StringBuilding.isStringLiteral := by
    rw [Bool.eq_iff_iff, any_isStringLiteral, any_isStringLiteral, terms]
  simp only [List.all_map, List.any_map, List.length_map] at joined sign several
  rw [concatenates, concatenates, several, literal]
  exact congrArg₂ (fun a b => (a && _) && (_ || b)) joined sign

theorem joins_form {n : Node} (h : (StringBuilding.isPlus n || StringBuilding.isTilde n) = true) :
    (form n).joins = true := by
  cases n with
  | operator s =>
    rcases Bool.or_eq_true_iff.mp h with plus | tilde
    · obtain rfl := beq_iff_eq.mp plus
      rfl
    · obtain rfl := beq_iff_eq.mp tilde
      rfl
  | _ => cases h

theorem isConcatSign_form {n : Node} (h : StringBuilding.isTilde n = true) :
    (form n).isConcatSign = true := by
  cases n with
  | operator s =>
    obtain rfl := beq_iff_eq.mp h
    rfl
  | _ => cases h

/-- A chain that builds a string stands for a concatenation. -/
theorem concatenates_of_builds {chain : List Node} (h : StringBuilding.builds chain = true) :
    concatenates chain = true := by
  unfold StringBuilding.builds at h
  simp only [Bool.and_eq_true, Bool.or_eq_true, List.all_eq_true, List.any_eq_true,
    decide_eq_true_eq] at h
  obtain ⟨⟨joined, several⟩, string⟩ := h
  unfold concatenates
  simp only [Bool.and_eq_true, Bool.or_eq_true, List.all_eq_true, List.any_eq_true,
    decide_eq_true_eq]
  refine ⟨⟨fun n hn => joins_form (by simpa using joined n hn), several⟩, ?_⟩
  exact string.imp_right fun ⟨n, hn, tilde⟩ => ⟨n, hn, isConcatSign_form tilde⟩

/-- The chain in which the terms are joined by the sign for concatenation. -/
theorem concatenates_intersperse {first : Node} {rest : List Node} (several : rest ≠ []) :
    concatenates ((first :: rest).intersperse (.operator StringBuilding.concatSign)) = true := by
  obtain ⟨second, more, rfl⟩ := List.exists_cons_of_ne_nil several
  unfold concatenates
  rw [terms_intersperse, joiners_intersperse]
  have signs : (form (.operator StringBuilding.concatSign)).joins = true := rfl
  have sign : (form (.operator StringBuilding.concatSign)).isConcatSign = true := rfl
  simp [signs, sign]

/-! ### The pieces of an assignment -/

/-- What templates guarantee of a node: assignments are to single names, and no block is a member of
a chain. -/
def OwnTidy : Node → Prop
  | .assign target _ _ => ∃ x, target = .var [x]
  | .expression chain => ∀ n ∈ chain, form n ≠ .list
  | _ => True

/-- All nodes of the tree are as in a template. -/
def Tidy (n : Node) : Prop := ∀ k ∈ n.preorder, OwnTidy k

namespace Interpretation

variable {I : Interpretation}

theorem exec_set {x : String} {value : Node} (other : form value ≠ .list) (σ : Store I.Val) :
    I.exec (.assign (.var [x]) value .set) σ = (Function.update σ x (I.eval σ value), []) := by
  rw [exec]
  cases value with
  | list => exact absurd rfl other
  | _ => rfl

theorem exec_append {x : String} (value : Node) (σ : Store I.Val) :
    I.exec (.assign (.var [x]) value .append) σ =
      (Function.update σ x (I.concat [σ x, I.eval σ value]), []) := by
  rw [exec]
  rfl

/-- A part of a concatenation may be concatenated first. -/
theorem concat_concat_cons (values more : List I.Val) :
    I.concat (I.concat values :: more) = I.concat (values ++ more) := by
  simp [concat, I.text_ofText, String.join_cons, String.join_append]

/-- Appending terms that do not read the target. -/
theorem execAll_appends {x : String} {terms : List Node} (several : terms ≠ [])
    (unread : ∀ t ∈ terms, StringBuilding.reads (some x) t = false) (σ : Store I.Val) :
    I.execAll (terms.map fun t => .assign (.var [x]) t .append) σ =
      (Function.update σ x (I.concat (σ x :: terms.map (I.eval σ))), []) := by
  induction terms generalizing σ with
  | nil => exact absurd rfl several
  | cons t terms ih =>
    obtain ⟨-, hterms⟩ := List.forall_mem_cons.mp unread
    rw [List.map_cons, execAll, Effect.seq, exec_append]
    cases terms with
    | nil => rw [List.map_nil, execAll]; rfl
    | cons u terms =>
      -- The terms that are left have the same values as before the target was changed.
      have same (v : I.Val) : (u :: terms).map (I.eval (Function.update σ x v)) =
          (u :: terms).map (I.eval σ) :=
        List.map_congr_left fun t ht => eval_update (hterms t ht) σ v
      dsimp only
      rw [ih (by simp) hterms, same, Function.update_self, Function.update_idem,
        concat_concat_cons]
      rfl

/-- Assigning the first term and appending the others. -/
theorem execAll_start {x : String} {first : Node} {rest : List Node} (several : rest ≠ [])
    (other : form first ≠ .list)
    (unread : ∀ t ∈ rest, StringBuilding.reads (some x) t = false) (σ : Store I.Val) :
    I.execAll (.assign (.var [x]) first .set ::
        rest.map fun t => .assign (.var [x]) t .append) σ =
      (Function.update σ x (I.concat ((first :: rest).map (I.eval σ))), []) := by
  have same (v : I.Val) : rest.map (I.eval (Function.update σ x v)) = rest.map (I.eval σ) :=
    List.map_congr_left fun t ht => eval_update (unread t ht) σ v
  rw [execAll, Effect.seq, exec_set other]
  dsimp only
  rw [execAll_appends several unread, same, Function.update_self, Function.update_idem]
  rfl

theorem eq_of_same_var {n : Node} {path : List String} (h : n.same (.var path) = true) :
    n = .var path := by
  cases n with
  | var p => rw [beq_iff_eq.mp h]
  | parameter name value => cases value <;> cases h
  | _ => cases h

/-- The assignments for a string assign the concatenation of its terms. -/
theorem execAll_assignments {x : String} {first : Node} {rest : List Node} (several : rest ≠ [])
    (other : form first ≠ .list) (σ : Store I.Val) :
    I.execAll (StringBuilding.assignments (.var [x]) first rest) σ =
      (Function.update σ x (I.concat ((first :: rest).map (I.eval σ))), []) := by
  unfold StringBuilding.assignments
  split
  · rw [execAll_singleton, exec_set (by simp [form]), eval, chain,
      if_pos (concatenates_intersperse several), evalAll_eq_map, map_terms, terms_intersperse]
  · rename_i unread
    have unread : ∀ t ∈ rest, StringBuilding.reads (some x) t = false := by
      simpa [rootName?] using unread
    split
    · rename_i itself
      obtain rfl := eq_of_same_var itself
      rw [List.nil_append, execAll_appends several unread]
      rfl
    · exact execAll_start several other unread σ

/-- The pieces of a statement have its effect. -/
theorem execAll_pieces {n : Node} (tidy : Tidy n) :
    I.execAll (StringBuilding.pieces n) = I.exec n := by
  unfold StringBuilding.pieces
  split
  · rename_i target chain
    split
    · rename_i building
      split
      · rename_i first rest terms
        obtain ⟨x, rfl⟩ := tidy _ (mem_preorder_self _)
        have members : OwnTidy (.expression chain) :=
          tidy _ (preorder_subset (by simp [subtrees]) (mem_preorder_self _))
        have other : form first ≠ .list :=
          members first (StringBuilding.mem_of_mem_terms (by simp [terms]))
        have several : rest ≠ [] := by
          rintro rfl
          simp [StringBuilding.builds, terms] at building
        funext σ
        rw [execAll_assignments several other, exec_set (by simp [form]), eval,
          Interpretation.chain, if_pos (concatenates_of_builds building), evalAll_eq_map, map_terms,
          terms]
      · exact execAll_singleton _
    · exact execAll_singleton _
  · exact execAll_singleton _

end Interpretation

/-! ### Bodies -/

/-- The bodies in a tree, those of each node before those of its subtrees. -/
def allBodies (n : Node) : List (List Node) := n.preorder.flatMap bodies

/-- The two bodies have the same effect, whatever is not fixed. -/
def SameEffect (ns ms : List Node) : Prop :=
  ∀ (I : Interpretation) (σ : Store I.Val), I.execAll ms σ = I.execAll ns σ

theorem allBodies_eq (n : Node) : allBodies n = bodies n ++ n.subtrees.flatMap allBodies := by
  unfold allBodies
  rw [preorder_eq_cons, List.flatMap_cons, List.flatMap_assoc]

theorem flatMap_terms {α β : Type} (f : α → List β) : {l : List α} → (∀ a ∈ joiners l, f a = []) →
    l.flatMap f = (terms l).flatMap f
  | [], _ => rfl
  | [_], _ => rfl
  | a :: b :: rest, h => by
    obtain ⟨hb, hrest⟩ := List.forall_mem_cons.mp h
    rw [List.flatMap_cons, List.flatMap_cons, hb, List.nil_append, flatMap_terms f hrest, terms,
      List.flatMap_cons]

theorem allBodies_var (path : List String) : allBodies (.var path) = [] := by
  simp [allBodies_eq, bodies, subtrees, children]

theorem allBodies_operator (s : String) : allBodies (.operator s) = [] := by
  simp [allBodies_eq, bodies, subtrees, children]

theorem allBodies_assign (path : List String) (value : Node) (op : AssignOp) :
    allBodies (.assign (.var path) value op) = allBodies value := by
  rw [allBodies_eq]
  simp [bodies, subtrees, allBodies_var]

theorem allBodies_expression (chain : List Node) :
    allBodies (.expression chain) = chain.flatMap allBodies := by
  rw [allBodies_eq]
  rfl

theorem allBodies_joiner {chain : List Node} (h : StringBuilding.builds chain = true) :
    ∀ j ∈ joiners chain, allBodies j = [] := by
  intro j hj
  unfold StringBuilding.builds at h
  simp only [Bool.and_eq_true, List.all_eq_true] at h
  have sign := h.1.1 j hj
  cases j with
  | operator s => exact allBodies_operator s
  | _ => cases sign

theorem allBodies_assignments (x : String) (first : Node) (rest : List Node) :
    (StringBuilding.assignments (.var [x]) first rest).flatMap allBodies =
      (first :: rest).flatMap allBodies := by
  have appended : (rest.map fun t => .assign (.var [x]) t .append).flatMap allBodies =
      rest.flatMap allBodies := by
    simp [List.flatMap_map, allBodies_assign]
  unfold StringBuilding.assignments
  split
  · have signs : ∀ j ∈ joiners ((first :: rest).intersperse (.operator StringBuilding.concatSign)),
        allBodies j = [] := by
      intro j hj
      rw [joiners_intersperse] at hj
      obtain ⟨-, -, rfl⟩ := List.mem_map.mp hj
      exact allBodies_operator _
    rw [List.flatMap_singleton, allBodies_assign, allBodies_expression, flatMap_terms _ signs,
      terms_intersperse]
  · rw [List.flatMap_append, appended, List.flatMap_cons]
    split
    · rename_i itself
      rw [Interpretation.eq_of_same_var itself, allBodies_var]
      rfl
    · rw [List.flatMap_singleton, allBodies_assign]

/-- The bodies in the pieces of a statement are those in the statement. -/
theorem allBodies_pieces {n : Node} (tidy : Tidy n) :
    (StringBuilding.pieces n).flatMap allBodies = allBodies n := by
  unfold StringBuilding.pieces
  split
  · rename_i target chain
    split
    · rename_i building
      split
      · rename_i first rest terms
        obtain ⟨x, rfl⟩ := tidy _ (mem_preorder_self _)
        rw [allBodies_assignments, allBodies_assign, allBodies_expression,
          flatMap_terms _ (allBodies_joiner building), terms]
      · exact List.flatMap_singleton _ _
    · exact List.flatMap_singleton _ _
  · exact List.flatMap_singleton _ _

/-! ### Trees that are tidy -/

theorem tidy_iff {n : Node} : Tidy n ↔ OwnTidy n ∧ ∀ k ∈ n.subtrees, Tidy k := forall_preorder_iff

theorem tidy_operator (s : String) : Tidy (.operator s) :=
  tidy_iff.mpr ⟨trivial, by simp [subtrees, children]⟩

theorem form_ne_list_of_isExpressionPart {n : Node} (h : isExpressionPart n = true) :
    form n ≠ .list := by
  cases n with
  | list => cases h
  | _ => simp [form]

theorem ownTidy_of_isPart {n : Node} (h : IsPart n) : OwnTidy n := by
  cases n with
  | assign target value op =>
    cases h with
    | condition h => cases h.isExpressionTree _ (mem_preorder_self _)
    | parameter h =>
      obtain ⟨_, _, same, -⟩ := h
      cases same
    | statement h =>
      cases h with
      | set | blockSet => exact ⟨_, rfl⟩
  | expression chain =>
    cases h with
    | condition h =>
      intro m hm
      have below : m ∈ (Node.expression chain).preorder := preorder_subset hm m.mem_preorder_self
      exact form_ne_list_of_isExpressionPart (h.isExpressionTree m below)
    | parameter h =>
      obtain ⟨_, _, same, -⟩ := h
      cases same
    | statement h => cases h
  | _ => trivial

theorem tidy_of_parse {source : String} {t : Node} (h : Template.parse source = .ok t) : Tidy t :=
  fun _ hk => ownTidy_of_isPart ((isPart_of_parse h).of_mem_preorder hk)

theorem tidy_of_mem_pieces {n p : Node} (tidy : Tidy n) (h : p ∈ StringBuilding.pieces n) :
    Tidy p := by
  cases StringBuilding.isPiece_of_mem_pieces h with
  | whole => exact tidy
  | @term target t chain op same ht =>
    subst same
    obtain ⟨own, below⟩ := tidy_iff.mp tidy
    have value : Tidy (.expression chain) := below _ (by simp [subtrees])
    have term : Tidy t := (tidy_iff.mp value).2 t ht
    have target : Tidy target := below target (by simp [subtrees])
    exact tidy_iff.mpr ⟨own, by simpa [subtrees] using ⟨target, term⟩⟩
  | @joined target chain members same from_chain =>
    subst same
    obtain ⟨own, below⟩ := tidy_iff.mp tidy
    have value : Tidy (.expression chain) := below _ (by simp [subtrees])
    obtain ⟨plain, terms⟩ := tidy_iff.mp value
    have joined : Tidy (.expression members) := by
      refine tidy_iff.mpr ⟨fun m hm => ?_, fun m hm => ?_⟩
      · rcases from_chain m hm with rfl | hm
        · simp [form]
        · exact plain m hm
      · rcases from_chain m hm with rfl | hm
        · exact tidy_operator _
        · exact terms m hm
    have target : Tidy target := below target (by simp [subtrees])
    exact tidy_iff.mpr ⟨own, by simpa [subtrees] using ⟨target, joined⟩⟩

/-! ### Rebuilding -/

/-- What becomes of a node has its kind, its value and its effect, and the bodies in it have the
effects of the bodies in the node. -/
structure Alike (n m : Node) : Prop where
  form : form m = form n
  eval : ∀ (I : Interpretation) (σ : Store I.Val), I.eval σ m = I.eval σ n
  exec : ∀ I : Interpretation, I.exec m = I.exec n
  bodies : List.Forall₂ SameEffect (allBodies n) (allBodies m)
  tidy : Tidy m

/-- What becomes of a statement has its effect. -/
structure AlikeBody (n : Node) (ms : List Node) : Prop where
  exec : ∀ I : Interpretation, I.execAll ms = I.exec n
  bodies : List.Forall₂ SameEffect (allBodies n) (ms.flatMap allBodies)
  tidy : ∀ m ∈ ms, Tidy m

theorem Alike.pieces {n m : Node} (h : Alike n m) : AlikeBody n (StringBuilding.pieces m) where
  exec I := (Interpretation.execAll_pieces h.tidy).trans (h.exec I)
  bodies := by
    rw [allBodies_pieces h.tidy]
    exact h.bodies
  tidy _ := tidy_of_mem_pieces h.tidy

theorem Alike.singleton {n m : Node} (h : Alike n m) : AlikeBody n [m] where
  exec I := (Interpretation.execAll_singleton m).trans (h.exec I)
  bodies := by
    rw [List.flatMap_singleton]
    exact h.bodies
  tidy := List.forall_mem_singleton.mpr h.tidy

section Lists

variable {ns ms : List Node}

theorem evalAll_of_alike (h : List.Forall₂ Alike ns ms) (I : Interpretation) (σ : Store I.Val) :
    I.evalAll σ ms = I.evalAll σ ns := by
  induction h with
  | nil => rfl
  | cons first _ ih => rw [Interpretation.evalAll, Interpretation.evalAll, first.eval, ih]

theorem map_form_of_alike (h : List.Forall₂ Alike ns ms) : ms.map form = ns.map form := by
  induction h with
  | nil => rfl
  | cons first _ ih => rw [List.map_cons, List.map_cons, first.form, ih]

theorem allBodies_of_alike (h : List.Forall₂ Alike ns ms) :
    List.Forall₂ SameEffect (ns.flatMap allBodies) (ms.flatMap allBodies) := by
  induction h with
  | nil => exact .nil
  | cons first _ ih =>
    rw [List.flatMap_cons, List.flatMap_cons]
    exact List.rel_append first.bodies ih

theorem execAll_of_alike (h : BodyRebuilt AlikeBody ns ms) (I : Interpretation) :
    I.execAll ms = I.execAll ns := by
  induction h with
  | nil => rfl
  | cons first _ ih =>
    rw [Interpretation.execAll_append, Interpretation.execAll, first.exec, ih]

theorem bodies_of_alike (h : BodyRebuilt AlikeBody ns ms) :
    List.Forall₂ SameEffect (ns.flatMap allBodies) (ms.flatMap allBodies) := by
  induction h with
  | nil => exact .nil
  | cons first _ ih =>
    rw [List.flatMap_cons, List.flatMap_append]
    exact List.rel_append first.bodies ih

end Lists

theorem eq_var_of_form {n : Node} {path : List String} (h : form n = .var path) :
    n = .var path := by
  cases n with
  | var p =>
    cases h
    rfl
  | _ => cases h

theorem SameEffect.refl (ns : List Node) : SameEffect ns ns := fun _ _ => rfl

section Rebuilt

variable {n m : Node}

theorem ownBodies_of_rebuilt (h : Rebuilt Alike AlikeBody n m) :
    List.Forall₂ SameEffect (bodies n) (bodies m) := by
  have same : ∀ {ns ms : List Node}, BodyRebuilt AlikeBody ns ms → SameEffect ns ms :=
    fun body I σ => congrFun (execAll_of_alike body I) σ
  cases h with
  | leaf => exact List.forall₂_same.mpr fun ns _ => .refl ns
  | call _ body | macroDef _ body | loop _ body | list body => exact .cons (same body) .nil
  | branch _ yes no => exact .cons (same yes) (.cons (same no) .nil)
  | parameter | parameters | array | assign | condition | expression | group | filter | output =>
    exact .nil

theorem subtreeBodies_of_rebuilt (h : Rebuilt Alike AlikeBody n m) :
    List.Forall₂ SameEffect (n.subtrees.flatMap allBodies) (m.subtrees.flatMap allBodies) := by
  cases h with
  | leaf => exact List.forall₂_same.mpr fun ns _ => .refl ns
  | parameter hv => simpa [subtrees] using hv.bodies
  | parameters parts | array parts | condition parts | expression parts | group parts
  | output parts => exact allBodies_of_alike parts
  | list body => exact bodies_of_alike body
  | call hp body | macroDef hp body | loop hp body =>
    exact List.rel_append hp.bodies (bodies_of_alike body)
  | assign ht hv | filter ht hv =>
    simpa [subtrees] using List.rel_append ht.bodies hv.bodies
  | branch hc yes no =>
    rw [subtrees, subtrees, List.flatMap_cons, List.flatMap_cons, List.flatMap_append,
      List.flatMap_append]
    exact List.rel_append hc.bodies (List.rel_append (bodies_of_alike yes) (bodies_of_alike no))

theorem tidy_of_rebuilt (tidy : Tidy n) (h : Rebuilt Alike AlikeBody n m) : Tidy m := by
  have own := (tidy_iff.mp tidy).1
  refine tidy_iff.mpr ⟨?_, fun k hk => ?_⟩
  · cases h with
    | leaf => exact own
    | assign ht =>
      obtain ⟨x, rfl⟩ := own
      exact ⟨x, eq_var_of_form ht.form⟩
    | expression parts =>
      intro k hk
      obtain ⟨j, hj, alike⟩ := exists_of_mem_right parts hk
      rw [alike.form]
      exact own j hj
    | parameter | parameters | array | call | macroDef | branch | loop | condition | group | filter
    | output | list => trivial
  · obtain ⟨j, -, alike | ⟨ks, alike, hk⟩⟩ := h.exists_of_mem_subtrees hk
    · exact alike.tidy
    · exact alike.tidy k hk

/-- A node that is put together from parts that are like its own is like it. -/
theorem alike_of_rebuilt (tidy : Tidy n) (h : Rebuilt Alike AlikeBody n m) : Alike n m := by
  have inside : List.Forall₂ SameEffect (allBodies n) (allBodies m) := by
    rw [allBodies_eq n, allBodies_eq m]
    exact List.rel_append (ownBodies_of_rebuilt h) (subtreeBodies_of_rebuilt h)
  suffices own : form m = form n ∧
      (∀ (I : Interpretation) (σ : Store I.Val), I.eval σ m = I.eval σ n) ∧
      ∀ I : Interpretation, I.exec m = I.exec n from
    ⟨own.1, own.2.1, own.2.2, inside, tidy_of_rebuilt tidy h⟩
  cases h with
  | leaf => exact ⟨rfl, fun _ _ => rfl, fun _ => rfl⟩
  | parameter hv =>
    refine ⟨rfl, fun I σ => ?_, fun _ => rfl⟩
    rw [Interpretation.eval, Interpretation.eval, hv.eval]
  | parameters parts | array parts | group parts =>
    refine ⟨rfl, fun I σ => ?_, fun _ => rfl⟩
    rw [Interpretation.eval, Interpretation.eval, evalAll_of_alike parts]
  | expression parts =>
    refine ⟨rfl, fun I σ => ?_, fun _ => rfl⟩
    have same := map_form_of_alike parts
    have signs := congrArg (List.map Form.sign?) same
    rw [List.map_map, List.map_map] at signs
    rw [Interpretation.eval, Interpretation.eval, evalAll_of_alike parts, Interpretation.chain,
      Interpretation.chain, concatenates_congr same]
    exact congrArg (fun s => if concatenates _ then _ else I.expression _ s _) signs
  | condition parts =>
    refine ⟨rfl, fun I σ => ?_, fun _ => rfl⟩
    have signs := congrArg (List.map Form.sign?) (map_form_of_alike parts)
    rw [List.map_map, List.map_map] at signs
    rw [Interpretation.eval, Interpretation.eval, evalAll_of_alike parts]
    exact congrArg (I.expression .condition · _) signs
  | filter hv hp =>
    refine ⟨rfl, fun I σ => ?_, fun _ => rfl⟩
    rw [Interpretation.eval, Interpretation.eval, hv.eval, hp.eval]
  | output parts =>
    refine ⟨rfl, fun _ _ => rfl, fun I => ?_⟩
    simp only [Interpretation.exec, evalAll_of_alike parts]
  | list body =>
    refine ⟨rfl, fun _ _ => rfl, fun I => ?_⟩
    rw [Interpretation.exec, Interpretation.exec, execAll_of_alike body]
  | call hp body =>
    refine ⟨rfl, fun I σ => ?_, fun I => ?_⟩
    · rw [Interpretation.eval, Interpretation.eval, hp.eval]
    · simp only [Interpretation.exec, hp.eval, execAll_of_alike body]
  | macroDef hp body =>
    refine ⟨rfl, fun _ _ => rfl, fun I => ?_⟩
    simp only [Interpretation.exec, hp.eval, execAll_of_alike body]
  | loop hv body =>
    refine ⟨rfl, fun _ _ => rfl, fun I => ?_⟩
    simp only [Interpretation.exec, hv.eval, execAll_of_alike body]
  | assign ht hv =>
    refine ⟨rfl, fun _ _ => rfl, fun I => ?_⟩
    simp only [Interpretation.exec, ht.form, hv.form, hv.eval, hv.exec]
  | branch hc yes no =>
    refine ⟨rfl, fun _ _ => rfl, fun I => ?_⟩
    simp only [Interpretation.exec, hc.eval, execAll_of_alike yes, execAll_of_alike no]

end Rebuilt

/-! ### The two steps of the pass -/

theorem establishes_splitter : StringBuilding.splitter.Establishes (.except ShapeFault)
    (fun n => n.WellBuilt ∧ Tidy n) (fun n m => Fits n m ∧ Alike n m)
    fun n ms => BuiltBody ms ∧ AlikeBody n ms :=
  StringBuilding.establishes_of_pieces (fun h => (tidy_iff.mp h).2) alike_of_rebuilt
    fun _ alike => alike.pieces

/-- The sign `~` does not occur in the tree. -/
def Spelled (n : Node) : Prop := ∀ k ∈ n.preorder, k ≠ .operator "~"

theorem spelled_of_rebuilt {n m : Node} (other : n ≠ .operator "~")
    (h : Rebuilt (fun _ k => Spelled k) (fun _ ks => ∀ k ∈ ks, Spelled k) n m) : Spelled m := by
  intro k hk
  rcases mem_preorder.mp hk with rfl | ⟨j, hj, below⟩
  · cases h with
    | leaf => exact other
    | _ => intro same; cases same
  · obtain ⟨_, -, spelled | ⟨ks, spelled, hj⟩⟩ := h.exists_of_mem_subtrees hj
    · exact spelled k below
    · exact spelled j hj k below

theorem alike_concatSign : Alike (.operator "~") (.operator StringBuilding.concatSign) where
  form := rfl
  eval _ _ := rfl
  exec _ := rfl
  bodies := by
    rw [allBodies_operator, allBodies_operator]
    exact .nil
  tidy := tidy_operator _

theorem spelled_concatSign : Spelled (.operator StringBuilding.concatSign) := by
  intro k hk
  obtain rfl : k = .operator StringBuilding.concatSign := by simpa [preorder] using hk
  simp [StringBuilding.concatSign]

theorem establishes_speller : StringBuilding.speller.Establishes .id Tidy
    (fun n m => Alike n m ∧ Spelled m) fun n ms => AlikeBody n ms ∧ ∀ m ∈ ms, Spelled m where
  below h k hk := (tidy_iff.mp h).2 k hk
  node {n} {x : Node} tidy hx := by
    show Alike n (StringBuilding.speller.node n x) ∧ Spelled (StringBuilding.speller.node n x)
    by_cases tilde : n = .operator "~"
    · subst tilde
      exact ⟨alike_concatSign, spelled_concatSign⟩
    · have same : StringBuilding.speller.node n x = x := by
        unfold StringBuilding.speller
        dsimp only
        split
        · exact absurd rfl tilde
        · rfl
      rw [same]
      exact ⟨alike_of_rebuilt tidy (hx.imp (fun _ _ _ h => h.1) fun _ _ _ h => h.1),
        spelled_of_rebuilt tilde (hx.imp (fun _ _ _ h => h.2) fun _ _ _ h => h.2)⟩
  statement _ hx := by
    refine Outcome.id.bind hx fun m h => ?_
    exact ⟨h.1.singleton, List.forall_mem_singleton.mpr h.2⟩

theorem forall₂_sameEffect_trans {as bs cs : List (List Node)} (h : List.Forall₂ SameEffect as bs)
    (h' : List.Forall₂ SameEffect bs cs) : List.Forall₂ SameEffect as cs := by
  induction h generalizing cs with
  | nil => exact h'
  | cons first _ ih =>
    cases h' with
    | cons second rest => exact .cons (fun I σ => (second I σ).trans (first I σ)) (ih rest)

/-- The pass keeps the effect of every body of a template, whatever values are and however
expressions, loops, blocks and calls are interpreted. All concatenation is then spelled with the
sign of tag files. -/
theorem splitStringBuilding_keeps_effects {source : String} {t : Node}
    (h : Template.parse source = .ok t) : ∃ t', t.splitStringBuilding = .ok t' ∧
      List.Forall₂ SameEffect (allBodies t) (allBodies t') ∧ Spelled t' := by
  obtain ⟨m, run, -, split⟩ := establishes_splitter.run t ⟨wellBuilt_of_parse h, tidy_of_parse h⟩
  obtain ⟨spell, spelled⟩ := establishes_speller.run m split.tidy
  refine ⟨_, ?_, forall₂_sameEffect_trans split.bodies spell.bodies, spelled⟩
  rw [Node.splitStringBuilding, run]
  rfl

/-- A string that is appended to, and one that is built from the former content of its target, which
stays one assignment. -/
theorem splitStringBuilding_keeps_two_strings :
    Template.parse "\x7b% set x = x ~ 'a' ~ y %\x7d\x7b% set y = x + y ~ x %\x7d" = .ok (.list
      [.assign (.var ["x"]) (.expression
        [.var ["x"], .operator "~", .string "a", .operator "~", .var ["y"]]) .set,
      .assign (.var ["y"]) (.expression
        [.var ["x"], .operator "+", .var ["y"], .operator "~", .var ["x"]]) .set]) ∧
    SameEffect
      [.assign (.var ["x"]) (.expression
        [.var ["x"], .operator "~", .string "a", .operator "~", .var ["y"]]) .set,
      .assign (.var ["y"]) (.expression
        [.var ["x"], .operator "+", .var ["y"], .operator "~", .var ["x"]]) .set]
      [.assign (.var ["x"]) (.string "a") .append,
      .assign (.var ["x"]) (.var ["y"]) .append,
      .assign (.var ["y"]) (.expression
        [.var ["x"], .operator "+=", .var ["y"], .operator "+=", .var ["x"]]) .set] := by
  have tree : Template.parse
      "\x7b% set x = x ~ 'a' ~ y %\x7d\x7b% set y = x + y ~ x %\x7d" = .ok (.list
      [.assign (.var ["x"]) (.expression
        [.var ["x"], .operator "~", .string "a", .operator "~", .var ["y"]]) .set,
      .assign (.var ["y"]) (.expression
        [.var ["x"], .operator "+", .var ["y"], .operator "~", .var ["x"]]) .set]) := by
    rw [Template.parse_eq]
    cbv
  refine ⟨tree, ?_⟩
  obtain ⟨t', split, same, -⟩ := splitStringBuilding_keeps_effects tree
  cases split
  exact (List.forall₂_cons.mp same).1

end Effects
end TagCompiler
