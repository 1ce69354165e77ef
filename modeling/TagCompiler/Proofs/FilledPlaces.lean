import TagCompiler.Proofs.InliningSteps
/-!
# Trees with filled places

The code of a macro has yields, and in an expansion a list stands in place of each. This module
compares how both are inlined, the code with its yields and the code with lists in their places. The
same calls are expanded in both, so the results differ in the same way: the second one has a list
wherever the first one has a yield. Only these lists are inlined on the way, some of them more than
once, with what is in the library at their place.
-/

namespace TagCompiler.Inlining

open Grammar Node

/-- The second tree is the first one with a list in place of each yield. Of the statements of each
of these lists holds `R`. -/
inductive Filled (R : List Node → Prop) : Node → Node → Prop
  | yield {cs : List Node} : R cs → Filled R .yield (.list cs)
  | other {n : Node} {outs stats : List Node} (other : n ≠ .yield)
      (outside : List.Forall₂ (Filled R) n.outside outs)
      (elements : List.Forall₂ (Filled R) n.elements stats) : Filled R n (n.replace outs stats)

variable {R R' : List Node → Prop} {n n' : Node}

theorem Filled.list {cs cs' : List Node} (h : List.Forall₂ (Filled R) cs cs') :
    Filled R (.list cs) (.list cs') := .other (n := .list cs) (by simp) .nil h

theorem Filled.exists_replace (h : Filled R n n') (other : n ≠ .yield) :
    ∃ outs stats, List.Forall₂ (Filled R) n.outside outs ∧
      List.Forall₂ (Filled R) n.elements stats ∧ n' = n.replace outs stats := by
  cases h with
  | yield => exact absurd rfl other
  | other _ outside elements => exact ⟨_, _, outside, elements, rfl⟩

theorem Filled.exists_list (h : Filled R .yield n') : ∃ cs, n' = .list cs ∧ R cs := by
  generalize place : Node.yield = n at h
  cases h with
  | yield holds => exact ⟨_, rfl, holds⟩
  | other other => exact absurd place.symm other

/-! ### Calls -/

theorem Filled.exists_call {c : String} {arguments : Node} {block : List Node}
    (h : Filled R n (.call c arguments block)) : ∃ a b, n = .call c a b ∧ Filled R a arguments ∧
      List.Forall₂ (Filled R) b block := by
  by_cases place : n = .yield
  · subst place
    obtain ⟨cs, same, -⟩ := h.exists_list
    cases same
  · obtain ⟨outs, stats, outside, elements, same⟩ := h.exists_replace place
    cases n with
    | call name p cs =>
      obtain _ | ⟨hp, ⟨⟩⟩ := outside
      cases same
      exact ⟨p, cs, rfl, hp, elements⟩
    | parameter name value => cases value <;> cases same
    | _ => cases same

theorem Filled.exists_output {outs : List Node} (h : Filled R n (.output outs)) :
    ∃ cs, n = .output cs ∧ List.Forall₂ (Filled R) cs outs := by
  by_cases place : n = .yield
  · subst place
    obtain ⟨cs, same, -⟩ := h.exists_list
    cases same
  · obtain ⟨outs, stats, outside, -, same⟩ := h.exists_replace place
    cases n with
    | output cs =>
      cases same
      exact ⟨cs, rfl, outside⟩
    | parameter name value => cases value <;> cases same
    | _ => cases same

/-- What is a call with its places filled was one before. -/
theorem Filled.exists_unfilled_call {c : String} {arguments : Node} {block : List Node}
    (h : Filled R n n') (called : IsCallOf c arguments block n') :
    ∃ a b, IsCallOf c a b n ∧ Filled R a arguments ∧ List.Forall₂ (Filled R) b block := by
  cases called with
  | call =>
    obtain ⟨a, b, rfl, related⟩ := h.exists_call
    exact ⟨a, b, .call, related⟩
  | output =>
    obtain ⟨cs, rfl, parts⟩ := h.exists_output
    obtain _ | ⟨part, ⟨⟩⟩ := parts
    obtain ⟨a, b, rfl, related⟩ := part.exists_call
    exact ⟨a, b, .output, related⟩

theorem Filled.exists_filled_call {c : String} {arguments : Node} {block : List Node}
    (h : Filled R n n') (called : IsCallOf c arguments block n) :
    ∃ a b, IsCallOf c a b n' ∧ Filled R arguments a ∧ List.Forall₂ (Filled R) block b := by
  have call : ∀ {k' : Node}, Filled R (.call c arguments block) k' →
      ∃ a b, k' = .call c a b ∧ Filled R arguments a ∧ List.Forall₂ (Filled R) block b := by
    intro k' filled
    obtain ⟨outs, stats, outside, elements, rfl⟩ := filled.exists_replace (by simp)
    obtain _ | ⟨passed, ⟨⟩⟩ := outside
    exact ⟨_, _, rfl, passed, elements⟩
  cases called with
  | call =>
    obtain ⟨a, b, rfl, related⟩ := call h
    exact ⟨a, b, .call, related⟩
  | output =>
    obtain ⟨outs, stats, outside, -, rfl⟩ := h.exists_replace (by simp)
    obtain _ | ⟨part, ⟨⟩⟩ := outside
    obtain ⟨a, b, rfl, related⟩ := call part
    exact ⟨a, b, .output, related⟩

theorem Filled.statementCallee? (h : Filled R n n') : n'.statementCallee? = n.statementCallee? := by
  cases callee : n.statementCallee? with
  | some c =>
    obtain ⟨a, b, called⟩ := exists_isCallOf callee
    obtain ⟨a', b', called', -⟩ := h.exists_filled_call called
    exact called'.statementCallee?
  | none =>
    cases callee' : n'.statementCallee? with
    | none => rfl
    | some c =>
      obtain ⟨a', b', called⟩ := exists_isCallOf callee'
      obtain ⟨a, b, called, -⟩ := h.exists_unfilled_call called
      cases callee.symm.trans called.statementCallee?

/-! ### Arguments -/

theorem Filled.isNamed (h : Filled R n n') (x : String) : Node.isNamed x n' = Node.isNamed x n := by
  cases h with
  | yield => rfl
  | @other n outs stats =>
    cases n with
    | parameter name value => cases name <;> cases value <;> rfl
    | _ => rfl

theorem Filled.isPositional (h : Filled R n n') : isPositional n' = isPositional n := by
  cases h with
  | yield => rfl
  | @other n outs stats =>
    cases n with
    | parameter name value => cases name <;> cases value <;> rfl
    | _ => rfl

theorem Filled.valueOfParameter? (h : Filled R n n') :
    Option.Rel (Filled R) (Meaning.valueOfParameter? n) (Meaning.valueOfParameter? n') := by
  cases h with
  | yield => exact .none
  | @other n outs stats _ outside =>
    cases n with
    | parameter name value =>
      cases value with
      | none => exact .none
      | some v =>
        obtain _ | ⟨hv, ⟨⟩⟩ := outside
        exact .some hv
    | _ => exact .none

section Lists

variable {α β : Type} {S : α → β → Prop}

theorem rel_getElem? {xs : List α} {ys : List β} (h : List.Forall₂ S xs ys) (i : Nat) :
    Option.Rel S xs[i]? ys[i]? := by
  induction h generalizing i with
  | nil => exact .none
  | cons first _ ih =>
    cases i with
    | zero => exact .some first
    | succ i => simpa using ih i

theorem forall₂_filter {xs : List α} {ys : List β} {p : α → Bool} {q : β → Bool}
    (h : List.Forall₂ S xs ys) (same : ∀ x y, S x y → q y = p x) :
    List.Forall₂ S (xs.filter p) (ys.filter q) := by
  refine List.rel_filter (fun x y related => ?_) h
  show p x = true ↔ q y = true
  rw [same x y related]

theorem rel_find? {xs : List α} {ys : List β} {p : α → Bool} {q : β → Bool}
    (h : List.Forall₂ S xs ys) (same : ∀ x y, S x y → q y = p x) :
    Option.Rel S (xs.find? p) (ys.find? q) := by
  rw [← List.head?_filter, ← List.head?_filter, List.head?_eq_getElem?, List.head?_eq_getElem?]
  exact rel_getElem? (forall₂_filter h same) 0

theorem rel_or {a b : Option α} {a' b' : Option β} (first : Option.Rel S a a')
    (second : Option.Rel S b b') : Option.Rel S (a.or b) (a'.or b') := by
  cases first with
  | some related => exact .some related
  | none => exact second

theorem rel_bind {γ δ : Type} {T : γ → δ → Prop} {a : Option α} {a' : Option β}
    {f : α → Option γ} {g : β → Option δ} (first : Option.Rel S a a')
    (next : ∀ x y, S x y → Option.Rel T (f x) (g y)) : Option.Rel T (a.bind f) (a'.bind g) := by
  cases first with
  | some related => exact next _ _ related
  | none => exact .none

/-- Where one relation leads on from a second element, and another from the first one to it, they
can be taken in the other order. -/
theorem forall₂_square {A B : Node → Node → Prop} {ns ns' ms' : List Node}
    (filled : List.Forall₂ A ns ns') (inlined : List.Forall₂ B ns' ms') {A' : Node → Node → Prop}
    (square : ∀ n ∈ ns, ∀ n' m', A n n' → B n' m' → ∃ m, B n m ∧ A' m m') :
    ∃ ms, List.Forall₂ B ns ms ∧ List.Forall₂ A' ms ms' := by
  induction filled generalizing ms' with
  | nil =>
    cases inlined
    exact ⟨[], .nil, .nil⟩
  | cons first _ ih =>
    obtain _ | ⟨first', more'⟩ := inlined
    obtain ⟨own, others⟩ := List.forall_mem_cons.mp square
    obtain ⟨m, hm, hm'⟩ := own _ _ first first'
    obtain ⟨ms, hms, hms'⟩ := ih more' others
    exact ⟨m :: ms, .cons hm hms, .cons hm' hms'⟩

end Lists

theorem Filled.parameterList (h : Filled R n n') :
    List.Forall₂ (Filled R) n.parameterList n'.parameterList := by
  induction n using induction_on_subtrees generalizing n' with
  | step n ih =>
    cases h with
    | yield => exact .nil
    | @other n outs stats _ outside =>
      cases n with
      | parameters cs => exact outside
      | call name p cs | macroDef name p cs doc =>
        obtain _ | ⟨hp, ⟨⟩⟩ := outside
        have entries := ih p List.mem_cons_self hp
        exact entries
      | filter name v p =>
        obtain _ | ⟨hv, _ | ⟨hp, ⟨⟩⟩⟩ := outside
        have entries := ih p (by simp [Node.subtrees]) hp
        exact entries
      | parameter name value => cases value <;> exact .nil
      | _ => exact .nil

theorem Filled.parameterNamed? (h : Filled R n n') (x : String) :
    Option.Rel (Filled R) (n.parameterNamed? x) (n'.parameterNamed? x) := by
  induction n using induction_on_subtrees generalizing n' with
  | step n ih =>
    cases h with
    | yield => exact .none
    | @other n outs stats _ outside =>
      cases n with
      | parameters cs => exact rel_find? outside fun p p' filled => filled.isNamed x
      | call name p cs | macroDef name p cs doc =>
        obtain _ | ⟨hp, ⟨⟩⟩ := outside
        have entry := ih p List.mem_cons_self hp
        exact entry
      | parameter name value => cases value <;> exact .none
      | _ => exact .none

theorem Filled.positionals (h : Filled R n n') :
    List.Forall₂ (Filled R) (positionals n) (positionals n') :=
  forall₂_filter h.parameterList fun _ _ filled => filled.isPositional

/-- A call passes the same values, with their places filled. -/
theorem Filled.value? (h : Filled R n n') (x : String) (place : Nat) :
    Option.Rel (Filled R) ((value? n x place).map Subtype.val)
      ((value? n' x place).map Subtype.val) := by
  have passed : Option.Rel (Filled R) (passed? n x place) (passed? n' x place) :=
    rel_or (h.parameterNamed? x) (rel_getElem? h.positionals place)
  rw [Meaning.value?_eq, Meaning.value?_eq]
  exact rel_bind passed fun _ _ filled => filled.valueOfParameter?

/-! ### Code of a macro -/

/-- Renames what the node itself names. -/
def retitle (r : Renaming) : Node → Node
  | .var path => .var (r.path path)
  | .loop key item source body => .loop (key.map r.apply) (r.apply item) source body
  | n => n

theorem outside_retitle (r : Renaming) (n : Node) : (retitle r n).outside = n.outside := by
  cases n <;> rfl

theorem elements_retitle (r : Renaming) (n : Node) : (retitle r n).elements = n.elements := by
  cases n <;> rfl

theorem retitle_ne_yield (r : Renaming) (other : n ≠ .yield) : retitle r n ≠ .yield := by
  cases n with
  | yield => exact absurd rfl other
  | _ => simp [retitle]

theorem substitute_eq_replace (d : Definition) (block : List Node) (other : n ≠ .yield) :
    substitute d block n = (retitle (freshNames d) n).replace (n.outside.map (substitute d block))
      (n.elements.map (substitute d block)) := by
  refine ((substitution (freshNames d) block).run_eq_node (fun _ => rfl) n).trans ?_
  cases n with
  | yield => exact absurd rfl other
  | parameter name value => cases value <;> rfl
  | _ => rfl

theorem renameNames_eq_replace (r : Renaming) (n : Node) :
    n.renameNames r = (retitle r n).replace (n.outside.map (Node.renameNames r))
      (n.elements.map (Node.renameNames r)) := by
  refine ((Rebuilder.renameNames r).run_eq_node (fun _ => rfl) n).trans ?_
  cases n with
  | parameter name value => cases value <;> rfl
  | _ => rfl

theorem Filled.of_replace {k : Node} {outs stats outs' stats' : List Node} (other : k ≠ .yield)
    (fit : k.Fit outs stats) (outside : List.Forall₂ (Filled R) outs outs')
    (elements : List.Forall₂ (Filled R) stats stats') :
    Filled R (k.replace outs stats) (k.replace outs' stats') := by
  rw [← fit.outside_replace] at outside
  rw [← fit.elements_replace] at elements
  have filled := Filled.other (replace_ne_yield other) outside elements
  rwa [fit.replace_replace] at filled

/-- Two ways to rename code that differ only in what they put in place of a yield. -/
theorem filled_of_retitled {r : Renaming} {f g : Node → Node}
    (place : Filled R (f .yield) (g .yield))
    (hf : ∀ n, n ≠ .yield → f n = (retitle r n).replace (n.outside.map f) (n.elements.map f))
    (hg : ∀ n, n ≠ .yield → g n = (retitle r n).replace (n.outside.map g) (n.elements.map g))
    (n : Node) : Filled R (f n) (g n) := by
  induction n using induction_on_subtrees with
  | step n ih =>
    by_cases yield : n = .yield
    · subst yield
      exact place
    · rw [hf n yield, hg n yield]
      have below : ∀ ns : List Node, (∀ k ∈ ns, k ∈ n.subtrees) →
          List.Forall₂ (Filled R) (ns.map f) (ns.map g) := by
        intro ns sub
        rw [List.forall₂_map_left_iff, List.forall₂_map_right_iff, List.forall₂_same]
        exact fun k hk => ih k (sub k hk)
      refine .of_replace (retitle_ne_yield r yield) ⟨?_, ?_⟩ (below _ fun k hk => ?_)
        (below _ fun k hk => ?_)
      · rw [List.length_map, outside_retitle]
      · rw [List.length_map, elements_retitle]
      · exact mem_subtrees_of_mem_outside hk
      · exact mem_subtrees_of_mem_elements hk

theorem filled_substitute {d : Definition} {block block' : List Node}
    (h : List.Forall₂ (Filled R) block block') (n : Node) :
    Filled R (substitute d block n) (substitute d block' n) :=
  filled_of_retitled (.list h) (fun _ => substitute_eq_replace d block)
    (fun _ => substitute_eq_replace d block') n

/-- The code of a macro with a block is its renamed code with the block in its places. -/
theorem filled_renameNames {d : Definition} {content : List Node} (h : R content) (n : Node) :
    Filled R (n.renameNames (freshNames d)) (substitute d content n) :=
  filled_of_retitled (.yield h) (fun n _ => renameNames_eq_replace (freshNames d) n)
    (fun _ => substitute_eq_replace d content) n

/-! ### Settings -/

section Settings

variable {lib : Library} {d : Definition} {arguments arguments' : Node}
  {content content' : List Node}
  (passed : Filled R arguments arguments') (block : List.Forall₂ (Filled R') content content')
  (inlined : ∀ v ∈ arguments.preorder, ∀ v' w', Filled R v v' → node lib v' = .ok w' →
    ∃ w, node lib v = .ok w ∧ Filled R' w w')
include passed block inlined

theorem filled_settingValue {place : Nat} {x : String} {default : Option Node} {w' : Node}
    (h : settingValue lib d content' arguments' place x default = .ok w') :
    ∃ w, settingValue lib d content arguments place x default = .ok w ∧ Filled R' w w' := by
  have related := passed.value? x place
  have part : ∀ v, value? arguments x place = some v → v.1 ∈ arguments.preorder := by
    intro v found
    obtain ⟨name, given, -⟩ := exists_of_value? found
    exact preorder_of_given given
  rw [settingValue.eq_def] at h ⊢
  generalize value? arguments x place = given at related part ⊢
  generalize value? arguments' x place = given' at related h
  rcases given with _ | ⟨v, small⟩
  · rcases given' with _ | ⟨v', small'⟩
    · cases default with
      | none =>
        cases h
        exact ⟨.null, rfl, .other (n := .null) (by simp [Node.null]) .nil .nil⟩
      | some u =>
        cases h
        exact ⟨_, rfl, filled_substitute block u⟩
    · cases related
  · rcases given' with _ | ⟨v', small'⟩
    · cases related
    · cases related with
      | some filled => exact inlined v (part _ rfl) v' w' filled h

theorem filled_bindings {ps settings' : List Node} {place : Nat}
    (h : bindings lib d content' arguments' place ps = .ok settings') :
    ∃ settings, bindings lib d content arguments place ps = .ok settings ∧
      List.Forall₂ (Filled R') settings settings' := by
  induction ps generalizing place settings' with
  | nil =>
    rw [bindings] at h
    cases h
    exact ⟨[], by rw [bindings], .nil⟩
  | cons p ps ih =>
    cases name : parameterName? p with
    | none =>
      rw [bindings_unnamed name] at h ⊢
      exact ih h
    | some x =>
      cases p with
      | parameter _ default =>
        cases name
        rw [bindings_named] at h ⊢
        obtain ⟨w', value, h⟩ := ok_of_bind h
        obtain ⟨more', rest, h⟩ := ok_of_bind h
        cases h
        obtain ⟨w, value, filled⟩ := filled_settingValue passed block inlined value
        obtain ⟨more, rest, others⟩ := ih rest
        have target : Filled R' (.var [boundName d.name x]) (.var [boundName d.name x]) :=
          .other (n := .var [boundName d.name x]) (by simp) .nil .nil
        refine ⟨_, by rw [value, rest]; rfl, .cons ?_ others⟩
        exact .other (n := .assign (.var [boundName d.name x]) w .set) (by simp)
          (.cons target (.cons filled .nil)) .nil
      | _ => cases name

end Settings

/-! ### Inlining -/

/-- Inlining statements that fulfil `R`, with some of the macros, gives statements that fulfil
`R'`. -/
def Advances (lib : Library) (R R' : List Node → Prop) : Prop :=
  ∀ part ⊆ lib, ∀ cs cs', R cs → body part cs = .ok cs' → R' cs'

theorem Advances.mono {lib part : Library} (h : Advances lib R R') (sub : part ⊆ lib) :
    Advances part R R' := fun rest inside => h rest (List.Subset.trans inside sub)

/-- Inlining filled code gives the inlined code with its places filled. -/
def Commutes (inline : Library → Node → Except Surplus Node) (lib : Library) (n : Node) : Prop :=
  ∀ R R' n' m', Advances lib R R' → Advances lib R' R' → Filled R n n' → inline lib n' = .ok m' →
    ∃ m, inline lib n = .ok m ∧ Filled R' m m'

theorem inductive_commutes : Inductive (Commutes node) (Commutes statement) where
  parts {lib n} ofPart ofElement R R' n' m' first later filled inlined := by
    by_cases place : n = .yield
    · subst place
      obtain ⟨cs, rfl, holds⟩ := filled.exists_list
      rw [node] at inlined
      obtain ⟨cs', hcs', done⟩ := ok_of_bind inlined
      cases done
      refine ⟨.yield, by rw [node.eq_def], .yield ?_⟩
      exact first lib (List.Subset.refl lib) cs cs' holds hcs'
    · obtain ⟨outs, stats, outside, elements, rfl⟩ := filled.exists_replace place
      have fit : n.Fit outs stats := ⟨outside.length_eq.symm, elements.length_eq.symm⟩
      obtain ⟨outs', stats', ⟨ho, hs⟩, rfl⟩ := becomes_of_node inlined
      rw [fit.outside_replace, inside_replace] at ho
      rw [fit.elements_replace, inside_replace] at hs
      have first := first.mono (inside_subset lib n)
      have later := later.mono (inside_subset lib n)
      obtain ⟨ps, hps, outside⟩ := forall₂_square outside ho
        fun k hk k' l' => ofPart k hk R R' k' l' first later
      obtain ⟨qs, hqs, elements⟩ := forall₂_square elements hs
        fun k hk k' l' => ofElement k hk R R' k' l' first later
      have becomes : Becomes lib n ps qs := ⟨hps, hqs⟩
      refine ⟨n.replace ps qs, becomes.node_eq, ?_⟩
      rw [fit.replace_replace]
      exact .of_replace place becomes.fit outside elements
  kept {lib n} absent own R R' n' m' first later filled inlined := by
    have absent' := absent
    rw [← filled.statementCallee?] at absent'
    rw [statement_of_absent absent'] at inlined
    rw [statement_of_absent absent]
    exact own R R' n' m' first later filled inlined
  expanded {lib n arguments c block d} called found ofBlock ofArgument ofCode R R' n' m' first later
      filled inlined := by
    obtain ⟨arguments', block', called', passed, given⟩ := filled.exists_filled_call called
    obtain ⟨content', settings', statements', rfl, expands⟩ :=
      called'.exists_expands found inlined
    -- The block of the call, and then the settings, which may use it for a default.
    obtain ⟨content, hcontent, contents⟩ := forall₂_square given (body_eq_ok_iff.mp expands.inner)
      fun k hk k' l' => ofBlock k hk R R' k' l' first later
    obtain ⟨settings, hsettings, sets⟩ := filled_bindings passed contents
      (fun v hv v' w' => ofArgument v hv R R' v' w' first later) expands.bound
    -- In the code of the macro the block is inlined already.
    have substituted : List.Forall₂ (Filled R') (d.body.map (substitute d content))
        (d.body.map (substitute d content')) := by
      rw [List.forall₂_map_left_iff, List.forall₂_map_right_iff, List.forall₂_same]
      exact fun b _ => filled_substitute contents b
    have rest := later.mono (without_subset lib c)
    obtain ⟨statements, hstatements, codes⟩ := forall₂_square substituted
      (body_eq_ok_iff.mp expands.code) fun k _ k' l' => ofCode k R' R' k' l' rest rest
    refine ⟨.list (settings ++ statements), ?_, .list (List.rel_append sets codes)⟩
    rw [called.statement_eq found]
    refine expand_eq_ok_iff.mpr ⟨content, settings, statements, rfl, ?_,
      body_eq_ok_iff.mpr hcontent, hsettings, body_eq_ok_iff.mpr hstatements⟩
    rw [passed.positionals.length_eq]
    exact expands.few

theorem filled_of_statement {lib : Library} {R R' : List Node → Prop} {n n' m' : Node}
    (first : Advances lib R R') (later : Advances lib R' R') (filled : Filled R n n')
    (inlined : statement lib n' = .ok m') : ∃ m, statement lib n = .ok m ∧ Filled R' m m' :=
  inductive_commutes.statement lib n R R' n' m' first later filled inlined

end TagCompiler.Inlining
