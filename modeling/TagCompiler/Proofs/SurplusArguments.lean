import TagCompiler.Proofs.FilledPlaces
import TagCompiler.Proofs.LoadedData
/-!
# Calls with too many arguments

Inlining fails in one place: where a call that is to be expanded passes more positional arguments
than its macro declares. Such a call may stand in the code of a macro, in a block that was injected
there, or in what became of either before. This module follows it back to a statement of the
template, with the same macro and as many arguments. The other way round, every call of a template
is met if no macro leads back to itself, so one call with too many arguments is enough to fail.
-/

namespace TagCompiler.Inlining

open Grammar Node

/-! ### How inlining fails -/

theorem error_of_bind {ε α β : Type} {x : Except ε α} {f : α → Except ε β} {e : ε}
    (h : (x >>= f) = .error e) : x = .error e ∨ ∃ a, x = .ok a ∧ f a = .error e := by
  cases x with
  | error e' =>
    cases h
    exact .inl rfl
  | ok a => exact .inr ⟨a, rfl, h⟩

section Errors

variable {lib : Library} {e : Surplus}

theorem error_of_all {ns : List Node} (h : all lib ns = .error e) :
    ∃ n ∈ ns, node lib n = .error e := by
  induction ns with
  | nil =>
    rw [all] at h
    cases h
  | cons n ns ih =>
    rw [all] at h
    rcases error_of_bind h with first | ⟨m, -, h⟩
    · exact ⟨n, List.mem_cons_self, first⟩
    · rcases error_of_bind h with later | ⟨ms, -, h⟩
      · obtain ⟨k, hk, failed⟩ := ih later
        exact ⟨k, List.mem_cons_of_mem n hk, failed⟩
      · cases h

theorem error_of_body {ns : List Node} (h : body lib ns = .error e) :
    ∃ n ∈ ns, statement lib n = .error e := by
  induction ns with
  | nil =>
    rw [body] at h
    cases h
  | cons n ns ih =>
    rw [body] at h
    rcases error_of_bind h with first | ⟨m, -, h⟩
    · exact ⟨n, List.mem_cons_self, first⟩
    · rcases error_of_bind h with later | ⟨ms, -, h⟩
      · obtain ⟨k, hk, failed⟩ := ih later
        exact ⟨k, List.mem_cons_of_mem n hk, failed⟩
      · cases h

/-- A node fails with one of its parts. -/
theorem error_of_node {n : Node} (h : node lib n = .error e) :
    (∃ k ∈ n.outside, node (inside lib n) k = .error e) ∨
      ∃ k ∈ n.elements, statement (inside lib n) k = .error e := by
  cases n with
  | parameter name value =>
    cases value with
    | none =>
      rw [node.eq_def] at h
      cases h
    | some v =>
      rw [node] at h
      rcases error_of_bind h with failed | ⟨_, -, h⟩
      · exact .inl ⟨v, Option.mem_toList.mpr rfl, failed⟩
      · cases h
  | parameters cs | array cs | condition cs | expression cs | group cs | output cs =>
    rw [node] at h
    rcases error_of_bind h with failed | ⟨_, -, h⟩
    · exact .inl (error_of_all failed)
    · cases h
  | call name p cs | macroDef name p cs doc | loop key item p cs =>
    rw [node] at h
    rcases error_of_bind h with failed | ⟨_, -, h⟩
    · exact .inl ⟨p, List.mem_cons_self, failed⟩
    · rcases error_of_bind h with failed | ⟨_, -, h⟩
      · exact .inr (error_of_body failed)
      · cases h
  | assign p q op | filter name p q =>
    rw [node] at h
    rcases error_of_bind h with failed | ⟨_, -, h⟩
    · exact .inl ⟨p, List.mem_cons_self, failed⟩
    · rcases error_of_bind h with failed | ⟨_, -, h⟩
      · exact .inl ⟨q, List.mem_cons_of_mem p List.mem_cons_self, failed⟩
      · cases h
  | branch c ys ns =>
    rw [node] at h
    rcases error_of_bind h with failed | ⟨_, -, h⟩
    · exact .inl ⟨c, List.mem_cons_self, failed⟩
    · rcases error_of_bind h with failed | ⟨_, -, h⟩
      · obtain ⟨k, hk, failed⟩ := error_of_body failed
        exact .inr ⟨k, List.mem_append_left ns hk, failed⟩
      · rcases error_of_bind h with failed | ⟨_, -, h⟩
        · obtain ⟨k, hk, failed⟩ := error_of_body failed
          exact .inr ⟨k, List.mem_append_right ys hk, failed⟩
        · cases h
  | list cs =>
    rw [node] at h
    rcases error_of_bind h with failed | ⟨_, -, h⟩
    · exact .inr (error_of_body failed)
    · cases h
  | data | literal | text | var | operator | connective | yield =>
    rw [node.eq_def] at h
    cases h

theorem error_of_bindings {d : Definition} {content ps : List Node} {arguments : Node} {place : Nat}
    (h : bindings lib d content arguments place ps = .error e) :
    ∃ v ∈ arguments.preorder, node lib v = .error e := by
  induction ps generalizing place with
  | nil =>
    rw [bindings] at h
    cases h
  | cons p ps ih =>
    cases name : parameterName? p with
    | none =>
      rw [bindings_unnamed name] at h
      exact ih h
    | some x =>
      cases p with
      | parameter _ default =>
        cases name
        rw [bindings_named] at h
        rcases error_of_bind h with failed | ⟨_, -, h⟩
        · rw [settingValue.eq_def] at failed
          generalize passed : value? arguments x place = given at failed
          rcases given with _ | v
          · cases default <;> cases failed
          · obtain ⟨name, given, -⟩ := exists_of_value? passed
            exact ⟨v.1, preorder_of_given given, failed⟩
        · rcases error_of_bind h with later | ⟨_, -, h⟩
          · exact ih later
          · cases h
      | _ => cases name

/-- Why a call of the macro `d` cannot be expanded. -/
inductive ExpansionError (lib rest : Library) (d : Definition) (arguments : Node)
    (block : List Node) (e : Surplus) : Prop
  | surplus (many : d.declared.length < (positionals arguments).length)
      (own : e = ⟨d.name, (positionals arguments).length, d.declared.length⟩)
  | block {k : Node} (part : k ∈ block) (failed : statement lib k = .error e)
  | argument {v : Node} (part : v ∈ arguments.preorder) (failed : node lib v = .error e)
  | code {content : List Node} {b : Node} (inner : body lib block = .ok content) (part : b ∈ d.body)
      (failed : statement rest (substitute d content b) = .error e)

theorem error_of_expand {extracted : lib.Extracted} {arguments : Node} {block : List Node}
    (h : expand lib extracted arguments block = .error e) :
    ExpansionError lib extracted.rest extracted.definition arguments block e := by
  rw [expand] at h
  dsimp only at h
  split at h
  · rename_i many
    exact .surplus many (Except.error.inj h).symm
  · rcases error_of_bind h with failed | ⟨content, inner, h⟩
    · obtain ⟨k, hk, failed⟩ := error_of_body failed
      exact .block hk failed
    · rcases error_of_bind h with failed | ⟨settings, -, h⟩
      · obtain ⟨v, hv, failed⟩ := error_of_bindings failed
        exact .argument hv failed
      · rcases error_of_bind h with failed | ⟨statements, -, h⟩
        · obtain ⟨k, hk, failed⟩ := error_of_body failed
          obtain ⟨b, hb, rfl⟩ := List.mem_map.mp hk
          exact .code inner hb failed
        · cases h

end Errors

/-! ### The number of arguments -/

/-- The second node counts like the first one among arguments, and has as many positional ones. -/
structure SameCount (n m : Node) : Prop where
  positional : isPositional m = isPositional n
  count : (positionals m).length = (positionals n).length

theorem SameCount.refl (n : Node) : SameCount n n := ⟨rfl, rfl⟩

theorem SameCount.trans {n m k : Node} (h : SameCount n m) (h' : SameCount m k) : SameCount n k :=
  ⟨h'.positional.trans h.positional, h'.count.trans h.count⟩

theorem SameCount.replace {n : Node} {outs : List Node} (stats : List Node)
    (parts : List.Forall₂ SameCount n.outside outs) : SameCount n (n.replace outs stats) := by
  cases n with
  | parameters cs =>
    have related := forall₂_filter parts fun k k' same => same.positional
    exact ⟨rfl, related.length_eq.symm⟩
  | call name p cs | macroDef name p cs doc =>
    obtain _ | ⟨hp, ⟨⟩⟩ := parts
    exact ⟨rfl, hp.count⟩
  | filter name v p =>
    obtain _ | ⟨hv, _ | ⟨hp, ⟨⟩⟩⟩ := parts
    exact ⟨rfl, hp.count⟩
  | parameter name value =>
    cases value with
    | none => exact .refl _
    | some v => cases name <;> exact ⟨rfl, rfl⟩
  | _ => exact ⟨rfl, rfl⟩

theorem sameCount_of_node {lib : Library} {n m : Node} (h : node lib n = .ok m) :
    SameCount n m := by
  induction n using induction_on_subtrees generalizing lib m with
  | step n ih =>
    obtain ⟨outs, stats, becomes, rfl⟩ := becomes_of_node h
    refine .replace stats (forall₂_imp_of_mem becomes.outs fun k hk k' inlined => ?_)
    exact ih k (mem_subtrees_of_mem_outside hk) inlined

theorem sameCount_retitle (r : Renaming) (n : Node) : SameCount n (retitle r n) := by
  cases n <;> exact ⟨rfl, rfl⟩

theorem sameCount_substitute (d : Definition) (content : List Node) (n : Node) :
    SameCount n (substitute d content n) := by
  induction n using induction_on_subtrees with
  | step n ih =>
    by_cases yield : n = .yield
    · subst yield
      exact ⟨rfl, rfl⟩
    · rw [substitute_eq_replace d content yield]
      refine (sameCount_retitle _ n).trans (.replace _ ?_)
      rw [outside_retitle, List.forall₂_map_right_iff, List.forall₂_same]
      exact fun k hk => ih k (mem_subtrees_of_mem_outside hk)

/-- What is a call after inlining was one before, with as many arguments. -/
theorem exists_call_of_node {lib : Library} {n m arguments : Node} {c : String} {block : List Node}
    (h : node lib n = .ok m) (called : IsCallOf c arguments block m) :
    ∃ a b, IsCallOf c a b n ∧ (positionals arguments).length = (positionals a).length := by
  cases called with
  | call =>
    obtain ⟨a, b, rfl⟩ := call_of_node h
    exact ⟨a, b, .call, (sameCount_of_node h).count⟩
  | output =>
    obtain ⟨outs, stats, becomes, same⟩ := becomes_of_node h
    cases n with
    | output cs =>
      cases same
      obtain _ | ⟨part, ⟨⟩⟩ := becomes.outs
      obtain ⟨a, b, rfl⟩ := call_of_node part
      exact ⟨a, b, .output, (sameCount_of_node part).count⟩
    | parameter name value => cases value <;> cases same
    | _ => cases same

theorem exists_call_of_substitute {d : Definition} {content block : List Node} {n arguments : Node}
    {c : String} (called : IsCallOf c arguments block (substitute d content n)) :
    ∃ a b, IsCallOf c a b n ∧ (positionals arguments).length = (positionals a).length := by
  have callee := called.statementCallee?
  rw [statementCallee?_substitute] at callee
  obtain ⟨a, b, own⟩ := exists_isCallOf callee
  refine ⟨a, b, own, ?_⟩
  have count := (sameCount_substitute d content a).count
  generalize made : substitute d content n = m at called
  cases own with
  | call =>
    cases called with
    | call =>
      cases made
      exact count
    | output => cases made
  | output =>
    cases called with
    | call => cases made
    | output =>
      cases made
      exact count

/-! ### Calls of the template -/

/-- Some statement in the tree is nothing but a call of `c` with this many positional arguments. -/
def CallsWith (t : Node) (c : String) (given : Nat) : Prop :=
  ∃ k ∈ t.preorder, ∃ s ∈ k.elements, ∃ arguments block, IsCallOf c arguments block s ∧
    (positionals arguments).length = given

/-- In the tree a statement calls `c` with `given` positional arguments, and the first definition of
`c` declares fewer parameters. -/
structure SurplusCall (t : Node) (c : String) (given declared : Nat) : Prop where
  call : CallsWith t c given
  first : ∃ d, t.preorder.find? (·.macroName? == some c) = some d ∧
    d.parameterList.length = declared
  many : declared < given

/-- If the statement is a call, the tree has one like it. -/
def OfTree (t s : Node) : Prop :=
  ∀ c arguments block, IsCallOf c arguments block s → CallsWith t c (positionals arguments).length

/-- Every call that is a statement of the code has one like it in the tree. -/
def Traced (t n : Node) : Prop := ∀ k ∈ n.preorder, ∀ s ∈ k.elements, OfTree t s

section Traced

variable {t n : Node}

theorem traced_self (t : Node) : Traced t t :=
  fun k hk s hs _ arguments block called => ⟨k, hk, s, hs, arguments, block, called, rfl⟩

theorem traced_iff : Traced t n ↔ (∀ s ∈ n.elements, OfTree t s) ∧ ∀ k ∈ n.subtrees, Traced t k :=
  forall_preorder_iff

theorem Traced.part {k : Node} (h : Traced t n) (hk : k ∈ n.preorder) : Traced t k :=
  fun j hj => h j (preorder_trans hk hj)

theorem traced_list {ns : List Node} :
    Traced t (.list ns) ↔ ∀ s ∈ ns, OfTree t s ∧ Traced t s :=
  traced_iff.trans forall₂_and.symm

theorem Traced.element {k : Node} (h : Traced t n) (hk : k ∈ n.elements) :
    OfTree t k ∧ Traced t k := by
  exact ⟨(traced_iff.mp h).1 k hk, (traced_iff.mp h).2 k (mem_subtrees_of_mem_elements hk)⟩

theorem Traced.block {c : String} {arguments : Node} {block : List Node} (h : Traced t n)
    (called : IsCallOf c arguments block n) : ∀ k ∈ block, OfTree t k ∧ Traced t k :=
  fun _ => (h.part called.mem_preorder).element

theorem Traced.argument {c : String} {arguments v : Node} {block : List Node} (h : Traced t n)
    (called : IsCallOf c arguments block n) (hv : v ∈ arguments.preorder) : Traced t v :=
  (h.part called.mem_preorder).part (preorder_subset List.mem_cons_self hv)

theorem OfTree.node {lib : Library} {m : Node} (h : OfTree t n) (inlined : node lib n = .ok m) :
    OfTree t m := by
  intro c arguments block called
  obtain ⟨a, b, own, count⟩ := exists_call_of_node inlined called
  exact count ▸ h c a b own

theorem OfTree.substitute (d : Definition) (content : List Node) (h : OfTree t n) :
    OfTree t (substitute d content n) := by
  intro c arguments block called
  obtain ⟨a, b, own, count⟩ := exists_call_of_substitute called
  exact count ▸ h c a b own

theorem Traced.substitute (d : Definition) {content : List Node}
    (given : ∀ s ∈ content, OfTree t s ∧ Traced t s) (h : Traced t n) :
    Traced t (substitute d content n) := by
  intro k hk s hs
  rcases mem_preorder_substitute d content hk with ⟨j, hj, rfl⟩ | ⟨b, hb, below⟩
  · by_cases yield : j = .yield
    · subst yield
      exact (given s hs).1
    · rw [elements_eq, bodies_substitute d content yield, ← List.map_flatten, ← elements_eq] at hs
      obtain ⟨i, hi, rfl⟩ := List.mem_map.mp hs
      exact (h j hj i hi).substitute d content
  · exact (given b hb).2 k below s hs

end Traced

/-! ### Definitions of the template -/

/-- The macros that are left in the library are first definitions of the tree. -/
def DrawnFrom (t : Node) (lib : Library) : Prop :=
  ∀ c d, lib.find? c = some d → (Library.ofTree t).find? c = some d

section DrawnFrom

variable {t : Node} {lib : Library} {c : String} {d : Definition}

theorem DrawnFrom.without (h : DrawnFrom t lib) (m : String) : DrawnFrom t (lib.without m) := by
  intro c d found
  refine h c d ?_
  by_cases same : c = m
  · have other := (List.mem_filter.mp (List.mem_of_find?_eq_some found)).2
    rw [Meaning.name_of_find? found, same] at other
    simp at other
  · rwa [Meaning.find?_without same] at found

theorem DrawnFrom.enter (h : DrawnFrom t lib) (n : Node) : DrawnFrom t (inside lib n) := by
  cases n with
  | macroDef name => exact h.without name
  | _ => exact h

/-- The library of a tree finds the first definition of the tree. -/
theorem find?_ofTree (t : Node) (c : String) : (Library.ofTree t).find? c =
    (t.preorder.find? (·.macroName? == some c)).bind Definition.ofNode? := by
  unfold Library.find? Library.ofTree
  rw [List.find?_filterMap]
  refine congrArg (fun p => (t.preorder.find? p).bind Definition.ofNode?) (funext fun n => ?_)
  cases n <;> simp [Definition.ofNode?, macroName?]

theorem exists_first (h : (Library.ofTree t).find? c = some d) :
    ∃ doc, t.preorder.find? (·.macroName? == some c) =
      some (.macroDef d.name d.parameters d.body doc) := by
  rw [find?_ofTree] at h
  obtain ⟨n, first, made⟩ := Option.bind_eq_some_iff.mp h
  cases n with
  | macroDef name p body doc =>
    cases made
    exact ⟨doc, first⟩
  | _ => cases made

theorem exists_find?_ofTree {n : Node}
    (first : t.preorder.find? (·.macroName? == some c) = some n) :
    ∃ d, (Library.ofTree t).find? c = some d ∧ d.declared = n.parameterList := by
  have named := List.find?_some first
  rw [find?_ofTree, first]
  cases n with
  | macroDef name p body doc => exact ⟨⟨name, p, body⟩, rfl, rfl⟩
  | _ => cases named

/-- The code of a macro of the tree is part of the tree. -/
theorem traced_definition (h : (Library.ofTree t).find? c = some d) :
    Traced t d.parameters ∧ ∀ b ∈ d.body, OfTree t b ∧ Traced t b := by
  obtain ⟨doc, first⟩ := exists_first h
  have inTree := (traced_self t).part (List.mem_of_find?_eq_some first)
  exact ⟨(traced_iff.mp inTree).2 _ List.mem_cons_self, fun _ => inTree.element⟩

end DrawnFrom

/-! ### Failures come from the template -/

/-- The result satisfies `P`, and an error is that of a call of the tree. -/
structure Finishes (t : Node) (P : Node → Prop) (x : Except Surplus Node) : Prop where
  ok : ∀ {m}, x = .ok m → P m
  error : ∀ {e}, x = .error e → SurplusCall t e.callee e.given e.declared

section Failures

variable {t : Node}

theorem traced_setting {lib : Library} {d : Definition} {content ps : List Node}
    {arguments v : Node} {x : String}
    (passed : ∀ w ∈ arguments.preorder, ∀ v, node lib w = .ok v → Traced t v)
    (declared : ∀ p ∈ ps, Traced t p) (given : ∀ s ∈ content, OfTree t s ∧ Traced t s)
    (h : Setting lib d content arguments ps x v) : Traced t v := by
  cases h with
  | passed _ argument _ inlined => exact passed _ (preorder_of_given argument) _ inlined
  | @default w default =>
    have own : Traced t w := (traced_iff.mp (declared _ default)).2 w (by simp [subtrees])
    exact own.substitute d given
  | null =>
    exact traced_iff.mpr ⟨by simp [Node.null, elements], by simp [Node.null, subtrees, children]⟩

theorem traced_assign {x : String} {v : Node} (h : Traced t v) :
    OfTree t (.assign (.var [x]) v .set) ∧ Traced t (.assign (.var [x]) v .set) := by
  refine ⟨fun c a b called => (by cases called), traced_iff.mpr ⟨by simp [elements], ?_⟩⟩
  have target : Traced t (.var [x]) :=
    traced_iff.mpr ⟨by simp [elements], by simp [subtrees, children]⟩
  simpa [subtrees] using ⟨target, h⟩

/-- What becomes of code whose calls are traced to the tree has such calls again, and where inlining
fails, it fails for one of them. -/
theorem inductive_ends (t : Node) : Inductive
    (fun lib n => DrawnFrom t lib → Traced t n → Finishes t (Traced t) (node lib n))
    fun lib n => DrawnFrom t lib → OfTree t n ∧ Traced t n →
      Finishes t (fun m => OfTree t m ∧ Traced t m) (statement lib n) where
  parts {lib n} outside elements drawn traced := by
    have drawn := drawn.enter n
    have ofPart := fun k hk => outside k hk drawn
      ((traced_iff.mp traced).2 k (mem_subtrees_of_mem_outside hk))
    have ofElement := fun k hk => elements k hk drawn (traced.element hk)
    refine ⟨fun {m} done => ?_, fun {e} failed => ?_⟩
    · obtain ⟨outs, stats, becomes, rfl⟩ := becomes_of_node done
      have own : ∀ s ∈ stats, OfTree t s ∧ Traced t s := by
        intro s hs
        obtain ⟨k, hk, stated⟩ := exists_of_mem_right becomes.stats hs
        exact (ofElement k hk).ok stated
      refine traced_iff.mpr ⟨fun s hs => ?_, fun k hk => ?_⟩
      · rw [becomes.fit.elements_replace] at hs
        exact (own s hs).1
      · rw [becomes.fit.subtrees_replace] at hk
        rcases List.mem_append.mp hk with hk | hk
        · obtain ⟨j, hj, inlined⟩ := exists_of_mem_right becomes.outs hk
          exact (ofPart j hj).ok inlined
        · exact (own k hk).2
    · rcases error_of_node failed with ⟨k, hk, failed⟩ | ⟨k, hk, failed⟩
      · exact (ofPart k hk).error failed
      · exact (ofElement k hk).error failed
  kept {lib n} absent inner drawn traced := by
    have ends := inner drawn traced.2
    rw [statement_of_absent absent]
    exact ⟨fun done => ⟨traced.1.node done, ends.ok done⟩, ends.error⟩
  expanded {lib n arguments c block d} called found ofBlock ofArgument ofCode drawn traced := by
    have first := drawn c d found
    obtain ⟨declared, code⟩ := traced_definition first
    have ofBlock := fun k hk => ofBlock k hk drawn (traced.2.block called k hk)
    have ofArgument := fun v hv => ofArgument v hv drawn (traced.2.argument called hv)
    have inContent : ∀ {content}, body lib block = .ok content →
        ∀ s ∈ content, OfTree t s ∧ Traced t s := by
      intro content inner s hs
      obtain ⟨k, hk, stated⟩ := exists_of_mem_right (body_eq_ok_iff.mp inner) hs
      exact (ofBlock k hk).ok stated
    have ofCode := fun {content} inner b hb => ofCode (substitute d content b) (drawn.without c)
      ⟨(code b hb).1.substitute d content, (code b hb).2.substitute d (inContent inner)⟩
    rw [called.statement_eq found]
    refine ⟨fun {m} done => ?_, fun {e} failed => ?_⟩
    · obtain ⟨content, settings, statements, rfl, expands⟩ := expand_eq_ok_iff.mp done
      refine ⟨fun _ _ _ listed => (by cases listed), traced_list.mpr fun s hs => ?_⟩
      rcases List.mem_append.mp hs with hs | hs
      · obtain ⟨x, v, rfl, setting⟩ := mem_of_bindings expands.bound s hs
        refine traced_assign (traced_setting (fun w hw v inlined => ?_) (fun p hp => ?_)
          (inContent expands.inner) setting)
        · exact (ofArgument w hw).ok inlined
        · exact declared.part (preorder_of_parameterList hp)
      · obtain ⟨k, hk, stated⟩ := exists_of_mem_right (body_eq_ok_iff.mp expands.code) hs
        obtain ⟨b, hb, rfl⟩ := List.mem_map.mp hk
        exact (ofCode expands.inner b hb).ok stated
    · cases error_of_expand failed with
      | surplus many own =>
        subst own
        obtain ⟨doc, definition⟩ := exists_first first
        obtain rfl := Meaning.name_of_find? found
        exact ⟨traced.1 _ _ _ called, ⟨_, definition, rfl⟩, many⟩
      | block part failed => exact (ofBlock _ part).error failed
      | argument part failed => exact (ofArgument _ part).error failed
      | code inner part failed => exact (ofCode inner _ part).error failed

/-- Inlining a tree fails only for one of its own calls. -/
theorem surplusCall_of_node {e : Surplus} (h : node (.ofTree t) t = .error e) :
    SurplusCall t e.callee e.given e.declared :=
  ((inductive_ends t).node (.ofTree t) t (fun _ _ => id) (traced_self t)).error h

end Failures

/-! ### Calls that are met -/

/-- The statement is no call with too many arguments. -/
def Spares (t s : Node) : Prop :=
  ∀ c arguments block d, IsCallOf c arguments block s → (Library.ofTree t).find? c = some d →
    (positionals arguments).length ≤ d.declared.length

/-- No statement of the code is a call with too many arguments. -/
def Sparing (t n : Node) : Prop := ∀ k ∈ n.preorder, ∀ s ∈ k.elements, Spares t s

/-- The arguments of calls are expressions. -/
def PlainArguments (n : Node) : Prop :=
  ∀ c arguments block, .call c arguments block ∈ n.preorder → IsExpressionTree arguments

section Met

variable {t n : Node}

theorem sparing_iff :
    Sparing t n ↔ (∀ s ∈ n.elements, Spares t s) ∧ ∀ k ∈ n.subtrees, Sparing t k :=
  forall_preorder_iff

theorem sparing_of_isExpressionTree (h : IsExpressionTree n) : Sparing t n := by
  intro k hk s hs
  have part := h k hk
  cases k with
  | call name p block =>
    obtain rfl := List.isEmpty_iff.mp part
    cases hs
  | macroDef | branch | loop | list => cases part
  | _ => cases hs

theorem PlainArguments.part {k : Node} (h : PlainArguments n) (hk : k ∈ n.preorder) :
    PlainArguments k := fun c arguments block hc => h c arguments block (preorder_trans hk hc)

theorem PlainArguments.subtree {k : Node} (h : PlainArguments n) (hk : k ∈ n.subtrees) :
    PlainArguments k := h.part (preorder_subset hk k.mem_preorder_self)

theorem sparing_of_isCallOf {c : String} {arguments : Node} {block : List Node}
    (called : IsCallOf c arguments block n) (expression : IsExpressionTree arguments)
    (given : ∀ k ∈ block, Spares t k ∧ Sparing t k) : Sparing t n := by
  have call : Sparing t (.call c arguments block) := by
    refine sparing_iff.mpr ⟨fun s hs => (given s hs).1, List.forall_mem_cons.mpr ⟨?_, ?_⟩⟩
    · exact sparing_of_isExpressionTree expression
    · exact fun k hk => (given k hk).2
  cases called with
  | call => exact call
  | output => exact sparing_iff.mpr ⟨by simp [elements], List.forall_mem_singleton.mpr call⟩

/-- Where inlining succeeds and no macro leads back to itself, every call was met, and none has too
many arguments. -/
theorem inductive_sparing (acyclic : ∀ m, ¬ Relation.TransGen t.Invokes m m) : Inductive
    (fun lib n => DrawnFrom t lib → Inlinable t lib n → PlainArguments n →
      (∃ m, node lib n = .ok m) → Sparing t n)
    fun lib n => DrawnFrom t lib → Inlinable t lib (.list [n]) → PlainArguments n →
      (∃ m, statement lib n = .ok m) → Spares t n ∧ Sparing t n where
  parts {lib n} outside elements drawn ready plain := by
    rintro ⟨m, done⟩
    obtain ⟨outs, stats, becomes, -⟩ := becomes_of_node done
    have drawn := drawn.enter n
    have ofElement : ∀ k ∈ n.elements, Spares t k ∧ Sparing t k := by
      intro k hk
      obtain ⟨k', -, stated⟩ := exists_of_mem_right becomes.stats.flip hk
      have plain := plain.subtree (mem_subtrees_of_mem_elements hk)
      exact elements k hk drawn (ready.enter.statement hk) plain ⟨k', stated⟩
    refine sparing_iff.mpr ⟨fun k hk => (ofElement k hk).1, fun k hk => ?_⟩
    rw [subtrees_eq_append] at hk
    rcases List.mem_append.mp hk with hk | hk
    · obtain ⟨k', -, inlined⟩ := exists_of_mem_right becomes.outs.flip hk
      have below := mem_subtrees_of_mem_outside hk
      have ready := ready.enter.of_mem_preorder (preorder_subset below k.mem_preorder_self)
      exact outside k hk drawn ready (plain.subtree below) ⟨k', inlined⟩
    · exact (ofElement k hk).2
  kept {lib n} absent inner drawn ready plain := by
    rintro ⟨m, done⟩
    rw [statement_of_absent absent] at done
    refine ⟨fun c arguments block d called first => ?_,
      inner drawn (ready.of_statement n.mem_preorder_self) plain ⟨m, done⟩⟩
    -- A macro that is called and out of the library would lead to itself.
    have known : c ∈ t.definedMacros := by
      obtain ⟨doc, definition⟩ := exists_first first
      obtain rfl := Meaning.name_of_find? first
      exact mem_definedMacros (List.mem_of_find?_eq_some definition) rfl
    have here := mem_statementCallees_singleton.mpr (.inl called.statementCallee?)
    exact absurd (ready.leads c here known c ⟨known, absent c called.statementCallee?⟩) (acyclic c)
  expanded {lib n arguments c block d} called found ofBlock _ _ drawn ready plain := by
    rintro ⟨m, done⟩
    obtain ⟨content, settings, statements, -, expands⟩ := called.exists_expands found done
    refine ⟨fun c' arguments' block' d' called' first => ?_, ?_⟩
    · have same : c' = c ∧ arguments' = arguments := by
        cases called <;> cases called' <;> exact ⟨rfl, rfl⟩
      obtain ⟨rfl, rfl⟩ := same
      obtain rfl := Option.some.inj ((drawn c' d found).symm.trans first)
      exact expands.few
    · refine sparing_of_isCallOf called (plain c arguments block called.mem_preorder) fun k hk => ?_
      obtain ⟨k', -, stated⟩ := exists_of_mem_right (body_eq_ok_iff.mp expands.inner).flip hk
      have inCall : k ∈ (Node.call c arguments block).subtrees := List.mem_cons_of_mem _ hk
      have below := preorder_trans called.mem_preorder (preorder_subset inCall k.mem_preorder_self)
      have ofCall := ready.of_statement called.mem_preorder
      exact ofBlock k hk drawn (ofCall.statement hk) (plain.part below) ⟨k', stated⟩

end Met

theorem plainArguments_of_parse {source : String} {t : Node} (h : Template.parse source = .ok t) :
    PlainArguments t := by
  intro c arguments block hk
  obtain ⟨args, -, expression⟩ :=
    ModelLoading.exists_of_isPart_call ((isPart_of_parse h).of_mem_preorder hk)
  exact expression

theorem error_of_surplusCall {source : String} {t : Node} {c : String} {given declared : Nat}
    (parsed : Template.parse source = .ok t) (acyclic : ∀ m, ¬ Relation.TransGen t.Invokes m m)
    (surplus : SurplusCall t c given declared) : ∃ e, node (.ofTree t) t = .error e := by
  cases done : node (.ofTree t) t with
  | error e => exact ⟨e, rfl⟩
  | ok m =>
    have sparing := (inductive_sparing acyclic).node (.ofTree t) t (fun _ _ => id)
      (inlinable_ofTree t) (plainArguments_of_parse parsed) ⟨m, done⟩
    obtain ⟨⟨k, hk, s, hs, arguments, block, called, rfl⟩, ⟨n, first, rfl⟩, many⟩ := surplus
    obtain ⟨d, found, same⟩ := exists_find?_ofTree first
    exact absurd (same ▸ sparing k hk s hs c arguments block d called found) (Nat.not_le.mpr many)

theorem run_inline_error_iff {external : Bool} {t : Node} {e : CompileError}
    {before after : Memory} :
    ((Pass.inline external).run none t).run before = (.error e, after) ↔
      ∃ s, node (.ofTree t) t = .error s ∧ e = .surplus s ∧ after = before := by
  rw [run_inline, Node.inline]
  cases done : node (.ofTree t) t with
  | ok m =>
    refine ⟨fun run => (by cases run), ?_⟩
    rintro ⟨s, failed, -⟩
    cases failed
  | error s =>
    constructor
    · intro run
      cases run
      exact ⟨s, rfl, rfl, rfl⟩
    · rintro ⟨s', failed, rfl, rfl⟩
      cases failed
      rfl

/-- The message of the error names the pass and the call. -/
theorem message_surplus (external : Bool) (s : Surplus) (arguments : Node) (block : List Node) :
    (CompileError.surplus s).message = "Pass '" ++ (Pass.inline external).name ++
      "' cannot rewrite " ++ (Node.call s.callee arguments block).label ++ ": " ++ s.reason := by
  have start : "Pass 'inline' cannot rewrite CallNode '" =
      "Pass '" ++ "inline" ++ "' cannot rewrite " ++ "CallNode" ++ " '" := by decide
  have close : "': " = "'" ++ ": " := by decide
  show "Pass 'inline' cannot rewrite CallNode '" ++ s.callee ++ "': " ++ s.reason =
    "Pass '" ++ "inline" ++ "' cannot rewrite " ++ ("CallNode" ++ " '" ++ s.callee ++ "'") ++
      ": " ++ s.reason
  rw [start, close]
  simp only [String.append_assoc]

/-- Inlining a template without content fails only if some statement of it is a call with more
positional arguments than the first definition of the macro declares, and the error names that call.
If no macro of the template leads back to itself, then it fails exactly if there is such a call. -/
theorem inline_fails_on_surplus {source : String} {t : Node}
    (parsed : Template.parse source = .ok t) (external : Bool) (before : Memory) :
    (∀ e after, ((Pass.inline external).run none t).run before = (.error e, after) →
      after = before ∧ ∃ c given declared, SurplusCall t c given declared ∧
        e = .surplus ⟨c, given, declared⟩ ∧ ∀ arguments block,
          e.message = "Pass '" ++ (Pass.inline external).name ++ "' cannot rewrite " ++
            (Node.call c arguments block).label ++ ": " ++ Surplus.reason ⟨c, given, declared⟩) ∧
    ((∀ m, ¬ Relation.TransGen t.Invokes m m) →
      ((∃ e after, ((Pass.inline external).run none t).run before = (.error e, after)) ↔
        ∃ c given declared, SurplusCall t c given declared)) := by
  have only : ∀ e after, ((Pass.inline external).run none t).run before = (.error e, after) →
      after = before ∧
        ∃ s : Surplus, SurplusCall t s.callee s.given s.declared ∧ e = .surplus s := by
    intro e after run
    obtain ⟨s, failed, rfl, rfl⟩ := run_inline_error_iff.mp run
    exact ⟨rfl, s, surplusCall_of_node failed, rfl⟩
  refine ⟨fun e after run => ?_, fun acyclic => ⟨?_, ?_⟩⟩
  · obtain ⟨same, s, surplus, rfl⟩ := only e after run
    exact ⟨same, s.callee, s.given, s.declared, surplus, rfl, message_surplus external s⟩
  · rintro ⟨e, after, run⟩
    obtain ⟨-, s, surplus, -⟩ := only e after run
    exact ⟨s.callee, s.given, s.declared, surplus⟩
  · rintro ⟨c, given, declared, surplus⟩
    obtain ⟨s, failed⟩ := error_of_surplusCall parsed acyclic surplus
    exact ⟨.surplus s, before, run_inline_error_iff.mpr ⟨s, failed, rfl, rfl⟩⟩

/-! ### A macro that is defined twice -/

namespace TwiceDefined

def define (ps : List String) : Node :=
  .macroDef "m" (.parameters (ps.map fun x => .parameter (some x) none)) [] none

def call : Node := .call "m" (.parameters [.positional (.var ["x"]), .positional (.var ["y"])]) []

def block : Node := .call "f" (.parameters []) [.output [call]]

def statements : List Node := [define ["a"], define ["a", "b"], block]

def page : Node := .list statements

theorem parse_page : Template.parse (print statements) = .ok page := by
  have var : ∀ x ∈ ["x", "y"], IsCondition .printable (.var [x]) := fun x hx =>
    .expression (.operand (.term (.primary (.var ⟨x, [], rfl, by revert x; decide,
      by revert x; decide⟩))))
  have output : IsStatement .printable (.output [call]) :=
    .output (.expression (.operand (.term (.primary (.call
      ⟨by decide, "m", [], ⟨by decide, by decide, by simp⟩, by decide⟩
      (.positional (var "x" (by simp)) (.positional (var "y" (by simp)) .nil))))))) (by simp [call])
  have apart : ∀ (n : Node) (ms : List Node), isText n = false → ∀ m ∈ ms.head?, Apart n m := by
    intro n ms other m _
    rw [Apart, other, Bool.false_and]
  have printable : IsBody .printable statements :=
    .cons (.macroDef (by decide) (.bare (by decide) .nil) .nil) (apart _ _ rfl)
      (.cons (.macroDef (by decide) (.bare (by decide) (.bare (by decide) .nil)) .nil)
        (apart _ _ rfl)
        (.cons (.call ⟨"f", [], by decide, by decide, by simp⟩ .nil (.cons output (by simp) .nil))
          (by simp) .nil))
  rw [parse_printed printable]
  rfl

theorem acyclic_page : ∀ m, ¬ Relation.TransGen page.Invokes m m := by
  have listed : ∀ d ∈ page.preorder, ∀ m ∈ d.macroName?, Meaning.callees d = [] := by decide
  intro m cycle
  obtain ⟨c, ⟨-, d, hd, name, called⟩, -⟩ := Relation.TransGen.head'_iff.mp cycle
  rw [listed d hd m name] at called
  cases called

theorem surplusCall_page : SurplusCall page "m" 2 1 := by
  have inside : block ∈ page.preorder :=
    preorder_subset (by simp [page, statements, subtrees, children]) (mem_preorder_self _)
  have statement : .output [call] ∈ block.elements := by simp [block, Node.elements]
  exact ⟨⟨block, inside, _, statement, _, _, .output, rfl⟩, ⟨define ["a"], rfl, rfl⟩, by decide⟩

end TwiceDefined

open TwiceDefined in
/-- A call in the block of an unknown macro passes as many arguments as the second definition of its
macro declares. The first one counts. -/
theorem inline_fails_by_first_definition :
    Template.parse (print statements) = .ok page ∧ (∀ m, ¬ Relation.TransGen page.Invokes m m) ∧
      SurplusCall page "m" 2 1 ∧
      ∃ e c given declared, ((Pass.inline false).run none page).run .empty = (.error e, .empty) ∧
        SurplusCall page c given declared ∧ e = .surplus ⟨c, given, declared⟩ := by
  have fails := inline_fails_on_surplus parse_page false .empty
  obtain ⟨e, after, run⟩ := (fails.2 acyclic_page).mpr ⟨"m", 2, 1, surplusCall_page⟩
  obtain ⟨rfl, c, given, declared, found, same, -⟩ := fails.1 e after run
  exact ⟨parse_page, acyclic_page, surplusCall_page, e, c, given, declared, run, found, same⟩

end TagCompiler.Inlining
