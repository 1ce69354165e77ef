import TagCompiler.Proofs.CompleteInlining
import TagCompiler.Proofs.FilledPlaces
/-!
# What becomes of the block of a call

The block of a call is inlined where the call stands, and what it becomes is put in the places of
the macro's code. Then this code is inlined, and the block with it once more, or several times if
the code passes it on. A macro that was expanded in the block was out of the library inside of its
own expansion, and there it is back now. So the block is injected as it was inlined exactly if none
of its statements calls a macro of the library any more, and that is so if no macro leads back to
itself.
-/

namespace TagCompiler.Inlining

open Grammar Node

/-! ### Inlining again -/

/-- The statements come from `content` by inlining once or more, with some of the macros. -/
def Again (lib : Library) (content : List Node) : List Node → Prop :=
  Relation.TransGen (fun cs cs' => ∃ part ⊆ lib, body part cs = .ok cs') content

theorem advances_once (lib : Library) (content : List Node) :
    Advances lib (· = content) (Again lib content) := by
  rintro part sub cs cs' rfl inlined
  exact .single ⟨part, sub, inlined⟩

theorem advances_again (lib : Library) (content : List Node) :
    Advances lib (Again lib content) (Again lib content) :=
  fun part sub _ _ again inlined => .tail again ⟨part, sub, inlined⟩

theorem body_eq_self_iff {lib : Library} {cs : List Node} :
    body lib cs = .ok cs ↔ Inert lib (.list cs) := by
  rw [← node_eq_self_iff, node]
  constructor
  · intro h
    rw [h]
    rfl
  · intro h
    obtain ⟨cs', inlined, done⟩ := ok_of_bind h
    cases done
    exact inlined

theorem advances_inert {lib : Library} {content : List Node}
    (inert : Inert lib (.list content)) : Advances lib (· = content) (· = content) := by
  rintro part sub cs cs' rfl inlined
  have same := body_eq_self_iff.mpr (inert.mono sub)
  exact Except.ok.inj (inlined.symm.trans same)

/-! ### What is done on the way -/

/-- What is done while code is inlined. -/
inductive Goal where
  | node (lib : Library) (n : Node)
  | statement (lib : Library) (n : Node)

namespace Goal

def result : Goal → Except Surplus Node
  | .node lib n => Inlining.node lib n
  | .statement lib n => Inlining.statement lib n

/-- The second is done for the first one without an expansion. -/
inductive Descends : Goal → Goal → Prop
  | outside {lib : Library} {n k : Node} (part : k ∈ n.outside) :
      Descends (.node lib n) (.node (inside lib n) k)
  | element {lib : Library} {n k : Node} (part : k ∈ n.elements) :
      Descends (.node lib n) (.statement (inside lib n) k)
  | kept {lib : Library} {n : Node}
      (absent : ∀ c, n.statementCallee? = some c → lib.find? c = none) :
      Descends (.statement lib n) (.node lib n)

/-- The second is done for the first one, and its result stands in the result of that. -/
inductive Uses : Goal → Goal → Prop
  | descends {a b : Goal} (step : Descends a b) : Uses a b
  | argument {lib : Library} {n arguments v : Node} {c x : String} {block : List Node}
      {d : Definition} {default : Option Node} {i : Nat} (called : IsCallOf c arguments block n)
      (found : lib.find? c = some d)
      (declared : d.declared[i]? = some (.parameter (some x) default))
      (given : (value? arguments x i).map Subtype.val = some v) :
      Uses (.statement lib n) (.node lib v)
  | code {lib : Library} {n arguments b : Node} {c : String} {block content : List Node}
      {d : Definition} (called : IsCallOf c arguments block n) (found : lib.find? c = some d)
      (inner : body lib block = .ok content) (part : b ∈ d.body) :
      Uses (.statement lib n) (.statement (lib.without c) (substitute d content b))

end Goal

theorem exists_of_mem_left {S : Node → Node → Prop} {ns ms : List Node} {k : Node}
    (h : List.Forall₂ S ns ms) (hk : k ∈ ns) : ∃ m ∈ ms, S k m :=
  exists_of_mem_right h.flip hk

theorem exists_setting {lib : Library} {d : Definition} {content : List Node} {arguments v : Node}
    {ps ss : List Node} {place i : Nat} {x : String} {default : Option Node}
    (h : bindings lib d content arguments place ps = .ok ss)
    (declared : ps[i]? = some (.parameter (some x) default))
    (given : (value? arguments x (place + i)).map Subtype.val = some v) :
    ∃ w, node lib v = .ok w ∧ .assign (.var [boundName d.name x]) w .set ∈ ss := by
  induction ps generalizing place i ss with
  | nil => cases declared
  | cons p ps ih =>
    cases i with
    | zero =>
      cases declared
      rw [bindings_named] at h
      obtain ⟨w, value, h⟩ := ok_of_bind h
      obtain ⟨more, -, h⟩ := ok_of_bind h
      cases h
      obtain ⟨v, passed, rfl⟩ := Option.map_eq_some_iff.mp given
      rw [settingValue.eq_def, show value? arguments x place = some v from passed] at value
      exact ⟨w, value, List.mem_cons_self⟩
    | succ i =>
      have given : (value? arguments x (place + 1 + i)).map Subtype.val = some v := by
        rw [Nat.add_assoc, Nat.add_comm 1 i]
        exact given
      cases name : parameterName? p with
      | none =>
        rw [bindings_unnamed name] at h
        exact ih h declared given
      | some y =>
        cases p with
        | parameter _ default =>
          cases name
          rw [bindings_named] at h
          obtain ⟨w, -, h⟩ := ok_of_bind h
          obtain ⟨more, rest, h⟩ := ok_of_bind h
          cases h
          obtain ⟨w, inlined, set⟩ := ih rest declared given
          exact ⟨w, inlined, List.mem_cons_of_mem _ set⟩
        | _ => cases name

namespace Goal

variable {a b : Goal} {m : Node}

theorem Descends.mem_result (h : a.Descends b) (done : a.result = .ok m) :
    ∃ k, b.result = .ok k ∧ k ∈ m.preorder := by
  cases h with
  | @outside lib n k part =>
    obtain ⟨outs, stats, becomes, rfl⟩ := becomes_of_node done
    obtain ⟨k', hk', inlined⟩ := exists_of_mem_left becomes.outs part
    refine ⟨k', inlined, preorder_subset ?_ k'.mem_preorder_self⟩
    rw [becomes.fit.subtrees_replace]
    exact List.mem_append_left _ hk'
  | @element lib n k part =>
    obtain ⟨outs, stats, becomes, rfl⟩ := becomes_of_node done
    obtain ⟨k', hk', inlined⟩ := exists_of_mem_left becomes.stats part
    refine ⟨k', inlined, preorder_subset ?_ k'.mem_preorder_self⟩
    rw [becomes.fit.subtrees_replace]
    exact List.mem_append_right _ hk'
  | kept absent =>
    have same := statement_of_absent absent
    exact ⟨m, same.symm.trans done, m.mem_preorder_self⟩

theorem Uses.mem_result (h : a.Uses b) (done : a.result = .ok m) :
    ∃ k, b.result = .ok k ∧ k ∈ m.preorder := by
  cases h with
  | descends step => exact step.mem_result done
  | @argument _ _ _ _ _ x _ d _ i called found declared given =>
    obtain ⟨content, settings, statements, rfl, expands⟩ :=
      expand_eq_ok_iff.mp ((called.statement_eq found).symm.trans done)
    rw [← Nat.zero_add i] at given
    obtain ⟨w, inlined, set⟩ := exists_setting expands.bound declared given
    have value : w ∈ (Node.assign (.var [boundName d.name x]) w .set).preorder :=
      preorder_subset (by simp [Node.subtrees]) w.mem_preorder_self
    exact ⟨w, inlined, preorder_subset (List.mem_append_left _ set) value⟩
  | code called found inner part =>
    obtain ⟨content', settings, statements, rfl, expands⟩ :=
      expand_eq_ok_iff.mp ((called.statement_eq found).symm.trans done)
    obtain rfl := Except.ok.inj (inner.symm.trans expands.inner)
    obtain ⟨k, hk, stated⟩ := exists_of_mem_left (body_eq_ok_iff.mp expands.code)
      (List.mem_map_of_mem part)
    exact ⟨k, stated, preorder_subset (List.mem_append_right _ hk) k.mem_preorder_self⟩

theorem mem_result_of_reached (h : Relation.ReflTransGen Uses a b) (done : a.result = .ok m) :
    ∃ k, b.result = .ok k ∧ k ∈ m.preorder := by
  induction h with
  | refl => exact ⟨m, done, m.mem_preorder_self⟩
  | tail _ uses ih =>
    obtain ⟨k, done, below⟩ := ih
    obtain ⟨j, done, inside⟩ := uses.mem_result done
    exact ⟨j, done, preorder_trans below inside⟩

end Goal

section Substitution

variable (d : Definition) (content : List Node) {n k : Node}

theorem inside_substitute (lib : Library) (n : Node) :
    inside lib (substitute d content n) = inside lib n := by
  cases n with
  | parameter name value => cases value <;> rfl
  | _ => rfl

theorem fit_substitute (n : Node) : (retitle (freshNames d) n).Fit
    (n.outside.map (substitute d content)) (n.elements.map (substitute d content)) :=
  ⟨by rw [List.length_map, outside_retitle], by rw [List.length_map, elements_retitle]⟩

-- A yield has no parts, so what has one is not replaced by the block.
theorem mem_outside_substitute (h : k ∈ n.outside) :
    substitute d content k ∈ (substitute d content n).outside := by
  have other : n ≠ .yield := by
    rintro rfl
    cases h
  rw [substitute_eq_replace d content other, (fit_substitute d content n).outside_replace]
  exact List.mem_map_of_mem h

theorem mem_elements_substitute (h : k ∈ n.elements) :
    substitute d content k ∈ (substitute d content n).elements := by
  have other : n ≠ .yield := by
    rintro rfl
    cases h
  rw [substitute_eq_replace d content other, (fit_substitute d content n).elements_replace]
  exact List.mem_map_of_mem h

/-- The same work, on the code of the macro with a block. -/
def Goal.substituted : Goal → Goal
  | .node lib n => .node lib (substitute d content n)
  | .statement lib n => .statement lib (substitute d content n)

theorem Goal.Descends.substituted {a b : Goal} (h : a.Descends b) :
    (a.substituted d content).Descends (b.substituted d content) := by
  cases h with
  | @outside lib n k part =>
    have step : Descends (.node lib (substitute d content n)) _ :=
      .outside (mem_outside_substitute d content part)
    rwa [inside_substitute] at step
  | @element lib n k part =>
    have step : Descends (.node lib (substitute d content n)) _ :=
      .element (mem_elements_substitute d content part)
    rwa [inside_substitute] at step
  | @kept lib n absent =>
    refine .kept ?_
    rw [statementCallee?_substitute]
    exact absent

end Substitution

/-! ### An expansion -/

/-- What a macro's code becomes with its yields in place, and with a block that was inlined to
`content`. -/
structure Injects (rest : Library) (d : Definition) (content skeleton statements : List Node) :
    Prop where
  code : body rest (d.body.map (Node.renameNames (freshNames d))) = .ok skeleton
  filled : List.Forall₂ (Filled (Again rest content)) skeleton statements
  exact : Inert rest (.list content) → List.Forall₂ (Filled (· = content)) skeleton statements
  direct : ∀ i : Nat, d.body[i]? = some .yield → ∃ cs, statements[i]? = some (.list cs) ∧
    body rest content = .ok cs ∧ (cs = content ↔ Inert rest (.list content))
  nested : ∀ (i : Nat) (b : Node) (there : Library), d.body[i]? = some b →
    Relation.ReflTransGen Goal.Descends (.statement rest b) (.statement there .yield) →
    ∃ r cs, statements[i]? = some r ∧ .list cs ∈ r.preorder ∧ body there content = .ok cs ∧
      (cs = content ↔ Inert there (.list content))

/-- A block stays what it was exactly if nothing is left to expand in it. -/
theorem exists_of_statement_list {there : Library} {content : List Node} {k : Node}
    (h : statement there (.list content) = .ok k) :
    ∃ cs, k = .list cs ∧ body there content = .ok cs ∧
      (cs = content ↔ Inert there (.list content)) := by
  rw [statement_list, node] at h
  obtain ⟨cs, again, done⟩ := ok_of_bind h
  refine ⟨cs, (Except.ok.inj done).symm, again, ?_⟩
  rw [← body_eq_self_iff, again]
  exact ⟨congrArg _, Except.ok.inj⟩

theorem exists_injects {rest : Library} {d : Definition} {content statements : List Node}
    (h : body rest (d.body.map (substitute d content)) = .ok statements) :
    ∃ skeleton, Injects rest d content skeleton statements := by
  have stated := body_eq_ok_iff.mp h
  have renamed : ∀ {R : List Node → Prop}, R content → List.Forall₂ (Filled R)
      (d.body.map (Node.renameNames (freshNames d))) (d.body.map (substitute d content)) := by
    intro R holds
    rw [List.forall₂_map_left_iff, List.forall₂_map_right_iff, List.forall₂_same]
    exact fun n _ => filled_renameNames holds n
  obtain ⟨skeleton, code, filled⟩ := forall₂_square (renamed (R := (· = content)) rfl) stated
    fun _ _ _ _ => filled_of_statement (advances_once rest content) (advances_again rest content)
  have at_place : ∀ {i : Nat} {b : Node}, d.body[i]? = some b →
      ∃ r, statements[i]? = some r ∧ statement rest (substitute d content b) = .ok r := by
    intro i b here
    have related := rel_getElem? stated i
    rw [List.getElem?_map, here] at related
    generalize becomes : statements[i]? = result at related
    cases related with
    | @some _ r inlined => exact ⟨r, rfl, inlined⟩
  refine ⟨skeleton, body_eq_ok_iff.mpr code, filled, fun inert => ?_, fun i yields => ?_,
    fun i b there here path => ?_⟩
  · have fixed := advances_inert inert
    obtain ⟨skeleton', code', filled'⟩ := forall₂_square (renamed (R := (· = content)) rfl) stated
      fun _ _ _ _ => filled_of_statement fixed fixed
    have same := (body_eq_ok_iff.mpr code).symm.trans (body_eq_ok_iff.mpr code')
    exact Except.ok.inj same ▸ filled'
  · obtain ⟨r, becomes, inlined⟩ := at_place yields
    obtain ⟨cs, rfl, again⟩ := exists_of_statement_list inlined
    exact ⟨cs, becomes, again⟩
  · obtain ⟨r, becomes, inlined⟩ := at_place here
    -- No step of the path passes a yield, so it is a path of the code with the block as well.
    have path : Relation.ReflTransGen Goal.Uses (.statement rest (substitute d content b))
        (.statement there (.list content)) :=
      path.lift (Goal.substituted d content) fun _ _ step => .descends (step.substituted d content)
    obtain ⟨k, place, below⟩ := Goal.mem_result_of_reached path inlined
    obtain ⟨cs, rfl, again⟩ := exists_of_statement_list place
    exact ⟨r, cs, becomes, below, again⟩

/-! ### Macros that do not lead back -/

theorem Inlinable.block {t : Node} {lib : Library} {c : String} {arguments s : Node}
    {cs : List Node} (h : Inlinable t lib (.list [s])) (called : IsCallOf c arguments cs s) :
    Inlinable t lib (.list cs) := by
  have h := h.of_statement called.mem_preorder
  refine ⟨fun name called => h.leads name ?_, fun k hk name named => h.defined k ?_ name named⟩
  · obtain ⟨k, hk, call | below⟩ := mem_statementCallees_list.mp called
    · exact mem_statementCallees.mpr (.inl ⟨k, by simpa [bodies] using hk, call⟩)
    · exact mem_statementCallees.mpr (.inr ⟨k, List.mem_cons_of_mem _ hk, below⟩)
  · rcases mem_preorder.mp hk with rfl | ⟨j, hj, below⟩
    · cases named
    · exact preorder_subset (List.mem_cons_of_mem _ hj) below

section Acyclic

variable {t : Node} {lib : Library}

/-- Nothing in the library is called by code that was inlined to the end. -/
theorem inert_of_inlined {n : Node} (taken : TakenFrom lib t) (h : Inlined t n) :
    Inert lib n := by
  refine inert_of_uncalled fun c called => ?_
  refine List.find?_eq_none.mpr fun d hd same => h.noCall c called ?_
  obtain ⟨doc, inTree⟩ := taken.defined d hd
  exact eq_of_beq same ▸ mem_definedMacros inTree rfl

/-- The code can be inlined to the end. -/
def Goal.IsInlinable (t : Node) : Goal → Prop
  | .node lib n => TakenFrom lib t ∧ Inlinable t lib n
  | .statement lib n => TakenFrom lib t ∧ Inlinable t lib (.list [n])

theorem Goal.Descends.isInlinable {a b : Goal} (h : a.Descends b) (ready : a.IsInlinable t) :
    b.IsInlinable t := by
  cases h with
  | @outside lib n k part =>
    have below := preorder_subset (mem_subtrees_of_mem_outside part) k.mem_preorder_self
    exact ⟨ready.1.enter n, ready.2.enter.of_mem_preorder below⟩
  | @element lib n k part =>
    exact ⟨ready.1.enter n, ready.2.enter.statement part⟩
  | @kept lib n => exact ⟨ready.1, ready.2.of_statement n.mem_preorder_self⟩

variable (acyclic : ∀ m, ¬ Relation.TransGen t.Invokes m m)
include acyclic

theorem inlined_body {cs content : List Node} (taken : TakenFrom lib t)
    (ready : Inlinable t lib (.list cs)) (h : body lib cs = .ok content) :
    Inlined t (.list content) := by
  refine .list fun k' hk' => ?_
  obtain ⟨k, hk, stated⟩ := mem_of_body h k' hk'
  exact inlined_of_statement acyclic taken (ready.statement hk) stated

theorem Goal.Uses.isInlinable {a b : Goal} (h : a.Uses b) (ready : a.IsInlinable t) :
    b.IsInlinable t := by
  cases h with
  | descends step => exact step.isInlinable ready
  | @argument lib n arguments v c x block d default i called found declared given =>
    obtain ⟨v, passed, rfl⟩ := Option.map_eq_some_iff.mp given
    obtain ⟨name, given, -⟩ := exists_of_value? passed
    have inCall := preorder_subset (n := .call c arguments block) List.mem_cons_self
      (preorder_of_given given)
    exact ⟨ready.1, ready.2.of_statement (preorder_trans called.mem_preorder inCall)⟩
  | @code lib n arguments b c block content d called found inner part =>
    obtain ⟨taken, ready⟩ := ready
    obtain rfl := Meaning.name_of_find? found
    have hd : d ∈ lib := List.mem_of_find?_eq_some found
    have done := inlined_body acyclic taken (ready.block called) inner
    have reached : ∀ s, Spent t lib s → Relation.TransGen t.Invokes s d.name := by
      obtain ⟨doc, inTree⟩ := taken.defined d hd
      exact ready.leads d.name (mem_statementCallees_singleton.mpr (.inl called.statementCallee?))
        (mem_definedMacros inTree rfl)
    exact ⟨taken.without d.name, inlinable_substitute taken hd done reached part⟩

theorem Goal.isInlinable_of_reached {a b : Goal} (h : Relation.ReflTransGen Uses a b)
    (ready : a.IsInlinable t) : b.IsInlinable t := by
  induction h with
  | refl => exact ready
  | tail _ uses ih => exact uses.isInlinable acyclic ih

end Acyclic

/-! ### Blocks -/

/-- Code that is inlined on its own when the tree `t` becomes `out`: the tree, or the block of a
call that is met on the way and expanded. The code `n` becomes `m`, with the library `lib`. -/
inductive CodeOf (t out : Node) : Library → Node → Node → Prop
  | tree : CodeOf t out (.ofTree t) t out
  | block {lib here : Library} {n m s arguments : Node} {c : String} {block content : List Node}
      {d : Definition} (outer : CodeOf t out lib n m)
      (met : Relation.ReflTransGen Goal.Uses (.node lib n) (.statement here s))
      (called : IsCallOf c arguments block s) (found : here.find? c = some d)
      (inner : body here block = .ok content) : CodeOf t out here (.list block) (.list content)

namespace CodeOf

variable {t out n m : Node} {lib : Library}

theorem node_eq (h : CodeOf t out lib n m) (inlined : node (.ofTree t) t = .ok out) :
    node lib n = .ok m := by
  cases h with
  | tree => exact inlined
  | block _ _ _ _ inner =>
    rw [node, inner]
    rfl

theorem ready (h : CodeOf t out lib n m) (taken : TakenFrom (.ofTree t) t)
    (acyclic : ∀ m, ¬ Relation.TransGen t.Invokes m m) : (Goal.node lib n).IsInlinable t := by
  induction h with
  | tree => exact ⟨taken, inlinable_ofTree t⟩
  | @block lib here n m s arguments c block content d _ met called found inner ih =>
    obtain ⟨taken, ready⟩ := Goal.isInlinable_of_reached acyclic met ih
    exact ⟨taken, ready.block called⟩

end CodeOf

/-- While a template is inlined, let a call be met in code that becomes `m`, the template itself or
the block of another call, and let its macro be expanded. The block of the call is inlined to
`content` where the call stands. What the call becomes is a part of `m`, and it holds what the code
of the macro becomes, its yields in place, with a list for each of them: of what `content` becomes
when it is inlined again. Where the macro's body yields outside of what is expanded in it, directly
or at any depth, it is inlined once more, with the macros left there, and stays what it was exactly
if no statement in it calls one of them. If none of the macros but the called one is called in it,
all the lists hold `content` itself, and so they do if no macro of the template leads back to
itself. -/
theorem injected_block_inlined_again {source : String} {t out n m s arguments : Node}
    {external : Bool} {before after : Memory} {lib here : Library} {c : String} {block : List Node}
    {d : Definition} (parsed : Template.parse source = .ok t)
    (run : ((Pass.inline external).run none t).run before = (.ok out, after))
    (code : CodeOf t out lib n m)
    (met : Relation.ReflTransGen Goal.Uses (.node lib n) (.statement here s))
    (called : IsCallOf c arguments block s) (found : here.find? c = some d) :
    ∃ content settings skeleton statements, body here block = .ok content ∧
      statement here s = .ok (.list (settings ++ statements)) ∧
      .list (settings ++ statements) ∈ m.preorder ∧
      Injects (here.without c) d content skeleton statements ∧
      ((∀ m, ¬ Relation.TransGen t.Invokes m m) → Inert (here.without c) (.list content)) := by
  obtain ⟨r, done, below⟩ := Goal.mem_result_of_reached met (code.node_eq (node_of_run run))
  obtain ⟨content, settings, statements, rfl, expands⟩ :=
    expand_eq_ok_iff.mp ((called.statement_eq found).symm.trans done)
  obtain ⟨skeleton, injects⟩ := exists_injects expands.code
  refine ⟨content, settings, skeleton, statements, expands.inner, done, below, injects, ?_⟩
  intro acyclic
  obtain ⟨taken, ready⟩ := Goal.isInlinable_of_reached acyclic met
    (code.ready (takenFrom_of_parse parsed) acyclic)
  have inlined := inlined_body acyclic taken (ready.block called) expands.inner
  exact inert_of_inlined (taken.without c) inlined

/-! ### A call in the block of another one -/

namespace CallInBlock

def panel : Definition := ⟨"panel", .parameters [], [.yield]⟩

def callTree : Node := .output [.call "tree" (.parameters []) []]

def callPanel : Node := .call "panel" (.parameters []) [callTree]

/-- The macro `tree` with the given code is called in the block of a call of `panel`. -/
def pageWith (code : List Node) (last : Node) : List Node :=
  [.macroDef "panel" (.parameters []) [.yield] none,
    .macroDef "tree" (.parameters []) code none, last]

def page (code : List Node) : List Node := pageWith code callPanel

theorem printable_callTree : IsStatement .printable callTree :=
  .output (.expression (.operand (.term (.primary (.call
    ⟨by decide, "tree", [], ⟨by decide, by decide, by simp⟩, by decide⟩ .nil))))) (by simp)

theorem parse_page {code : List Node} (h : IsBody .printable code) :
    Template.parse (print (page code)) = .ok (.list (page code)) := by
  have apart : ∀ (n : Node) (ms : List Node), isText n = false → ∀ m ∈ ms.head?, Apart n m := by
    intro n ms other m _
    rw [Apart, other, Bool.false_and]
  have printable : IsBody .printable (page code) :=
    .cons (.macroDef (by decide) .nil (.cons .yield (by simp) .nil)) (apart _ _ rfl)
      (.cons (.macroDef (by decide) .nil h) (apart _ _ rfl)
        (.cons (.call ⟨"panel", [], by decide, by decide, by simp⟩ .nil
          (.cons printable_callTree (by simp) .nil)) (by simp) .nil))
  rw [parse_printed printable]
  rfl

end CallInBlock

open CallInBlock

/-- The macro that is called in the block calls nothing itself. -/
theorem injected_block_of_text :
    let t : Node := .list (page [.text "x"])
    let content : List Node := [.list [.text "x"]]
    let out : Node := .list (pageWith [.text "x"] (.list [.list content]))
    let rest := (Library.ofTree t).without "panel"
    Template.parse (print (page [.text "x"])) = .ok t ∧
      ((Pass.inline false).run none t).run .empty = (.ok out, .empty) ∧
      body (.ofTree t) [callTree] = .ok content ∧ Inert rest (.list content) ∧
      ∃ settings skeleton statements, .list (settings ++ statements) ∈ out.preorder ∧
        Injects rest panel content skeleton statements ∧
        List.Forall₂ (Filled (· = content)) skeleton statements ∧
        statements[0]? = some (.list content) := by
  intro t content out rest
  have text : IsStatement .printable (.text "x") := .text ⟨by decide, by decide, by decide⟩
  have parsed := parse_page (.cons text (by simp) .nil)
  have run : ((Pass.inline false).run none t).run .empty = (.ok out, .empty) := by cbv
  have inner : body (.ofTree t) [callTree] = .ok content := by cbv
  have met : Goal.Uses (.node (.ofTree t) t) (.statement (.ofTree t) callPanel) :=
    .descends (.element (by simp [t, page, pageWith, elements]))
  have acyclic : ∀ m, ¬ Relation.TransGen t.Invokes m m := by
    have listed : ∀ d ∈ t.preorder, ∀ m ∈ d.macroName?, Meaning.callees d = [] := by decide
    intro m cycle
    obtain ⟨c, ⟨-, d, hd, name, called⟩, -⟩ := Relation.TransGen.head'_iff.mp cycle
    rw [listed d hd m name] at called
    cases called
  obtain ⟨content', settings, skeleton, statements, inner', -, stands, injects, inert⟩ :=
    injected_block_inlined_again parsed run .tree (.single met) (d := panel) .call rfl
  obtain rfl := Except.ok.inj (inner.symm.trans inner')
  have inert := inert acyclic
  obtain ⟨cs, place, -, same⟩ := injects.direct 0 rfl
  refine ⟨parsed, run, inner, inert, settings, skeleton, statements, stands, injects,
    injects.exact inert, ?_⟩
  rw [place, same.mpr inert]

/-- A macro that calls itself is called in the block of another one. Where the call stands, the
block becomes one expansion of the macro, with a call in it. In the place of the yield it is
expanded once more. -/
theorem injected_block_expanded_twice :
    let t : Node := .list (page [callTree])
    let content : List Node := [.list [callTree]]
    let injected : List Node := [.list [.list [callTree]]]
    let out : Node := .list (pageWith [callTree] (.list [.list injected]))
    print (page [callTree]) =
      "\x7b% macro panel() %\x7d\x7b\x7b caller() \x7d\x7d\x7b% endmacro %\x7d" ++
        "\x7b% macro tree() %\x7d\x7b\x7b tree() \x7d\x7d\x7b% endmacro %\x7d" ++
        "\x7b% call panel() %\x7d\x7b\x7b tree() \x7d\x7d\x7b% endcall %\x7d" ∧
      Template.parse (print (page [callTree])) = .ok t ∧
      ((Pass.inline false).run none t).run .empty = (.ok out, .empty) ∧
      body (.ofTree t) [callTree] = .ok content ∧
      body ((Library.ofTree t).without "panel") (panel.body.map (substitute panel content)) =
        .ok [.list injected] ∧ injected ≠ content := by
  intro t content injected out
  have parsed := parse_page (.cons printable_callTree (by simp) .nil)
  exact ⟨by decide +kernel, parsed, by cbv, by cbv, by cbv, by simp [injected, content, callTree]⟩

end TagCompiler.Inlining
