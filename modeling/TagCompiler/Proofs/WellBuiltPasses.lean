import TagCompiler.Proofs.CompleteInlining
import TagCompiler.Proofs.SiteMacros
import TagCompiler.Proofs.WellBuiltTrees
/-!
# Passes keep trees well built

One section for each kind of pass. Splitting assignments and loading models build nodes with the
constructors that check, which never refuse a part of a well-built tree. Inlining takes in code of
macros, which is well built too, also if it comes from the content.
-/

namespace TagCompiler

open Node

/-! ### Passes that cannot fail -/

theorem Fits.var {p q : List String} (h : q ≠ []) : Fits (.var p) (.var q) :=
  ⟨wellBuilt_var.mpr h, rfl⟩

theorem Fits.loop {n source : Node} {key key' : Option String} {item item' : String}
    {body : List Node} (h : Fits n (.loop key item source body)) :
    Fits n (.loop key' item' source body) :=
  ⟨wellBuilt_loop.mpr (wellBuilt_loop.mp h.wellBuilt), h.role⟩

theorem Renaming.path_ne_nil {r : Renaming} {p : List String} (h : p ≠ []) : r.path p ≠ [] := by
  cases p with
  | nil => exact absurd rfl h
  | cons root rest => exact List.cons_ne_nil _ _

theorem LoopVariable.path_ne_nil {p : List String} (h : p ≠ []) : path p ≠ [] := by
  unfold path
  split
  · exact List.cons_ne_nil _ _
  · exact h

namespace Rebuilder

theorem keepsBuilt_keep : (keep : Rebuilder Id).KeepsBuilt .id :=
  keepsBuilt_of_node rfl fun _ fits => fits

theorem keepsBuilt_renameRoots (r : Renaming) : (renameRoots r).KeepsBuilt .id := by
  refine keepsBuilt_of_node rfl fun {n x} built fits => ?_
  cases n with
  | var p => exact .var (Renaming.path_ne_nil (wellBuilt_var.mp built))
  | _ => exact fits

theorem keepsBuilt_renameNames (r : Renaming) : (renameNames r).KeepsBuilt .id := by
  refine keepsBuilt_of_node rfl fun {n x} built fits => ?_
  show Fits n ((renameNames r).node n x)
  unfold renameNames
  dsimp only
  split
  · exact .var (Renaming.path_ne_nil (wellBuilt_var.mp built))
  · exact Fits.loop fits
  · exact fits

theorem keepsBuilt_substitution (r : Renaming) {block : List Node} (given : BuiltBody block) :
    (Inlining.substitution r block).KeepsBuilt .id := by
  refine keepsBuilt_of_node rfl fun {n x} built fits => ?_
  show Fits n ((Inlining.substitution r block).node n x)
  unfold Inlining.substitution
  dsimp only
  split
  · exact .var (Renaming.path_ne_nil (wellBuilt_var.mp built))
  · exact ⟨wellBuilt_list.mpr given, rfl⟩
  · exact Fits.loop fits
  · exact fits

theorem keepsBuilt_useStatusObject : LoopVariable.rebuilder.KeepsBuilt (.reader Bool) := by
  refine keepsBuilt_of_node rfl fun {n x} built fits inside => ?_
  cases n with
  | var p =>
    have named := wellBuilt_var.mp built
    cases inside
    · exact .var named
    · exact .var (LoopVariable.path_ne_nil named)
  | loop => exact fits true
  | _ => exact fits inside

theorem keepsBuilt_speller : StringBuilding.speller.KeepsBuilt .id := by
  refine keepsBuilt_of_node rfl fun {n x} built fits => ?_
  show Fits n (StringBuilding.speller.node n x)
  unfold StringBuilding.speller
  dsimp only
  split
  · exact ⟨wellBuilt_operator, rfl⟩
  · exact fits

end Rebuilder

namespace Emptiness

theorem wellBuilt_asText {subject : Node} (h : subject.WellBuilt) : (asText subject).WellBuilt := by
  have noEntry : IsParameterList (.parameters []) := ⟨[], rfl, by simp⟩
  simp [asText, h, noEntry]

theorem wellBuilt_affirmed {subject : Node} (h : subject.WellBuilt) :
    (affirmed subject).WellBuilt := by
  simp [affirmed, filledTest, Node.string, wellBuilt_asText h, h]

theorem wellBuilt_denied {subject : Node} (h : subject.WellBuilt) : (denied subject).WellBuilt := by
  simp [denied, emptyTest, Node.string, wellBuilt_asText h, h]

/-- A test is about one of the two that are compared. -/
theorem exists_of_test? {chain : List Node} {n : Node} (h : test? chain = some n) :
    ∃ subject ∈ chain, n = filledTest subject ∨ n = emptyTest subject := by
  unfold test? at h
  split at h
  · rename_i left op right
    split at h
    · cases h
    · obtain ⟨subject, chosen, rfl⟩ := Option.map_eq_some_iff.mp h
      refine ⟨subject, ?_, ?_⟩
      · split at chosen
        · cases chosen
          simp
        · cases chosen
          simp
        · cases chosen
      · split
        · exact .inl rfl
        · exact .inr rfl
  · cases h

theorem wellBuilt_test? {chain : List Node} {n : Node} (h : BuiltBody chain)
    (test : test? chain = some n) : n.WellBuilt ∧ n.role = .other := by
  obtain ⟨subject, inside, rfl | rfl⟩ := exists_of_test? test
  · exact ⟨by simp [filledTest, h subject inside], rfl⟩
  · exact ⟨by simp [emptyTest, h subject inside], rfl⟩

/-- A property that chains and groups have by their members, and a variable's two tests with it. -/
structure Componentwise (Q : Node → Prop) : Prop where
  var : ∀ p, Q (.var p) → Q (affirmed (.var p)) ∧ Q (denied (.var p))
  expression : ∀ cs, Q (.expression cs) → ∀ c ∈ cs, Q c
  condition : ∀ cs, Q (.condition cs) ↔ ∀ c ∈ cs, Q c
  group : ∀ cs, Q (.group cs) ↔ ∀ c ∈ cs, Q c

namespace Componentwise

variable {Q : Node → Prop}

mutual

/-- Reading a condition by its truth keeps such a property. -/
theorem truth (q : Componentwise Q) (n : Node) (h : Q n) : Q (truth n) := by
  unfold Emptiness.truth
  split
  · exact (q.var _ h).1
  · exact (q.var _ (q.expression _ h _ (by simp))).2
  · exact (q.condition _).mpr (q.truthOfOperands _ ((q.condition _).mp h))
  · exact (q.group _).mpr (q.truths _ ((q.group _).mp h))
  · exact h

theorem truths (q : Componentwise Q) (ns : List Node) (h : ∀ n ∈ ns, Q n) :
    ∀ n ∈ truths ns, Q n := by
  cases ns with
  | nil => exact h
  | cons n ns =>
    obtain ⟨hn, hns⟩ := List.forall_mem_cons.mp h
    rw [Emptiness.truths]
    exact List.forall_mem_cons.mpr ⟨q.truth n hn, q.truths ns hns⟩

theorem truthOfOperands (q : Componentwise Q) (ns : List Node) (h : ∀ n ∈ ns, Q n) :
    ∀ n ∈ truthOfOperands ns, Q n := by
  cases ns with
  | nil => exact h
  | cons n ns =>
    obtain ⟨hn, hns⟩ := List.forall_mem_cons.mp h
    have rest := q.truthOfOperands ns hns
    unfold Emptiness.truthOfOperands
    split
    · rename_i heq
      cases heq
    · rename_i symbol ms heq
      cases heq
      exact List.forall_mem_cons.mpr ⟨hn, rest⟩
    · rename_i m ms other heq
      cases heq
      exact List.forall_mem_cons.mpr ⟨q.truth n hn, rest⟩

end

end Componentwise

theorem componentwise_wellBuilt : Componentwise Node.WellBuilt where
  var _ built := ⟨wellBuilt_affirmed built, wellBuilt_denied built⟩
  expression _ built := wellBuilt_expression.mp built
  condition _ := wellBuilt_condition
  group _ := wellBuilt_group

theorem keepsBuilt : rebuilder.KeepsBuilt .id := by
  refine Rebuilder.keepsBuilt_of_node rfl fun {n} {x : Node} _ (fits : Fits n x) => ?_
  show Fits n (rebuilder.node n x)
  cases x with
  | expression chain =>
    show Fits n ((test? chain).getD (.expression chain))
    cases test : test? chain with
    | none => exact fits
    | some made =>
      obtain ⟨built, role⟩ := wellBuilt_test? (wellBuilt_expression.mp fits.wellBuilt) test
      exact ⟨built, role.trans fits.role⟩
  | branch c ys ns =>
    obtain ⟨hc, bodies⟩ := wellBuilt_branch.mp fits.wellBuilt
    exact ⟨wellBuilt_branch.mpr ⟨componentwise_wellBuilt.truth _ hc, bodies⟩, fits.role⟩
  | _ => exact fits

end Emptiness

namespace Node.WellBuilt

variable {n : Node}

theorem rebuild (h : n.WellBuilt) : n.rebuild.WellBuilt :=
  (Rebuilder.keepsBuilt_keep.run n h).wellBuilt

theorem renameRoots (h : n.WellBuilt) (r : Renaming) : (n.renameRoots r).WellBuilt :=
  ((Rebuilder.keepsBuilt_renameRoots r).run n h).wellBuilt

theorem renameNames (h : n.WellBuilt) (r : Renaming) : (n.renameNames r).WellBuilt :=
  ((Rebuilder.keepsBuilt_renameNames r).run n h).wellBuilt

theorem useEmptiness (h : n.WellBuilt) : n.useEmptiness.WellBuilt :=
  (Emptiness.keepsBuilt.run n h).wellBuilt

theorem useStatusObject (h : n.WellBuilt) : n.useStatusObject.WellBuilt :=
  (Rebuilder.keepsBuilt_useStatusObject.run n h false).wellBuilt

theorem substitute (h : n.WellBuilt) (d : Definition) {block : List Node}
    (given : BuiltBody block) : (Inlining.substitute d block n).WellBuilt :=
  ((Rebuilder.keepsBuilt_substitution _ given).run n h).wellBuilt

end Node.WellBuilt

/-! ### String building -/

namespace StringBuilding

theorem mem_of_mem_terms {t : Node} : {chain : List Node} → t ∈ terms chain → t ∈ chain
  | [], h => h
  | [_], h => h
  | first :: _ :: rest, h => by
    rcases List.mem_cons.mp h with rfl | h
    · exact List.mem_cons_self
    · exact List.mem_cons_of_mem _ (List.mem_cons_of_mem _ (mem_of_mem_terms h))

/-- The assignments that `build` makes for a target that can be assigned to. -/
def assignments (target first : Node) (rest : List Node) : List Node :=
  if rest.any (reads target.rootName?) then
    [.assign target (.expression ((first :: rest).intersperse (.operator concatSign))) .set]
  else
    (if first.same target then [] else [.assign target first .set]) ++
      rest.map fun term => .assign target term .append

theorem assign?_eq {target : Node} (var : target.isVar = true) (op : AssignOp) (n : Node) :
    assign? op target n = .ok (.assign target n op) := if_pos var

theorem mapM_assign? {target : Node} (var : target.isVar = true) (op : AssignOp) (ns : List Node) :
    ns.mapM (assign? op target) = .ok (ns.map fun n => .assign target n op) := by
  induction ns with
  | nil => rfl
  | cons n ns ih =>
    rw [List.mapM_cons, ih, assign?_eq var]
    rfl

theorem build_eq {target : Node} (var : target.isVar = true) (first : Node) (rest : List Node) :
    build target first rest = .ok (assignments target first rest) := by
  unfold build assignments
  split
  · exact congrArg (Except.map fun n => [n]) (assign?_eq var .set _)
  · rw [mapM_assign? var, mapM_assign? var]
    split <;> rfl

/-- What a statement stands for, if its target can be assigned to. -/
def pieces : Node → List Node
  | .assign target (.expression chain) .set =>
    if builds chain then
      match terms chain with
      | first :: rest => assignments target first rest
      | [] => [.assign target (.expression chain) .set]
    else [.assign target (.expression chain) .set]
  | n => [n]

theorem split_eq {n : Node} (accepted : n.Accepted) : split n = .ok (pieces n) := by
  unfold split
  split
  · rename_i target chain
    rw [pieces]
    split
    · cases terms chain with
      | nil => rfl
      | cons first rest => exact build_eq (accepted_assign.mp accepted) first rest
    · rfl
  · rename_i other
    rw [pieces]
    exact other

theorem mem_intersperse {sign n : Node} {ns : List Node} (h : n ∈ ns.intersperse sign) :
    n = sign ∨ n ∈ ns := by
  induction ns with
  | nil => cases h
  | cons first rest ih =>
    cases rest with
    | nil => exact .inr h
    | cons second rest =>
      rw [List.intersperse_cons_cons] at h
      rcases List.mem_cons.mp h with rfl | h
      · exact .inr List.mem_cons_self
      · rcases List.mem_cons.mp h with rfl | h
        · exact .inl rfl
        · exact (ih h).imp_right (List.mem_cons_of_mem _)

/-- A piece of a statement is the statement, or an assignment to its target: of a member of its
chain, or of a chain of such members and the sign for concatenation. -/
inductive IsPiece (n : Node) : Node → Prop
  | whole : IsPiece n n
  | term {target t : Node} {chain : List Node} {op : AssignOp} :
      n = .assign target (.expression chain) .set → t ∈ chain → IsPiece n (.assign target t op)
  | joined {target : Node} {chain members : List Node} :
      n = .assign target (.expression chain) .set →
      (∀ m ∈ members, m = .operator concatSign ∨ m ∈ chain) →
      IsPiece n (.assign target (.expression members) .set)

theorem isPiece_of_mem_pieces {n p : Node} (h : p ∈ pieces n) : IsPiece n p := by
  unfold pieces at h
  split at h
  · rename_i target chain
    split at h
    · split at h
      · rename_i first rest parts
        have sub : ∀ t ∈ first :: rest, t ∈ chain := fun t ht => mem_of_mem_terms (parts ▸ ht)
        unfold assignments at h
        split at h
        · obtain rfl := List.mem_singleton.mp h
          refine .joined rfl fun m hm => ?_
          exact (mem_intersperse hm).imp_right (sub m)
        · rcases List.mem_append.mp h with h | h
          · split at h
            · cases h
            · obtain rfl := List.mem_singleton.mp h
              exact .term rfl (sub first List.mem_cons_self)
          · obtain ⟨t, ht, rfl⟩ := List.mem_map.mp h
            exact .term rfl (sub t (List.mem_cons_of_mem _ ht))
      · obtain rfl := List.mem_singleton.mp h
        exact .whole
    · obtain rfl := List.mem_singleton.mp h
      exact .whole
  · obtain rfl := List.mem_singleton.mp h
    exact .whole

theorem builtBody_pieces {n : Node} (h : n.WellBuilt) : BuiltBody (pieces n) := by
  intro p hp
  cases isPiece_of_mem_pieces hp with
  | whole => exact h
  | term same ht =>
    subst same
    obtain ⟨var, built, value⟩ := wellBuilt_assign.mp h
    exact wellBuilt_assign.mpr ⟨var, built, wellBuilt_expression.mp value _ ht⟩
  | joined same members =>
    subst same
    obtain ⟨var, built, value⟩ := wellBuilt_assign.mp h
    refine wellBuilt_assign.mpr ⟨var, built, wellBuilt_expression.mpr fun m hm => ?_⟩
    rcases members m hm with rfl | hm
    · exact wellBuilt_operator
    · exact wellBuilt_expression.mp value m hm

/-- Splitting succeeds on a well-built tree. What each step establishes beyond that is a matter of
how nodes are put together and of the pieces of statements. -/
theorem establishes_of_pieces {Before : Node → Prop} {R : Node → Node → Prop}
    {S : Node → List Node → Prop} (below : ∀ {n}, Before n → ∀ k ∈ n.subtrees, Before k)
    (node : ∀ {n m}, Before n → Rebuilt R S n m → R n m)
    (statement : ∀ {n m}, Before n → R n m → S n (pieces m)) :
    splitter.Establishes (.except ShapeFault) (fun n => n.WellBuilt ∧ Before n)
      (fun n m => Fits n m ∧ R n m) fun n ms => BuiltBody ms ∧ S n ms where
  below h k hk := ⟨h.1.subtree hk, below h.2 k hk⟩
  node before hx := by
    refine (Outcome.except ShapeFault).mono hx fun m rebuilt => ⟨?_, ?_⟩
    · exact (rebuilt.imp (fun _ _ _ h => h.1) fun _ _ _ h => h.1).fits before.1
    · exact node before.2 (rebuilt.imp (fun _ _ _ h => h.2) fun _ _ _ h => h.2)
  statement before hx := by
    refine (Outcome.except ShapeFault).bind hx fun m h => ?_
    have built := h.1.wellBuilt
    exact ⟨pieces m, split_eq built.accepted, builtBody_pieces built, statement before.2 h.2⟩

end StringBuilding

theorem Node.WellBuilt.splitStringBuilding {n : Node} (h : n.WellBuilt) :
    ∃ m, n.splitStringBuilding = .ok m ∧ m.WellBuilt := by
  have splits : StringBuilding.splitter.Establishes (.except ShapeFault)
      (fun n => n.WellBuilt ∧ True) (fun n m => Fits n m ∧ True)
      fun _ ms => BuiltBody ms ∧ True :=
    StringBuilding.establishes_of_pieces (fun _ _ _ => trivial) (fun _ _ => trivial)
      fun _ _ => trivial
  obtain ⟨m, run, fits, -⟩ := splits.run n ⟨h, trivial⟩
  have spelled := Rebuilder.keepsBuilt_speller.run m fits.wellBuilt
  exact ⟨_, by rw [Node.splitStringBuilding, run]; rfl, spelled.wellBuilt⟩

/-! ### View models -/

namespace ModelLoading

theorem wellBuilt_load (name : String) (data : Value) : (load name data).WellBuilt := by
  have entries : ∀ e ∈ [named "var" (.string name), named "data" (.data data)],
      e.isParameter = true := by simp [named, isParameter]
  have list : (parameters [named "var" (.string name), named "data" (.data data)]).WellBuilt :=
    wellBuilt_parameters.mpr ⟨entries, by simp [named, Node.string]⟩
  exact wellBuilt_call.mpr ⟨⟨_, rfl, entries⟩, list, builtBody_nil⟩

theorem wellBuilt_pass {arguments : List Node} (h : (parameters arguments).WellBuilt)
    (parameter name : String) : (parameters (pass parameter name arguments)).WellBuilt := by
  obtain ⟨entries, built⟩ := wellBuilt_parameters.mp h
  refine wellBuilt_parameters.mpr ⟨fun e he => ?_, fun e he => ?_⟩
  · obtain ⟨a, ha, rfl⟩ := List.mem_map.mp he
    split
    · rfl
    · exact entries a ha
  · obtain ⟨a, ha, rfl⟩ := List.mem_map.mp he
    split
    · simp [named]
    · exact built a ha

theorem wellBuilt_bind (models : Models) (call : String) (requests : List (String × String))
    {arguments : List Node} (h : (parameters arguments).WellBuilt) :
    BuiltBody (bind models call requests arguments).1 ∧
      (parameters (bind models call requests arguments).2).WellBuilt := by
  induction requests generalizing arguments with
  | nil => exact ⟨builtBody_nil, h⟩
  | cons request requests ih =>
    obtain ⟨parameter, path⟩ := request
    rw [bind]
    split
    · exact ih h
    · rename_i data found
      obtain ⟨loads, passed⟩ := ih (wellBuilt_pass h parameter (variableName call parameter))
      exact ⟨builtBody_cons.mpr ⟨wellBuilt_load _ data, loads⟩, passed⟩

theorem call?_eq (name : String) {entries : List Node} (body : List Node)
    (h : ∀ e ∈ entries, e.isParameter = true) :
    call? name entries body = .ok (.call name (.parameters entries) body) := by
  rw [call?, parameters?_eq_ok.mpr ⟨rfl, h⟩]
  rfl

/-- Succeeds when all loads at hand are well built, and keeps them so. -/
abbrev loading : Outcome Loading := .stateful ShapeFault BuiltBody

theorem keepsBuilt (models : Models) : (rebuilder models).KeepsBuilt loading where
  below h _ hk := h.subtree hk
  node {n x} built hx := by
    refine loading.bind (loading.mono hx fun _ rebuilt => rebuilt.fits built) fun m fits => ?_
    dsimp only
    split
    · rename_i name p body callee p' body'
      split
      · exact loading.pure fits
      · intro outer houter
        obtain ⟨list, hp, hbody⟩ := wellBuilt_call.mp fits.wellBuilt
        obtain ⟨entries, rfl, -⟩ := list
        generalize modelRequests (.call name p body) = requests
        obtain ⟨loads, passed⟩ := wellBuilt_bind models name requests hp
        have parameters := (wellBuilt_parameters.mp passed).1
        have made := call?_eq name body' parameters
        refine ⟨.call name (.parameters (bind models name requests entries).2) body', _, ?_,
          ⟨wellBuilt_call.mpr ⟨⟨_, rfl, parameters⟩, passed, hbody⟩, rfl⟩,
          builtBody_append.mpr ⟨houter, loads⟩⟩
        show (call? name (bind models name requests entries).2 body' >>= fun n => .ok (n, _)) = _
        rw [made]
        rfl
    · exact loading.pure fits
  statement {n x} _ hx outer houter := by
    obtain ⟨m, loads, run, fits, hloads⟩ := hx [] builtBody_nil
    refine ⟨loads ++ [m], outer, ?_, ?_, houter⟩
    · show (x.run [] >>= fun r => Except.ok (r.2 ++ [r.1], outer)) = _
      rw [run]
      rfl
    · exact builtBody_append.mpr ⟨hloads, by simpa using fits.wellBuilt⟩

end ModelLoading

theorem Node.WellBuilt.loadModels {n : Node} (h : n.WellBuilt) (models : ModelLoading.Models) :
    ∃ m, n.loadModels models = .ok m ∧ m.WellBuilt := by
  obtain ⟨m, loads, run, fits, hloads⟩ := (ModelLoading.keepsBuilt models).run n h [] builtBody_nil
  refine ⟨if loads.isEmpty then m else .list (loads ++ [m]), ?_, ?_⟩
  · rw [Node.loadModels, run]
    rfl
  · split
    · exact fits.wellBuilt
    · exact wellBuilt_list.mpr (builtBody_append.mpr ⟨hloads, by simpa using fits.wellBuilt⟩)

/-! ### Inlining -/

/-- The code of the macro is well built. -/
def Definition.WellBuilt (d : Definition) : Prop :=
  d.parameters.WellBuilt ∧ BuiltBody d.body

/-- All macros of the library are well built. -/
def Library.WellBuilt (lib : Library) : Prop := ∀ d ∈ lib, d.WellBuilt

theorem Definition.wellBuilt_of_ofNode? {n : Node} {d : Definition} (h : n.WellBuilt)
    (made : ofNode? n = some d) : d.WellBuilt := by
  cases n with
  | macroDef name p body doc =>
    cases made
    exact ⟨h.subtree List.mem_cons_self, fun k hk => h.subtree (List.mem_cons_of_mem _ hk)⟩
  | _ => cases made

theorem Library.wellBuilt_ofTree {n : Node} (h : n.WellBuilt) : (ofTree n).WellBuilt := by
  intro d hd
  obtain ⟨k, hk, made⟩ := List.mem_filterMap.mp hd
  exact Definition.wellBuilt_of_ofNode? (h.part hk) made

theorem Content.wellBuilt_of_macroNode {c : Content} {site name : String} {n : Node}
    (h : c.macroNode site name = .ok n) : n.WellBuilt := by
  obtain ⟨file, t, -, read, top⟩ := exists_parse_of_macroNode h
  exact (Grammar.wellBuilt_of_parse read).part (mem_preorder_of_topMacro? top)

/-- Macros from the content are well built, whatever the content is. -/
theorem Library.WellBuilt.complete {lib : Library} (h : lib.WellBuilt) (c : Content) (site : String)
    (tried : List String) (wanted : NameSet) (m : Memory) :
    (lib.complete c site tried wanted m).1.WellBuilt := by
  intro d hd
  obtain ⟨more, -, -, added⟩ := lib.complete_imports c site tried wanted m
  rcases added d hd with old | ⟨name, n, -, found, made, -⟩
  · exact h d old
  · exact Definition.wellBuilt_of_ofNode? (Content.wellBuilt_of_macroNode found) made

namespace Inlining

theorem WellBuilt.inside {lib : Library} (h : lib.WellBuilt) (n : Node) :
    (inside lib n).WellBuilt := fun d hd => h d (inside_subset lib n hd)

theorem inductive_fits : Inductive
    (fun lib n => ∀ m, lib.WellBuilt → n.WellBuilt → node lib n = .ok m → Fits n m)
    fun lib n => ∀ m, lib.WellBuilt → n.WellBuilt → statement lib n = .ok m → m.WellBuilt where
  parts {lib n} outside elements m known built h := by
    have known := WellBuilt.inside known n
    refine Rebuilt.fits built ((rebuilt_of_node h).imp (fun k hk k' inlined => ?_) fun k hk ks => ?_)
    · exact outside k hk k' known (built.subtree (mem_subtrees_of_mem_outside hk)) inlined
    · rintro ⟨k', stated, rfl⟩
      have built := built.subtree (mem_subtrees_of_mem_elements hk)
      simpa using elements k hk k' known built stated
  kept {lib n} absent own m known built h := by
    rw [statement_of_absent absent] at h
    exact (own m known built h).wellBuilt
  expanded {lib n arguments c block d} called found ofBlock ofArgument ofCode m known built h := by
    obtain ⟨content, settings, statements, rfl, expands⟩ := called.exists_expands found h
    have definition := known d (List.mem_of_find?_eq_some found)
    have call := built.part called.mem_preorder
    have builtBlock : BuiltBody content := by
      intro k' hk'
      obtain ⟨k, hk, stated⟩ := mem_of_body expands.inner k' hk'
      exact ofBlock k hk k' known (call.subtree (List.mem_cons_of_mem _ hk)) stated
    refine wellBuilt_list.mpr (builtBody_append.mpr ⟨fun k' hk' => ?_, fun k' hk' => ?_⟩)
    · obtain ⟨x, v, rfl, setting⟩ := mem_of_bindings expands.bound k' hk'
      suffices value : v.WellBuilt by simp [isVar, value]
      cases setting with
      | @passed name w _ _ given _ inlined =>
        have part := preorder_of_given given
        have argument := (call.subtree List.mem_cons_self).part part
        exact (ofArgument w part v known argument inlined).wellBuilt
      | default declared =>
        have parameter := definition.1.part (preorder_of_parameterList declared)
        exact (wellBuilt_parameter.mp parameter).substitute d builtBlock
      | null => exact wellBuilt_literal
    · obtain ⟨k, hk, stated⟩ := mem_of_body expands.code k' hk'
      obtain ⟨b, hb, rfl⟩ := List.mem_map.mp hk
      have rest : (lib.without c).WellBuilt := fun d hd => known d (without_subset lib c hd)
      exact ofCode _ k' rest ((definition.2 b hb).substitute d builtBlock) stated

theorem fits_of_node {lib : Library} {n m : Node} (known : lib.WellBuilt) (built : n.WellBuilt)
    (h : node lib n = .ok m) : Fits n m :=
  inductive_fits.node lib n m known built h

end Inlining

end TagCompiler
