import TagCompiler.Proofs.PassSafety
/-!
# What loading view models makes of a tree

Loading walks a tree with the loads of the statement at hand as its state. Here the walk is
described without a state. A statement asks for the models that the calls outside of its bodies
name, those of an inner call before those of the call around it. It becomes the loads of these
models, followed by itself with variables for the arguments.
-/

namespace TagCompiler

open Node

namespace ModelLoading

/-! ### The models that a statement asks for -/

/-- The variables that a call asks for, each with the path of its model. -/
def ownRequests : Node → List (String × String)
  | .call name p body =>
    (modelRequests (.call name p body)).map fun r => (variableName name r.1, r.2)
  | _ => []

mutual

/-- The variables that a statement asks for in calls outside of its bodies, each with the path of
its model, in the order of the loads. -/
def asked : Node → List (String × String)
  | .parameter _ (some v) => asked v
  | .parameters cs | .array cs | .condition cs | .expression cs | .group cs | .output cs =>
    askedAll cs
  | .call name p body => asked p ++ ownRequests (.call name p body)
  | .macroDef _ p _ _ => asked p
  | .assign t v _ => asked t ++ asked v
  | .branch c _ _ => asked c
  | .loop _ _ v _ => asked v
  | .filter _ v p => asked v ++ asked p
  | _ => []

def askedAll : List Node → List (String × String)
  | [] => []
  | n :: ns => asked n ++ askedAll ns

end

/-! ### What becomes of a tree -/

/-- What becomes of an argument, when these parameters of the called macro take a model. -/
def passed (call : String) (parameters : List String) : Node → Node
  | .parameter (some x) v =>
    if x ∈ parameters then .named x (.var [variableName call x]) else .parameter (some x) v
  | a => a

section

variable (data : String → Value)

/-- Loads for variables, each with the path of its model. -/
def loadsOf (requests : List (String × String)) : List Node :=
  requests.map fun r => load r.1 (data r.2)

mutual

/-- The tree with a variable for each argument that names a model, and with the loads in its
bodies. -/
def lowered : Node → Node
  | .parameter x (some v) => .parameter x (some (lowered v))
  | .parameters cs => .parameters (loweredAll cs)
  | .array cs => .array (loweredAll cs)
  | .call name p body =>
    let parameters := (modelRequests (.call name p body)).map Prod.fst
    .call name (.parameters ((lowered p).parameterList.map (passed name parameters)))
      (loweredBody body)
  | .macroDef name p body doc => .macroDef name (lowered p) (loweredBody body) doc
  | .assign t v op => .assign (lowered t) (lowered v) op
  | .branch c yes no => .branch (lowered c) (loweredBody yes) (loweredBody no)
  | .loop key item v body => .loop key item (lowered v) (loweredBody body)
  | .condition cs => .condition (loweredAll cs)
  | .expression cs => .expression (loweredAll cs)
  | .group cs => .group (loweredAll cs)
  | .filter name v p => .filter name (lowered v) (lowered p)
  | .output cs => .output (loweredAll cs)
  | .list body => .list (loweredBody body)
  | n => n

def loweredAll : List Node → List Node
  | [] => []
  | n :: ns => lowered n :: loweredAll ns

/-- The body with the loads of each statement in front of it. -/
def loweredBody : List Node → List Node
  | [] => []
  | n :: ns => loadsOf data (asked n) ++ lowered n :: loweredBody ns

end

/-- What a statement becomes. -/
def emitted (n : Node) : List Node := loadsOf data (asked n) ++ [lowered data n]

variable {data}

theorem askedAll_eq (ns : List Node) : askedAll ns = ns.flatMap asked := by
  induction ns with
  | nil => rfl
  | cons n ns ih => rw [askedAll, ih, List.flatMap_cons]

theorem loweredAll_eq (ns : List Node) : loweredAll data ns = ns.map (lowered data) := by
  induction ns with
  | nil => rfl
  | cons n ns ih => rw [loweredAll, ih, List.map_cons]

theorem loweredBody_eq (ns : List Node) : loweredBody data ns = ns.flatMap (emitted data) := by
  induction ns with
  | nil => rfl
  | cons n ns ih => simp [loweredBody, ih, emitted]

theorem isParameter_lowered {n : Node} (h : n.isParameter = true) :
    (lowered data n).isParameter = true := by
  cases n with
  | parameter x v => cases v <;> rfl
  | _ => cases h

theorem isParameter_passed {call : String} {parameters : List String} {a : Node}
    (h : a.isParameter = true) : (passed call parameters a).isParameter = true := by
  unfold passed
  split
  · split <;> rfl
  · exact h

theorem passed_nil (call : String) : passed call [] = id := by
  funext a
  unfold passed
  split <;> simp

/-- Passing one more variable first changes the arguments with its name, which are then done. -/
theorem passed_cons (call x : String) (parameters : List String) (a : Node) :
    passed call parameters
        (if a.isNamed x then .named x (.var [variableName call x]) else a) =
      passed call (x :: parameters) a := by
  by_cases asks : a.isNamed x = true
  · rw [if_pos asks]
    cases a with
    | parameter name v =>
      cases name with
      | none => cases asks
      | some y =>
        obtain rfl : y = x := by simpa [isNamed] using asks
        simp [passed, named]
    | _ => cases asks
  · rw [if_neg asks]
    unfold passed
    split
    · rename_i y v
      have other : y ≠ x := by simpa [isNamed] using asks
      simp [other]
    · rfl

/-! ### The walk -/

/-- When all models are known, a call has a load for each of its requests. -/
theorem bind_eq {models : Models} (call : String) {requests : List (String × String)}
    (known : ∀ r ∈ requests, models.lookup r.2 = some (data r.2)) (arguments : List Node) :
    bind models call requests arguments =
      (loadsOf data (requests.map fun r => (variableName call r.1, r.2)),
        arguments.map (passed call (requests.map Prod.fst))) := by
  induction requests generalizing arguments with
  | nil => simp [bind, loadsOf, passed_nil]
  | cons r requests ih =>
    obtain ⟨found, known⟩ := List.forall_mem_cons.mp known
    have arguments_eq : (pass r.1 (variableName call r.1) arguments).map
        (passed call (requests.map Prod.fst)) =
          arguments.map (passed call ((r :: requests).map Prod.fst)) := by
      rw [pass, List.map_map]
      exact List.map_congr_left fun a _ => passed_cons call r.1 _ a
    rw [bind, found]
    dsimp only
    rw [ih known, arguments_eq]
    rfl

/-- The computation gives this result, and adds the loads for these requests. -/
def Yields (data : String → Value) {α : Type} (x : Loading α) (a : α)
    (requests : List (String × String)) : Prop :=
  ∀ loads, x.run loads = .ok (a, loads ++ loadsOf data requests)

namespace Yields

variable {α β : Type} {x : Loading α} {a : α} {requests : List (String × String)}

theorem pure (a : α) : Yields data (Pure.pure a) a [] := by
  intro loads
  simp [loadsOf, StateT.run, Pure.pure, StateT.pure, Except.pure]

theorem bind {f : α → Loading β} {b : β} {more : List (String × String)}
    (first : Yields data x a requests) (second : Yields data (f a) b more) :
    Yields data (x >>= f) b (requests ++ more) := by
  intro loads
  rw [StateT.run_bind, first]
  show (f a).run _ = _
  rw [second, loadsOf, loadsOf, loadsOf, List.map_append, List.append_assoc]

/-- The second computation asks for nothing, as those for bodies do. -/
theorem bind_silent {f : α → Loading β} {b : β} (first : Yields data x a requests)
    (second : Yields data (f a) b []) : Yields data (x >>= f) b requests := by
  simpa using first.bind second

theorem map (h : Yields data x a requests) (f : α → β) :
    Yields data (x >>= fun a => Pure.pure (f a)) (f a) requests := h.bind_silent (pure (f a))

theorem statement {models : Models} {x : Loading Node} {n : Node} (h : Yields data x n requests) :
    Yields data ((rebuilder models).statement x) (loadsOf data requests ++ [n]) [] := by
  intro loads
  show (x.run [] >>= fun r => Except.ok (r.2 ++ [r.1], loads)) = _
  rw [h, List.nil_append]
  simp [loadsOf, Bind.bind, Except.bind]

/-- Only calls are changed. -/
theorem node_other {models : Models} {x : Loading Node} {n m : Node}
    (other : ∀ name p body, n ≠ .call name p body) (h : Yields data x m requests) :
    Yields data ((rebuilder models).node n x) m requests := by
  have same : (rebuilder models).node n x = x >>= fun m => Pure.pure m := by
    refine congrArg (x >>= ·) (funext fun m => ?_)
    dsimp only
    split
    · exact absurd rfl (other _ _ _)
    · rfl
  rw [same]
  exact h.map id

end Yields

/-- A tree that can be built, of which all models are known. -/
structure ModelsKnown (data : String → Value) (models : Models) (n : Node) : Prop where
  built : n.WellBuilt
  known : ∀ path ∈ paths n, models.lookup path = some (data path)

theorem paths_subset {k n : Node} (h : k ∈ n.preorder) : paths k ⊆ paths n := by
  intro path hpath
  obtain ⟨j, hj, named⟩ := List.mem_flatMap.mp hpath
  exact List.mem_flatMap.mpr ⟨j, preorder_trans h hj, named⟩

theorem ModelsKnown.subtree {models : Models} {n k : Node} (h : ModelsKnown data models n)
    (hk : k ∈ n.subtrees) : ModelsKnown data models k where
  built := h.built.subtree hk
  known path hpath := h.known path (paths_subset (preorder_subset hk (mem_preorder_self k)) hpath)

/-- The step at a call. -/
theorem Yields.node_call {models : Models} {name : String} {p : Node} {body : List Node}
    {x : Loading Node} (ready : ModelsKnown data models (.call name p body))
    (h : Yields data x (.call name (lowered data p) (loweredBody data body)) (asked p)) :
    Yields data ((rebuilder models).node (.call name p body) x)
      (lowered data (.call name p body)) (asked (.call name p body)) := by
  obtain ⟨⟨entries, rfl, parameters⟩, -, -⟩ := wellBuilt_call.mp ready.built
  rw [asked, lowered]
  refine h.bind ?_
  dsimp only
  have known : ∀ r ∈ modelRequests (.call name (.parameters entries) body),
      models.lookup r.2 = some (data r.2) := fun r hr =>
    ready.known r.2 (List.mem_flatMap.mpr ⟨_, mem_preorder_self _, List.mem_map_of_mem hr⟩)
  rw [ownRequests]
  split
  · rename_i none
    rw [none]
    simp only [List.map_nil, passed_nil, List.map_id]
    rw [lowered]
    exact .pure _
  · rw [bind_eq name known]
    intro loads
    have built : ∀ e ∈ (lowered data (.parameters entries)).parameterList.map (passed name
        ((modelRequests (.call name (.parameters entries) body)).map Prod.fst)),
        e.isParameter = true := by
      intro e he
      obtain ⟨a, ha, rfl⟩ := List.mem_map.mp he
      rw [lowered, loweredAll_eq] at ha
      obtain ⟨k, hk, rfl⟩ := List.mem_map.mp ha
      exact isParameter_passed (isParameter_lowered (parameters k hk))
    show (call? name _ _ >>= fun n => Except.ok (n, _)) = _
    rw [call?_eq name _ built]
    rfl

mutual

theorem yields_run {models : Models} : (n : Node) → ModelsKnown data models n →
    Yields data ((rebuilder models).run n) (lowered data n) (asked n)
  | .data v, _ | .literal v _, _ | .text v, _ | .var v, _ | .operator v, _ | .connective v, _
  | .parameter v none, _ | .yield, _ => .node_other (by simp) (.pure _)
  | .parameter x (some v), h =>
    .node_other (by simp) ((yields_run v (h.subtree (by simp [subtrees]))).map _)
  | .parameters cs, h | .array cs, h | .condition cs, h | .expression cs, h | .group cs, h
  | .output cs, h => .node_other (by simp) ((yields_runAll cs fun n hn => h.subtree hn).map _)
  | .list body, h => .node_other (by simp) ((yields_runBody body fun n hn => h.subtree hn).map _)
  | .call name p body, h => by
    have arguments := yields_run p (h.subtree (by simp [subtrees]))
    have block := yields_runBody body fun n hn => h.subtree (by simp [subtrees, hn])
    exact Yields.node_call h (arguments.bind_silent (block.map _))
  | .macroDef name p body doc, h => by
    have parameters := yields_run p (h.subtree (by simp [subtrees]))
    have block := yields_runBody body fun n hn => h.subtree (by simp [subtrees, hn])
    exact .node_other (by simp) (parameters.bind_silent (block.map _))
  | .assign t v op, h =>
    .node_other (by simp) ((yields_run t (h.subtree (by simp [subtrees]))).bind
      ((yields_run v (h.subtree (by simp [subtrees]))).map _))
  | .branch c yes no, h => by
    have condition := yields_run c (h.subtree (by simp [subtrees]))
    have first := yields_runBody yes fun n hn => h.subtree (by simp [subtrees, hn])
    have second := yields_runBody no fun n hn => h.subtree (by simp [subtrees, hn])
    exact .node_other (by simp) (condition.bind_silent (first.bind_silent (second.map _)))
  | .loop key item v body, h => by
    have source := yields_run v (h.subtree (by simp [subtrees]))
    have block := yields_runBody body fun n hn => h.subtree (by simp [subtrees, hn])
    exact .node_other (by simp) (source.bind_silent (block.map _))
  | .filter name v p, h =>
    .node_other (by simp) ((yields_run v (h.subtree (by simp [subtrees]))).bind
      ((yields_run p (h.subtree (by simp [subtrees]))).map _))

theorem yields_runAll {models : Models} : (ns : List Node) → (∀ n ∈ ns, ModelsKnown data models n) →
    Yields data ((rebuilder models).runAll ns) (loweredAll data ns) (askedAll ns)
  | [], _ => .pure _
  | n :: ns, h => (yields_run n (h n List.mem_cons_self)).bind
      ((yields_runAll ns fun m hm => h m (List.mem_cons_of_mem n hm)).map _)

theorem yields_runBody {models : Models} : (ns : List Node) →
    (∀ n ∈ ns, ModelsKnown data models n) →
      Yields data ((rebuilder models).runBody ns) (loweredBody data ns) []
  | [], _ => .pure _
  | n :: ns, h => by
    have first := yields_run n (h n List.mem_cons_self)
    have rest := yields_runBody ns fun m hm => h m (List.mem_cons_of_mem n hm)
    rw [loweredBody, List.append_cons]
    exact first.statement.bind_silent (rest.map _)

end

theorem topLevel_of_ne_list {n : Node} (h : ∀ body, n ≠ .list body) : n.topLevel = [n] := by
  unfold topLevel
  split
  · exact absurd rfl (h _)
  · rfl

theorem lowered_ne_list {n : Node} (h : ∀ body, n ≠ .list body) (body : List Node) :
    lowered data n ≠ .list body := by
  cases n with
  | list other => exact absurd rfl (h other)
  | parameter x v => cases v <;> simp [lowered]
  | _ => simp [lowered]

/-- The top level becomes what a body with its statements becomes, also where loads for a call at
the root make a list of the tree. -/
theorem ModelsKnown.loadModels {models : Models} {n : Node} (h : ModelsKnown data models n) :
    ∃ out, n.loadModels models = .ok out ∧ out.topLevel = loweredBody data n.topLevel := by
  have walk : ((rebuilder models).run n).run [] = .ok (lowered data n, loadsOf data (asked n)) :=
    yields_run n h []
  refine ⟨if (loadsOf data (asked n)).isEmpty then lowered data n else
    .list (loadsOf data (asked n) ++ [lowered data n]), by rw [Node.loadModels, walk]; rfl, ?_⟩
  by_cases list : ∃ body, n = .list body
  · obtain ⟨body, rfl⟩ := list
    rfl
  · have single : ∀ body, n ≠ .list body := fun body same => list ⟨body, same⟩
    rw [topLevel_of_ne_list single, loweredBody, loweredBody]
    split
    · rename_i none
      rw [List.isEmpty_iff.mp none, topLevel_of_ne_list (lowered_ne_list single)]
      rfl
    · rfl

end
end ModelLoading

/-! ### Lookups -/

/-- The data of a view model that there is. -/
def Content.modelData (c : Content) (path : String) : Value :=
  (c.viewModel path).toOption.getD .null

theorem Content.viewModel_eq_modelData {c : Content} {path : String}
    (h : ∃ v, c.viewModel path = .ok v) : c.viewModel path = .ok (c.modelData path) := by
  obtain ⟨v, found⟩ := h
  rw [modelData, found]
  rfl

theorem nodup_eraseDups (names : List String) : names.eraseDups.Nodup := by
  induction hn : names.length using Nat.strongRecOn generalizing names with
  | ind length ih =>
    cases names with
    | nil => simp
    | cons name names =>
      have shorter : (names.filter (!· == name)).length < length := by
        have le := List.length_filter_le (!· == name) names
        rw [List.length_cons] at hn
        omega
      rw [List.eraseDups_cons, List.nodup_cons]
      exact ⟨by simp [List.mem_eraseDups], ih _ shorter _ rfl⟩

/-- The memory after lookups of view models. -/
def Memory.noting (m : Memory) (paths : List String) : Memory :=
  { m with lookups := m.lookups ++ paths.map Lookup.viewModel }

theorem Memory.noting_append (m : Memory) (front back : List String) :
    (m.noting front).noting back = m.noting (front ++ back) := by
  simp [noting]

theorem ModelLoading.isSome_lookup_concat (models : Models) (path p : String) (v : Value) :
    ((models ++ [(path, v)]).lookup p).isSome = true ↔
      (models.lookup p).isSome = true ∨ p = path := by
  rw [List.lookup_append, List.lookup_cons]
  cases same : p == path <;> simp_all

namespace Content

variable {c : Content}

/-- A path is looked up only where it occurs first, and not if it is known before. -/
theorem lookUpModels_eq_eraseDups (known : ModelLoading.Models) (paths : List String) :
    c.lookUpModels known paths =
      c.lookUpModels known (paths.filter fun p => (known.lookup p).isNone).eraseDups := by
  induction paths generalizing known with
  | nil => rfl
  | cons path paths ih =>
    rw [lookUpModels]
    split
    · rename_i v found
      rw [ih, List.filter_cons_of_neg (by simp [found])]
    · rename_i missing
      rw [List.filter_cons_of_pos (by simp [missing]), List.eraseDups_cons, lookUpModels, missing]
      -- From here on the path is known, so that its other occurrences are passed over.
      refine congrArg (c.lookUpModel path >>= ·) (funext fun v => ?_)
      rw [ih, List.filter_filter]
      refine congrArg (fun new => c.lookUpModels _ (List.eraseDups new)) ?_
      refine List.filter_congr fun p _ => ?_
      have added := ModelLoading.isSome_lookup_concat known path p v
      grind

/-- Models that there are and that are not known yet are looked up one after the other. -/
theorem lookUpModels_append {known : ModelLoading.Models} {front : List String}
    (nodup : front.Nodup) (new : ∀ p ∈ front, known.lookup p = none)
    (exist : ∀ p ∈ front, ∃ v, c.viewModel p = .ok v) (back : List String) (m : Memory) :
    (c.lookUpModels known (front ++ back)).run m =
      (c.lookUpModels (known ++ front.map fun p => (p, c.modelData p)) back).run
        (m.noting front) := by
  induction front generalizing known m with
  | nil => simp [Memory.noting]
  | cons path front ih =>
    obtain ⟨absent, nodup⟩ := List.nodup_cons.mp nodup
    obtain ⟨missing, new⟩ := List.forall_mem_cons.mp new
    obtain ⟨here, exist⟩ := List.forall_mem_cons.mp exist
    have stillNew : ∀ p ∈ front, (known ++ [(path, c.modelData path)]).lookup p = none := by
      intro p hp
      have other : p ≠ path := by
        rintro rfl
        exact absent hp
      rw [← Option.not_isSome_iff_eq_none, ModelLoading.isSome_lookup_concat, new p hp]
      simp [other]
    rw [List.cons_append, lookUpModels, missing]
    dsimp only
    rw [Run.run_bind, lookUpModel_run, viewModel_eq_modelData here]
    have more := ih nodup stillNew exist (m.noting [path])
    rw [Memory.noting_append, List.append_assoc] at more
    exact more

theorem lookUpModels_nil_eq_eraseDups (paths : List String) :
    c.lookUpModels [] paths = c.lookUpModels [] paths.eraseDups := by
  have all : paths.filter (fun p => (List.lookup p ([] : ModelLoading.Models)).isNone) = paths :=
    List.filter_eq_self.mpr fun _ _ => rfl
  rw [lookUpModels_eq_eraseDups, all]

/-- The first model that there is not ends the lookups. -/
theorem lookUpModels_fault {paths front back : List String} {path : String} {fault : LookupError}
    (order : paths.eraseDups = front ++ path :: back)
    (exist : ∀ p ∈ front, ∃ v, c.viewModel p = .ok v) (missing : c.viewModel path = .error fault)
    (m : Memory) : (c.lookUpModels [] paths).run m =
      (.error (modelFault fault), m.noting (front ++ [path])) := by
  have nodup := nodup_eraseDups paths
  rw [order] at nodup
  obtain ⟨first, -, apart⟩ := List.nodup_append.mp nodup
  have unknown : (front.map fun p => (p, c.modelData p)).lookup path = none := by
    refine List.lookup_eq_none_iff.mpr (List.forall_mem_map.mpr fun p hp => ?_)
    simpa using (apart p hp path List.mem_cons_self).symm
  rw [lookUpModels_nil_eq_eraseDups, order, lookUpModels_append first (by simp) exist,
    List.nil_append, lookUpModels, unknown]
  dsimp only
  rw [Run.run_bind, lookUpModel_run, missing, ← Memory.noting_append]
  rfl

/-- When there are all models, each of them is looked up. -/
theorem lookUpModels_exist {paths : List String} (exist : ∀ p ∈ paths, ∃ v, c.viewModel p = .ok v)
    (m : Memory) : (c.lookUpModels [] paths).run m =
      (.ok (paths.eraseDups.map fun p => (p, c.modelData p)), m.noting paths.eraseDups) := by
  rw [lookUpModels_nil_eq_eraseDups, ← List.append_nil paths.eraseDups,
    lookUpModels_append (nodup_eraseDups paths) (by simp)
      (fun p hp => exist p (List.mem_eraseDups.mp hp)), List.append_nil]
  rfl

end Content

/-! ### The pass -/

section

open ModelLoading

variable {c : Content} {n : Node} (built : n.WellBuilt)
  (exist : ∀ path ∈ paths n, ∃ v, c.viewModel path = .ok v) (site : String) (m : Memory)
include built exist

/-- When there are all models that a tree asks for, each is looked up once. Then all are known. -/
theorem Pass.staticModel_ready : ∃ models, ModelsKnown c.modelData models n ∧
    ∀ out, n.loadModels models = .ok out → (Pass.staticModel.run (some ⟨c, site⟩) n).run m =
      (.ok out, m.noting (paths n).eraseDups) := by
  refine ⟨(paths n).eraseDups.map fun p => (p, c.modelData p), ⟨built, fun path hpath => ?_⟩,
    fun out loaded => ?_⟩
  · exact List.lookup_graph c.modelData (List.mem_eraseDups.mpr hpath)
  · rw [Pass.run, Run.run_bind]
    dsimp only
    rw [Content.lookUpModels_exist exist, Run.andThen, loaded]
    rfl

/-- When there are all models that a tree asks for, then loading them succeeds. -/
theorem Pass.staticModel_run :
    ∃ out after, (Pass.staticModel.run (some ⟨c, site⟩) n).run m = (.ok out, after) ∧
      out.topLevel = loweredBody c.modelData n.topLevel := by
  obtain ⟨models, ready, run⟩ := Pass.staticModel_ready built exist site m
  obtain ⟨out, loaded, top⟩ := ready.loadModels
  exact ⟨out, _, run out loaded, top⟩

end

end TagCompiler
