import TagCompiler.Proofs.LoadedData
import TagCompiler.Proofs.SettledStrings
/-!
# View models are looked up once, and none is left to look up

The paths by which the calls of a tree ask for view models are collected first, and each is looked
up where it occurs first. Then the tree is walked, and the arguments that asked become variables.
Both find the same calls: in the tree that comes out no call asks for a model, so another run looks
nothing up and keeps it.

What else a call passes is kept, with one exception. Every argument with the name of one that asks
becomes the variable, also if it does not ask itself.
-/

namespace TagCompiler

open Grammar Node

/-! ### Trees without known models -/

namespace ModelLoading

theorem paths_eq (n : Node) :
    paths n = (ownRequests n).map Prod.snd ++ n.subtrees.flatMap paths := by
  unfold paths
  rw [Node.preorder_eq_cons, List.flatMap_cons, List.flatMap_assoc]
  cases n with
  | call name p body => simp [ownRequests]
  | _ => rfl

theorem paths_eq_nil_iff {n : Node} :
    paths n = [] ↔ ownRequests n = [] ∧ ∀ k ∈ n.subtrees, paths k = [] := by
  rw [paths_eq, List.append_eq_nil_iff, List.map_eq_nil_iff, List.flatMap_eq_nil_iff]

theorem bind_of_unknown {models : Models} (call : String) {requests : List (String × String)}
    (unknown : ∀ r ∈ requests, models.lookup r.2 = none) (arguments : List Node) :
    bind models call requests arguments = ([], arguments) := by
  induction requests with
  | nil => rfl
  | cons r requests ih =>
    obtain ⟨first, others⟩ := List.forall_mem_cons.mp unknown
    rw [bind, first]
    exact ih others

/-- Loading keeps a tree of which no model is known. -/
theorem establishes_kept (models : Models) : (rebuilder models).Establishes
    (.stateful ShapeFault (· = []))
    (fun n => n.WellBuilt ∧ ∀ path ∈ paths n, models.lookup path = none) Eq
    fun n ms => ms = [n] where
  below {n} h k hk := ⟨h.1.subtree hk, fun path hpath =>
    h.2 path (paths_subset (preorder_subset hk (mem_preorder_self k)) hpath)⟩
  node {n x} h made := by
    refine Outcome.bind _ made fun m rebuilt => ?_
    obtain rfl : n = m := rebuilt.eq_self (f := fun s => [s]) fun _ _ => rfl
    cases n with
    | call name p body =>
      obtain ⟨⟨entries, rfl, parameters⟩, -, -⟩ := wellBuilt_call.mp h.1
      dsimp only
      split
      · exact Outcome.pure _ rfl
      · have unknown : ∀ r ∈ modelRequests (.call name (.parameters entries) body),
            models.lookup r.2 = none := fun r hr =>
          h.2 r.2 (List.mem_flatMap.mpr ⟨_, mem_preorder_self _, List.mem_map_of_mem hr⟩)
        rw [bind_of_unknown name unknown]
        intro loads none
        subst none
        refine ⟨_, [], ?_, rfl, rfl⟩
        show (call? name entries body >>= fun n => Except.ok (n, [])) = _
        rw [call?_eq name body parameters]
        rfl
    | _ => exact Outcome.pure _ rfl
  statement {n x} h made loads none := by
    subst none
    obtain ⟨m, after, run, rfl, rfl⟩ := made [] rfl
    refine ⟨[n], [], ?_, rfl, rfl⟩
    show (x.run [] >>= fun r => Except.ok (r.2 ++ [r.1], [])) = _
    rw [run]
    rfl

theorem loadModels_eq_self {models : Models} {n : Node} (built : n.WellBuilt)
    (unknown : ∀ path ∈ paths n, models.lookup path = none) : n.loadModels models = .ok n := by
  obtain ⟨m, loads, run, rfl, rfl⟩ := (establishes_kept models).run n ⟨built, unknown⟩ [] rfl
  rw [Node.loadModels, run]
  rfl

/-! ### Trees with their models loaded -/

section

variable {data : String → Value}

theorem bodyRebuilt_loweredBody (body : List Node) :
    BodyRebuilt (fun s ms => ms = emitted data s) body (loweredBody data body) := by
  induction body with
  | nil => exact .nil
  | cons s body ih =>
    rw [loweredBody, List.append_cons]
    exact .cons rfl ih

/-- Nodes other than calls are put together from what becomes of their subtrees. -/
theorem rebuilt_lowered {n : Node} (other : ∀ name p body, n ≠ .call name p body) :
    Rebuilt (fun k k' => k' = lowered data k) (fun s ms => ms = emitted data s) n
      (lowered data n) := by
  have parts : ∀ cs : List Node,
      List.Forall₂ (fun k k' => k' = lowered data k) cs (loweredAll data cs) := fun cs => by
    rw [loweredAll_eq, List.forall₂_map_right_iff]
    exact List.forall₂_same.mpr fun _ _ => rfl
  cases n with
  | call name p body => exact absurd rfl (other name p body)
  | parameter x v =>
    cases v with
    | none => exact .leaf rfl
    | some v => exact .parameter rfl
  | parameters cs => exact .parameters (parts cs)
  | array cs => exact .array (parts cs)
  | condition cs => exact .condition (parts cs)
  | expression cs => exact .expression (parts cs)
  | group cs => exact .group (parts cs)
  | output cs => exact .output (parts cs)
  | macroDef name p body doc => exact .macroDef rfl (bodyRebuilt_loweredBody body)
  | assign t v op => exact .assign rfl rfl
  | branch c yes no =>
    exact .branch rfl (bodyRebuilt_loweredBody yes) (bodyRebuilt_loweredBody no)
  | loop key item v body => exact .loop rfl (bodyRebuilt_loweredBody body)
  | filter name v p => exact .filter rfl rfl
  | list body => exact .list (bodyRebuilt_loweredBody body)
  | data | literal | text | var | operator | connective | yield => exact .leaf rfl

theorem lowered_eq_literal {n : Node} {v : Value} {kind : LiteralKind}
    (h : lowered data n = .literal v kind) : n = .literal v kind := by
  cases n with
  | literal => exact h
  | parameter x w => cases w <;> cases h
  | _ => cases h

theorem isNamed_of_modelRequest? {n : Node} {name path : String}
    (h : modelRequest? n = some (name, path)) : n.isNamed name = true := by
  unfold modelRequest? at h
  split at h
  · split at h
    · cases h
      simp [isNamed]
    · cases h
  · cases h

/-- An argument of which a model is asked for was one before. -/
theorem modelRequest?_of_lowered {a : Node} {x path : String}
    (h : modelRequest? (lowered data a) = some (x, path)) : modelRequest? a = some (x, path) := by
  obtain ⟨kind, same⟩ := exists_of_modelRequest? h
  cases a with
  | parameter y v =>
    cases v with
    | none => cases same
    | some v =>
      obtain ⟨rfl, value⟩ : y = some x ∧ lowered data v = .literal (.string path) kind := by
        simpa [lowered] using same
      rw [lowered, value] at h
      rw [lowered_eq_literal value, h]
  | _ => cases same

/-- No argument that is passed asks for a model. -/
theorem modelRequest?_passed {call : String} {args : List Node} {a : Node} (h : a ∈ args) :
    modelRequest? (passed call ((args.filterMap modelRequest?).map Prod.fst) (lowered data a)) =
      none := by
  refine Option.eq_none_iff_forall_ne_some.mpr ?_
  rintro ⟨x, path⟩ asks
  unfold passed at asks
  split at asks
  · rename_i y v same
    split at asks
    · cases asks
    · rename_i absent
      rw [← same] at asks
      have named := isNamed_of_modelRequest? asks
      obtain rfl : y = x := by simpa [same, isNamed] using named
      exact absent (List.mem_map_of_mem (List.mem_filterMap.mpr
        ⟨a, h, modelRequest?_of_lowered asks⟩))
  · rename_i unnamed
    obtain ⟨kind, same⟩ := exists_of_modelRequest? asks
    exact unnamed _ _ same

theorem paths_load (v : String) (d : Value) : paths (load v d) = [] := by
  have names : isModelName "var" = false ∧ isModelName "data" = false := by decide
  simp [paths, load, named, Node.string, preorder, preorderAll, modelRequests, parameterList,
    modelRequest?, names]

theorem paths_of_mem_emitted {s k : Node} (h : k ∈ emitted data s)
    (own : paths (lowered data s) = []) : paths k = [] := by
  rcases List.mem_append.mp h with h | h
  · obtain ⟨r, -, rfl⟩ := List.mem_map.mp h
    exact paths_load _ _
  · rwa [List.mem_singleton.mp h]

theorem paths_passed {call : String} {parameters : List String} {a : Node} (h : paths a = []) :
    paths (passed call parameters a) = [] := by
  unfold passed
  split
  · split
    · rfl
    · exact h
  · exact h

theorem paths_of_mem_loweredBody {body : List Node} {k : Node} (h : k ∈ loweredBody data body)
    (own : ∀ s ∈ body, paths (lowered data s) = []) : paths k = [] := by
  obtain ⟨s, hs, -, rfl, hk⟩ := (bodyRebuilt_loweredBody body).exists_of_mem h
  exact paths_of_mem_emitted hk (own s hs)

/-- No call asks for a model any more. -/
theorem paths_lowered {n : Node} (built : n.WellBuilt) : paths (lowered data n) = [] := by
  induction n using induction_on_subtrees with
  | step n ih =>
    have below : ∀ k ∈ n.subtrees, paths (lowered data k) = [] :=
      fun k hk => ih k hk (built.subtree hk)
    by_cases call : ∃ name p body, n = .call name p body
    · obtain ⟨name, p, body, rfl⟩ := call
      obtain ⟨⟨args, rfl, -⟩, -, -⟩ := wellBuilt_call.mp built
      obtain ⟨arguments, block⟩ := List.forall_mem_cons.mp below
      -- The call itself, then what is inside of its arguments, then its body.
      rw [lowered, lowered, loweredAll_eq, parameterList, List.map_map]
      refine paths_eq_nil_iff.mpr ⟨?_, List.forall_mem_cons.mpr ⟨?_, fun k hk => ?_⟩⟩
      · refine List.map_eq_nil_iff.mpr (List.filterMap_eq_nil_iff.mpr ?_)
        exact List.forall_mem_map.mpr fun a ha => modelRequest?_passed ha
      · refine paths_eq_nil_iff.mpr ⟨rfl, List.forall_mem_map.mpr fun a ha => paths_passed ?_⟩
        rw [lowered, loweredAll_eq] at arguments
        exact (paths_eq_nil_iff.mp arguments).2 _ (List.mem_map_of_mem ha)
      · exact paths_of_mem_loweredBody hk block
    · have other : ∀ name p body, n ≠ .call name p body :=
        fun name p body same => call ⟨name, p, body, same⟩
      refine paths_eq_nil_iff.mpr ⟨?_, fun k hk => ?_⟩
      · have none : ∀ name p body, lowered data n ≠ .call name p body := lowered_ne_call other
        generalize lowered data n = m at none
        cases m with
        | call name p body => exact absurd rfl (none name p body)
        | _ => rfl
      · obtain ⟨j, hj, rfl | ⟨-, rfl, hk⟩⟩ := (rebuilt_lowered other).exists_of_mem_subtrees hk
        · exact below j hj
        · exact paths_of_mem_emitted hk (below j hj)

end

/-! ### What is kept -/

/-- One of the arguments of a call asks for a model under this name. -/
def NamesModel (arguments : List Node) (x : String) : Prop :=
  ∃ a ∈ arguments, ∃ path, modelRequest? a = some (x, path)

mutual

/-- The second tree is the first one with its models loaded. Only arguments of calls are changed. -/
inductive Resolved (data : String → Value) : Node → Node → Prop
  | other {n m : Node} : (∀ name p body, n ≠ .call name p body) →
      Rebuilt (Resolved data) (ResolvedStatement data) n m → Resolved data n m
  | call {name : String} {args args' body body' : List Node} :
      ResolvedArguments data name args args args' →
      BodyRebuilt (ResolvedStatement data) body body' →
      Resolved data (.call name (.parameters args) body) (.call name (.parameters args') body')

/-- A statement is kept, after a load for each model that its calls ask for. -/
inductive ResolvedStatement (data : String → Value) : Node → List Node → Prop
  | loaded {n m : Node} {loads : List Node} :
      (∀ l, l ∈ loads ↔ ∃ v path, AsksFor n v path ∧ l = load v (data path)) →
      Resolved data n m → ResolvedStatement data n (loads ++ [m])

/-- Arguments of a call, where `all` are the arguments that it has. Those that have the name of one
that asks for a model become the variable, and the others are kept. -/
inductive ResolvedArguments (data : String → Value) :
    String → List Node → List Node → List Node → Prop
  | nil {name : String} {all : List Node} : ResolvedArguments data name all [] []
  | passed {name x : String} {v : Option Node} {all as as' : List Node} : NamesModel all x →
      ResolvedArguments data name all as as' →
      ResolvedArguments data name all (.parameter (some x) v :: as)
        (.named x (.var [variableName name x]) :: as')
  | kept {name : String} {a a' : Node} {all as as' : List Node} :
      (∀ x, NamesModel all x → a.isNamed x = false) → Resolved data a a' →
      ResolvedArguments data name all as as' →
      ResolvedArguments data name all (a :: as) (a' :: as')

end

/-- A whole tree. Loads for calls at its root make a list of it. -/
inductive ResolvedTree (data : String → Value) (n : Node) : Node → Prop
  | alone {m : Node} : ResolvedStatement data n [m] → ResolvedTree data n m
  | list {ms : List Node} : 1 < ms.length → ResolvedStatement data n ms →
      ResolvedTree data n (.list ms)

section

variable {data : String → Value}

theorem mem_loadsOf_asked {n l : Node} :
    l ∈ loadsOf data (asked n) ↔ ∃ v path, AsksFor n v path ∧ l = load v (data path) := by
  simp only [loadsOf, List.mem_map, Prod.exists, mem_asked_iff, eq_comm]

theorem resolvedStatement_emitted {n : Node} (h : Resolved data n (lowered data n)) :
    ResolvedStatement data n (emitted data n) := .loaded (fun _ => mem_loadsOf_asked) h

theorem mem_requested_iff {args : List Node} {x : String} :
    x ∈ (args.filterMap modelRequest?).map Prod.fst ↔ NamesModel args x := by
  simp only [NamesModel, List.mem_map, List.mem_filterMap, Prod.exists, exists_and_right,
    exists_eq_right]
  constructor
  · rintro ⟨path, a, ha, asks⟩
    exact ⟨a, ha, path, asks⟩
  · rintro ⟨a, ha, path, asks⟩
    exact ⟨path, a, ha, asks⟩

theorem exists_of_isNamed {a : Node} {x : String} (h : a.isNamed x = true) :
    ∃ v, a = .parameter (some x) v := by
  unfold isNamed at h
  split at h
  · exact ⟨_, by rw [eq_of_beq h]⟩
  · cases h

theorem passed_eq_self {call : String} {parameters : List String} {a : Node}
    (h : ∀ x ∈ parameters, a.isNamed x = false) : passed call parameters a = a := by
  unfold passed
  split
  · rename_i x v
    refine if_neg fun listed => ?_
    simpa [isNamed] using h x listed
  · rfl

theorem isNamed_lowered (a : Node) (x : String) : (lowered data a).isNamed x = a.isNamed x := by
  cases a with
  | parameter y v => cases v <;> cases y <;> rfl
  | _ => rfl

/-- Each argument is passed as a variable, or kept. -/
theorem resolvedArguments_passed {name : String} {all as : List Node}
    (h : ∀ a ∈ as, Resolved data a (lowered data a)) :
    ResolvedArguments data name all as ((as.map (lowered data)).map
      (passed name ((all.filterMap modelRequest?).map Prod.fst))) := by
  induction as with
  | nil => exact .nil
  | cons a as ih =>
    obtain ⟨own, others⟩ := List.forall_mem_cons.mp h
    rw [List.map_cons, List.map_cons]
    by_cases named : ∃ x, NamesModel all x ∧ a.isNamed x = true
    · obtain ⟨x, asks, named⟩ := named
      obtain ⟨w, same⟩ := exists_of_isNamed ((isNamed_lowered a x).trans named)
      obtain ⟨v, rfl⟩ := exists_of_isNamed named
      rw [same, passed, if_pos (mem_requested_iff.mpr asks)]
      exact .passed asks (ih others)
    · have unnamed : ∀ x, NamesModel all x → a.isNamed x = false := fun x asks =>
        Bool.eq_false_iff.mpr fun own => named ⟨x, asks, own⟩
      have kept : ∀ x ∈ (all.filterMap modelRequest?).map Prod.fst,
          (lowered data a).isNamed x = false := fun x hx =>
        (isNamed_lowered a x).trans (unnamed x (mem_requested_iff.mp hx))
      rw [passed_eq_self kept]
      exact .kept unnamed own (ih others)

theorem forall_of_resolved_parameters {args : List Node}
    (h : Resolved data (.parameters args) (lowered data (.parameters args))) :
    ∀ a ∈ args, Resolved data a (lowered data a) := by
  rw [lowered, loweredAll_eq] at h
  generalize each : args.map (lowered data) = args' at h
  cases h with
  | other _ rebuilt =>
    cases rebuilt with
    | leaf leaf => cases leaf
    | parameters parts =>
      rw [← each, List.forall₂_map_right_iff] at parts
      exact List.forall₂_same.mp parts

theorem resolved_lowered {n : Node} (built : n.WellBuilt) : Resolved data n (lowered data n) := by
  induction n using induction_on_subtrees with
  | step n ih =>
    have below : ∀ k ∈ n.subtrees, Resolved data k (lowered data k) :=
      fun k hk => ih k hk (built.subtree hk)
    by_cases call : ∃ name p body, n = .call name p body
    · obtain ⟨name, p, body, rfl⟩ := call
      obtain ⟨⟨args, rfl, -⟩, -, -⟩ := wellBuilt_call.mp built
      obtain ⟨arguments, block⟩ := List.forall_mem_cons.mp below
      rw [lowered, lowered, loweredAll_eq]
      refine .call (resolvedArguments_passed (forall_of_resolved_parameters arguments))
        ((bodyRebuilt_loweredBody body).imp ?_)
      rintro k hk _ rfl
      exact resolvedStatement_emitted (block k hk)
    · have other : ∀ name p body, n ≠ .call name p body :=
        fun name p body same => call ⟨name, p, body, same⟩
      refine .other other ((rebuilt_lowered other).imp ?_ ?_)
      · rintro k hk _ rfl
        exact below k (mem_subtrees_of_mem_outside hk)
      · rintro k hk _ rfl
        exact resolvedStatement_emitted (below k (mem_subtrees_of_mem_elements hk))

theorem resolvedTree_of_emitted {n : Node} (built : n.WellBuilt) :
    ResolvedTree data n (if (loadsOf data (asked n)).isEmpty then lowered data n else
      .list (emitted data n)) := by
  have statement : ResolvedStatement data n (emitted data n) :=
    resolvedStatement_emitted (resolved_lowered built)
  split
  · rename_i none
    rw [emitted, List.isEmpty_iff.mp none] at statement
    exact .alone statement
  · rename_i some
    refine .list ?_ statement
    have loads : 0 < (loadsOf data (asked n)).length :=
      List.length_pos_iff.mpr fun none => some (by simp [none])
    rw [emitted, List.length_append, List.length_singleton]
    omega

/-- When all models are known, none is left to load, and the rest of the tree is kept. -/
theorem ModelsKnown.resolved {models : Models} {n : Node} (h : ModelsKnown data models n) :
    ∃ out, n.loadModels models = .ok out ∧ paths out = [] ∧ ResolvedTree data n out := by
  have walk : ((rebuilder models).run n).run [] = .ok (lowered data n, loadsOf data (asked n)) :=
    yields_run n h []
  refine ⟨_, by rw [Node.loadModels, walk]; rfl, ?_, resolvedTree_of_emitted h.built⟩
  split
  · exact paths_lowered h.built
  · exact paths_eq_nil_iff.mpr ⟨rfl, fun k hk => paths_of_mem_emitted hk (paths_lowered h.built)⟩

theorem isModelName_of_paths_eq_nil {n : Node} (h : paths n = []) {name : String} {p : Node}
    {body : List Node} (member : .call name p body ∈ n.preorder) {x s : String} {kind : LiteralKind}
    (argument : .parameter (some x) (some (.literal (.string s) kind)) ∈ p.parameterList) :
    isModelName x = false := by
  refine Bool.eq_false_iff.mpr fun model => ?_
  have asks : (x, s) ∈ modelRequests (.call name p body) :=
    List.mem_filterMap.mpr ⟨_, argument, by rw [modelRequest?, if_pos model]⟩
  have listed : s ∈ paths n := List.mem_flatMap.mpr ⟨_, member, List.mem_map_of_mem asks⟩
  rw [h] at listed
  cases listed

end

end ModelLoading

/-! ### The pass -/

open ModelLoading

/-- Without a site, or where no call asks for a model, nothing is looked up and the tree is kept. -/
theorem Pass.staticModel_run_eq_self {scope : Option SiteContext} {n : Node} (built : n.WellBuilt)
    (h : scope = none ∨ paths n = []) (m : Memory) :
    (Pass.staticModel.run scope n).run m = (.ok n, m) := by
  have kept : n.loadModels [] = .ok n := loadModels_eq_self built fun _ _ => rfl
  cases scope with
  | none =>
    rw [Pass.run, Run.run_bind]
    show (Run.ofExcept .shape (n.loadModels [])).run m = _
    rw [kept]
    rfl
  | some s =>
    rw [Pass.run, Run.run_bind]
    dsimp only
    rw [h.resolve_left (by simp)]
    show (Run.ofExcept .shape (n.loadModels [])).run m = _
    rw [kept]
    rfl

/-- **Models are looked up once.** The first model of a template that there is not ends a run with
its error, after lookups of it and of the models before it. When there are all models, a run looks
up each of them once, where it is named first. In the tree that comes out no argument names a model,
so that another run looks up nothing and keeps it. What else the template has is kept, aside from
arguments with the name of one that asks for a model. A run without a site changes nothing. -/
theorem Template.models_looked_up_once {source : String} {n : Node}
    (parsed : Template.parse source = .ok n) (c : Content) (site : String) (before : Memory) :
    (∀ front path back fault, (paths n).eraseDups = front ++ path :: back →
      (∀ p ∈ front, ∃ v, c.viewModel p = .ok v) → c.viewModel path = .error fault →
        (Pass.staticModel.run (some ⟨c, site⟩) n).run before =
          (.error (modelFault fault), before.noting (front ++ [path]))) ∧
    ((∀ path ∈ paths n, ∃ v, c.viewModel path = .ok v) →
      ∃ out, (Pass.staticModel.run (some ⟨c, site⟩) n).run before =
          (.ok out, before.noting (paths n).eraseDups) ∧
        (∀ name p body, .call name p body ∈ out.preorder → ∀ x s kind,
          .parameter (some x) (some (.literal (.string s) kind)) ∈ p.parameterList →
            isModelName x = false) ∧
        ResolvedTree c.modelData n out ∧
        ∀ scope after, (Pass.staticModel.run scope out).run after = (.ok out, after)) ∧
    (Pass.staticModel.run none n).run before = (.ok n, before) := by
  have built := wellBuilt_of_parse parsed
  refine ⟨fun front path back fault order exist missing => ?_, fun exist => ?_,
    Pass.staticModel_run_eq_self built (.inl rfl) before⟩
  · rw [Pass.run, Run.run_bind]
    dsimp only
    rw [Content.lookUpModels_fault order exist missing]
    rfl
  · obtain ⟨models, ready, run⟩ := Pass.staticModel_ready built exist site before
    obtain ⟨out, loaded, none, resolved⟩ := ready.resolved
    have run := run out loaded
    refine ⟨out, run, fun name p body member x s kind argument =>
      isModelName_of_paths_eq_nil none member argument, resolved, fun scope after => ?_⟩
    exact Pass.staticModel_run_eq_self ((Pass.staticModel.safe_run built _).of_ok run)
      (.inr none) after

/-! ### Models for one macro and an inner one -/

namespace NavigationModels

/-- A call with another one in an argument, and a call for the model of the first. -/
def repeated : Node :=
  .list [.output [.call "nav" (.parameters [.named "model" (.string "a.json"),
    .named "title" (.call "menu" (.parameters [.named "model" (.string "b.json")]) [])]) []],
    menu (.string "a.json")]

theorem parse_repeated : Template.parse ("\x7b\x7b nav(model='a.json', " ++
    "title=menu(model='b.json')) \x7d\x7d\x7b\x7b nav(model='a.json') \x7d\x7d") =
      .ok repeated := by
  rw [Template.parse_eq]
  cbv

theorem paths_repeated : paths repeated = ["a.json", "b.json", "a.json"] := by decide

/-- Two lookups for three arguments. Where there is only the first model, both are looked up too,
and the run ends with the error of the second. -/
theorem repeated_models_looked_up_once :
    Template.parse ("\x7b\x7b nav(model='a.json', " ++
      "title=menu(model='b.json')) \x7d\x7d\x7b\x7b nav(model='a.json') \x7d\x7d") = .ok repeated ∧
    (∃ out, (Pass.staticModel.run (some ⟨content, "base"⟩) repeated).run .empty =
        (.ok out, Memory.empty.noting ["a.json", "b.json"]) ∧
      (Pass.staticModel.run (some ⟨content, "base"⟩) out).run .empty = (.ok out, .empty)) ∧
    ∃ fault, (Pass.staticModel.run
        (some ⟨(Store.empty.addViewModel "a.json" (.bool true)).content, "base"⟩) repeated).run
          .empty = (.error (modelFault fault), Memory.empty.noting ["a.json", "b.json"]) := by
  have order : (paths repeated).eraseDups = ["a.json"] ++ "b.json" :: [] := by
    rw [paths_repeated]
    decide
  refine ⟨parse_repeated, ?_, ?_⟩
  · obtain ⟨-, loads, -⟩ := Template.models_looked_up_once parse_repeated content "base" .empty
    obtain ⟨out, run, -, -, again⟩ := loads (by
      rw [paths_repeated]
      simp only [List.forall_mem_cons]
      exact ⟨⟨_, rfl⟩, ⟨_, rfl⟩, ⟨_, rfl⟩, by simp⟩)
    rw [order] at run
    exact ⟨out, run, again _ _⟩
  · obtain ⟨fails, -⟩ := Template.models_looked_up_once parse_repeated
      (Store.empty.addViewModel "a.json" (.bool true)).content "base" .empty
    exact ⟨_, fails _ _ _ _ order (List.forall_mem_singleton.mpr ⟨_, rfl⟩) rfl⟩

/-- A call that passes two arguments of one name. -/
def doubled (first second : Node) : Node :=
  .output [.call "nav" (.parameters [.named "model" first, .named "model" second]) []]

/-- An argument with the name of one that asks for a model is lost, although it is no path. -/
theorem argument_lost_by_name :
    Template.parse "\x7b\x7b nav(model='a.json', model=x) \x7d\x7d" =
      .ok (.list [doubled (.string "a.json") (.var ["x"])]) ∧
    .var ["x"] ∈ (doubled (.string "a.json") (.var ["x"])).preorder ∧
    ∃ out after, (Pass.staticModel.run (some ⟨content, "base"⟩)
        (.list [doubled (.string "a.json") (.var ["x"])])).run .empty = (.ok out, after) ∧
      out = .list [load held (.bool true), doubled (.var [held]) (.var [held])] ∧
      .var ["x"] ∉ out.preorder := by
  refine ⟨?_, ?_, _, _, rfl, rfl, ?_⟩
  · rw [Template.parse_eq]
    cbv
  · simp [doubled, named, preorder, preorderAll]
  · show Node.var ["x"] ∉ (Node.list [load held (.bool true),
      doubled (.var [held]) (.var [held])]).preorder
    simp [doubled, named, load, held, Node.string, preorder, preorderAll]

end NavigationModels
end TagCompiler
