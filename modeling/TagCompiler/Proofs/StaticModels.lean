import TagCompiler.Proofs.CarriedStrings
import TagCompiler.Proofs.ResolvedModels
/-!
# The view models that the standard pipeline loads

The first pass of the standard pipeline looks up each path by which a call of the tree asks for a
view model, and passes a variable in its place. The tree that comes out at the end has no such path
left in an argument or a binding. Inlining comes later, though: a call in the body of a macro that
is taken from the content keeps the path that it was written with.
-/

namespace TagCompiler

open Node

/-! ### Paths in a tree -/

namespace ModelLoading

/-- The string is written in the tree, other than as the path by which a call asks for a model. -/
inductive Writes : Node → String → Prop
  | literal {s : String} {kind : LiteralKind} : Writes (.literal (.string s) kind) s
  | subtree {n k : Node} {s : String} : (∀ name p body, n ≠ .call name p body) → k ∈ n.subtrees →
      Writes k s → Writes n s
  | argument {name : String} {p a : Node} {body : List Node} {s : String} : a ∈ p.parameterList →
      modelRequest? a = none → Writes a s → Writes (.call name p body) s
  | block {name : String} {p k : Node} {body : List Node} {s : String} : k ∈ body → Writes k s →
      Writes (.call name p body) s

/-- The node passes the string for a parameter with the name of a model, or binds it to the variable
that holds such a parameter. -/
inductive BearsPath : Node → String → Prop
  | argument {name s : String} {kind : LiteralKind} : isModelName name = true →
      BearsPath (.parameter (some name) (some (.literal (.string s) kind))) s
  | binding {owner name s : String} {kind : LiteralKind} {op : AssignOp} : isModelName name = true →
      BearsPath (.assign (.var [boundName owner name]) (.literal (.string s) kind) op) s

theorem ne_var_of_isModelName {name : String} (h : isModelName name = true) : name ≠ "var" := by
  rintro rfl
  exact absurd h (by decide)

/-- The names of models end in a letter that no name of a variable for `var` ends in. -/
theorem getLast?_of_isModelName {name : String} (h : isModelName name = true) :
    name.toList.getLast? = some 'l' := by
  have ends : ∀ {tail : List Char}, tail.getLast? = some 'l' → tail <:+ name.toList →
      name.toList.getLast? = some 'l' := by
    rintro tail last ⟨front, whole⟩
    rw [← whole, List.getLast?_append, last]
    rfl
  simp only [isModelName, Bool.or_eq_true, beq_iff_eq, List.isSuffixOf_iff_suffix] at h
  rcases h with (rfl | h) | h
  · rfl
  · exact ends rfl h
  · exact ends rfl h

theorem holdsName_of_isModelName (owner : String) {name : String} (h : isModelName name = true) :
    (Node.var [boundName owner name]).holdsName = false := by
  refine Bool.eq_false_iff.mpr fun holds => ?_
  obtain ⟨front, whole⟩ := holdsName_var.mp holds
  obtain ⟨lead, parts⟩ := Inlining.suffix_boundName owner name
  have letter : (boundName owner name).toList.getLast? = some 'l' := by
    rw [← parts, List.getLast?_append, getLast?_of_isModelName h]
    rfl
  have other : (boundName owner name).toList.getLast? = some 'r' := by
    rw [← whole, List.getLast?_append]
    rfl
  cases letter.symm.trans other

/-- A path that a node bears is among the strings that it carries. -/
theorem BearsPath.of_carries {n : Node} {s : String} {chains : Prop} {P : String → Prop}
    (h : BearsPath n s) (carries : n.OwnCarries chains P) : P s := by
  cases h with
  | argument model =>
    exact carries (fun same => ne_var_of_isModelName model (Option.some.inj same)) s rfl
  | binding model => exact carries (holdsName_of_isModelName _ model) s rfl

/-! ### Loading -/

theorem carries_load {chains : Prop} {P : String → Prop} (name : String) (data : Value) :
    (load name data).Carries chains P := by
  have entry : ∀ {x : String} {v : Node}, (x ≠ "var" → v.stringText? = none) → v.isLeaf = true →
      (named x v).Carries chains P := by
    intro x v plain leaf
    refine carries_iff.mpr ⟨fun other s hs => ?_, ?_⟩
    · rw [plain fun same => other (congrArg some same)] at hs
      cases hs
    · simpa [named, subtrees] using carries_leaf leaf
  refine carries_iff.mpr ⟨trivial, ?_⟩
  simpa [load, subtrees] using
    ⟨entry (fun other => absurd rfl other) rfl, entry (fun _ => rfl) rfl⟩

theorem exists_of_mem_loads {models : Models} {call : String} {requests : List (String × String)}
    {arguments : List Node} {l : Node} (h : l ∈ (bind models call requests arguments).1) :
    ∃ name data, l = load name data := by
  induction requests generalizing arguments with
  | nil => cases h
  | cons request requests ih =>
    obtain ⟨x, path⟩ := request
    rw [bind] at h
    split at h
    · exact ih h
    · rcases List.mem_cons.mp h with rfl | h
      · exact ⟨_, _, rfl⟩
      · exact ih h

/-- An argument after the models were bound is a variable, or it stood there before and is not one
by which a model was asked for that is known. -/
theorem mem_of_mem_bind {models : Models} {call : String} {requests : List (String × String)}
    {arguments : List Node} {a : Node} (h : a ∈ (bind models call requests arguments).2) :
    (∃ x name, a = .named x (.var [name])) ∨ (a ∈ arguments ∧ ∀ x path, (x, path) ∈ requests →
      (models.lookup path).isSome = true → a.isNamed x = false) := by
  induction requests generalizing arguments with
  | nil => exact .inr ⟨h, by simp⟩
  | cons request requests ih =>
    obtain ⟨x, path⟩ := request
    rw [bind] at h
    split at h
    · rename_i unknown
      rcases ih h with made | ⟨old, kept⟩
      · exact .inl made
      refine .inr ⟨old, fun y other hy known => ?_⟩
      rcases List.mem_cons.mp hy with same | hy
      · cases same
        rw [unknown] at known
        cases known
      · exact kept y other hy known
    · rcases ih h with made | ⟨old, kept⟩
      · exact .inl made
      · obtain ⟨b, hb, rfl⟩ := List.mem_map.mp old
        by_cases asked : b.isNamed x = true
        · rw [if_pos asked]
          exact .inl ⟨x, _, rfl⟩
        · rw [if_neg asked] at kept ⊢
          refine .inr ⟨hb, fun y other hy known => ?_⟩
          rcases List.mem_cons.mp hy with same | hy
          · cases same
            exact Bool.not_eq_true _ ▸ asked
          · exact kept y other hy known

/-- What becomes of a node carries only strings that the node writes, and keeps its name. -/
structure Loaded (n m : Node) : Prop where
  keeps : Keeps n m
  carries : m.Carries True (Writes n)
  named : ∀ x, m.isNamed x = n.isNamed x
  macroName : m.macroName? = n.macroName?

/-- Also the entries of a parameter list are loaded one by one. -/
def LoadedPart (n m : Node) : Prop :=
  Loaded n m ∧ ∀ es, n = .parameters es → ∃ es', m = .parameters es' ∧ List.Forall₂ Loaded es es'

/-- All statements that a statement becomes carry only strings that it writes. -/
def LoadedBody (n : Node) (ms : List Node) : Prop := ∀ m ∈ ms, m.Carries True (Writes n)

theorem loadedPart_of_rebuilt {n m : Node} (h : Rebuilt LoadedPart LoadedBody n m)
    (other : ∀ name p body, n ≠ .call name p body) : LoadedPart n m := by
  refine ⟨⟨h.keeps, h.carries ?_ (fun k hk k' hk' => ?_) fun k hk ks hks k' hk' => ?_, ?_, ?_⟩, ?_⟩
  · refine ownCarries_of_subtrees fun v hv s hs => ?_
    obtain ⟨kind, rfl⟩ := exists_of_stringText? hs
    exact .subtree other hv .literal
  · exact ⟨hk'.1.keeps, hk'.1.carries.imp fun s => .subtree other hk⟩
  · exact (hks k' hk').imp fun s => .subtree other hk
  · intro x
    cases h with
    | @parameter name => cases name <;> rfl
    | _ => rfl
  · cases h <;> rfl
  · rintro es rfl
    cases h with
    | leaf leaf => cases leaf
    | parameters parts =>
      exact ⟨_, rfl, forall₂_imp_of_mem parts fun _ _ _ h => h.1⟩

/-- The step at a call, of which all models are known. -/
theorem loadedPart_call {models : Models} {name : String} {es es' body body' : List Node}
    (arguments : List.Forall₂ Loaded es es') (block : BodyRebuilt LoadedBody body body')
    (known : ∀ path ∈ paths (.call name (.parameters es) body),
      (models.lookup path).isSome = true) :
    LoadedPart (.call name (.parameters es) body) (.call name (.parameters
      (bind models name (modelRequests (.call name (.parameters es) body)) es').2) body') := by
  refine ⟨⟨.of_plain rfl rfl, ?_, fun _ => rfl, rfl⟩, fun _ same => by cases same⟩
  refine carries_iff.mpr ⟨trivial, List.forall_mem_cons.mpr ⟨?_, fun k hk => ?_⟩⟩
  · refine carries_parameters.mpr fun a ha => ?_
    rcases mem_of_mem_bind ha with ⟨x, v, rfl⟩ | ⟨old, kept⟩
    · refine carries_iff.mpr ⟨fun _ s hs => ?_, ?_⟩
      · cases hs
      · simp [named, subtrees]
    · obtain ⟨e, he, loaded⟩ := exists_of_mem_right arguments old
      refine loaded.carries.imp fun s => .argument he ?_
      -- an entry that asks for a model was replaced
      refine Option.eq_none_iff_forall_ne_some.mpr ?_
      rintro ⟨x, path⟩ asks
      have request : (x, path) ∈ modelRequests (.call name (.parameters es) body) :=
        List.mem_filterMap.mpr ⟨e, he, asks⟩
      have listed : path ∈ paths (.call name (.parameters es) body) :=
        List.mem_flatMap.mpr ⟨_, mem_preorder_self _, List.mem_map.mpr ⟨_, request, rfl⟩⟩
      have gone := (loaded.named x).symm.trans (kept x path request (known path listed))
      rw [isNamed_of_modelRequest? asks] at gone
      cases gone
  · obtain ⟨j, hj, ks, loaded, inside⟩ := block.exists_of_mem hk
    exact (loaded k inside).imp fun s => .block hj

/-- Where loading succeeds, with loads and nothing else at hand. -/
abbrev withLoads : Outcome Loading :=
  .onSuccess ShapeFault fun loads => ∀ l ∈ loads, ∃ name data, l = load name data

theorem call_of_call? {name : String} {entries body : List Node} {n : Node}
    (h : call? name entries body = .ok n) : n = .call name (.parameters entries) body := by
  unfold call? at h
  obtain ⟨p, made, h⟩ := ok_of_bind h
  cases h
  rw [(parameters?_eq_ok.mp made).1]

theorem establishes_loaded (models : Models) : (rebuilder models).Establishes withLoads
    (fun n => n.WellBuilt ∧ ∀ path ∈ paths n, (models.lookup path).isSome = true)
    LoadedPart LoadedBody where
  below h k hk := by
    refine ⟨h.1.subtree hk, fun path hpath => h.2 path ?_⟩
    obtain ⟨j, hj, asked⟩ := List.mem_flatMap.mp hpath
    exact List.mem_flatMap.mpr ⟨j, preorder_subset hk hj, asked⟩
  node {n x} before hx := by
    refine withLoads.bind hx fun m rebuilt => ?_
    dsimp only
    split
    · rename_i name p body callee p' body'
      cases rebuilt with
      | leaf leaf => cases leaf
      | call part block =>
        obtain ⟨⟨es, rfl, -⟩, -⟩ := wellBuilt_call.mp before.1
        obtain ⟨es', rfl, arguments⟩ := part.2 es rfl
        have loaded := loadedPart_call arguments block before.2
        split
        · rename_i none
          rw [none] at loaded
          exact withLoads.pure loaded
        · intro loads a after hloads run
          obtain ⟨made, h, same⟩ := ok_of_bind run
          cases same
          cases call_of_call? h
          refine ⟨loaded, fun l hl => ?_⟩
          rcases List.mem_append.mp hl with hl | hl
          · exact hloads l hl
          · exact exists_of_mem_loads hl
    · rename_i other
      refine withLoads.pure (loadedPart_of_rebuilt rebuilt fun name p body same => ?_)
      subst same
      cases rebuilt with
      | leaf leaf => cases leaf
      | call => exact other _ _ _ _ _ _ rfl rfl
  statement {n x} before hx outer ms after houter run := by
    obtain ⟨⟨m, loads⟩, rebuilt, same⟩ := ok_of_bind run
    cases same
    obtain ⟨loaded, hloads⟩ := hx [] m loads (by simp) rebuilt
    refine ⟨fun k hk => ?_, houter⟩
    rcases List.mem_append.mp hk with hk | hk
    · obtain ⟨name, data, rfl⟩ := hloads k hk
      exact carries_load name data
    · rw [List.mem_singleton.mp hk]
      exact loaded.1.carries

/-- Loading the models of a tree, when all of them are known, leaves no path by which a call asks
for one. -/
theorem carries_of_loadModels {models : Models} {n m : Node} (built : n.WellBuilt)
    (known : ∀ path ∈ paths n, (models.lookup path).isSome = true)
    (h : n.loadModels models = .ok m) :
    m.Carries True (Writes n) ∧ ∃ k ∈ m.preorder, k.macroName? = n.macroName? := by
  obtain ⟨⟨k, loads⟩, rebuilt, same⟩ := ok_of_bind h
  obtain ⟨⟨loaded, -⟩, hloads⟩ :=
    (establishes_loaded models).run n ⟨built, known⟩ [] k loads (by simp) rebuilt
  cases same
  split
  · exact ⟨loaded.carries, k, mem_preorder_self k, loaded.macroName⟩
  · have member : k ∈ (list (loads ++ [k])).subtrees := by simp [subtrees, children]
    refine ⟨carries_list.mpr fun j hj => ?_, k, preorder_subset member (mem_preorder_self k),
      loaded.macroName⟩
    rcases List.mem_append.mp hj with hj | hj
    · obtain ⟨name, data, rfl⟩ := hloads j hj
      exact carries_load name data
    · rw [List.mem_singleton.mp hj]
      exact loaded.carries

end ModelLoading

/-! ### The standard pipeline -/

/-- When view models can be looked up, all of them are known then. Those that were not known before
were looked up, and no others. -/
theorem Content.lookUpModels_ok {c : Content} {known models : ModelLoading.Models}
    {paths : List String} {m after : Memory}
    (h : (c.lookUpModels known paths).run m = (.ok models, after)) :
    ∃ more, after.lookups = m.lookups ++ more ∧
      (∀ path, .viewModel path ∈ more ↔ path ∈ paths ∧ ¬(known.lookup path).isSome = true) ∧
      ∀ path, (known.lookup path).isSome = true ∨ path ∈ paths →
        (models.lookup path).isSome = true := by
  induction paths generalizing known m with
  | nil =>
    cases h
    exact ⟨[], by simp, by simp, by simp⟩
  | cons path paths ih =>
    rw [lookUpModels] at h
    split at h
    · rename_i v found
      have old : (known.lookup path).isSome = true := by rw [found]; rfl
      obtain ⟨more, looked, noted, all⟩ := ih h
      exact ⟨more, looked, by grind, by grind⟩
    · rename_i missing
      have new : ¬(known.lookup path).isSome = true := by simp [missing]
      obtain ⟨v, between, viewed, h⟩ := Run.exists_of_bind h
      rw [lookUpModel_run] at viewed
      obtain ⟨-, rfl⟩ := Prod.mk.inj viewed
      obtain ⟨more, looked, noted, all⟩ := ih h
      simp only [ModelLoading.isSome_lookup_concat] at all noted
      exact ⟨.viewModel path :: more, by simp [looked], by grind, by grind⟩

namespace Compiler

theorem exists_of_lower_cons {p : Pass} {passes : List Pass} {r : Renderer}
    {scope : Option SiteContext} {n out : Node} {memory after : Memory}
    (h : (lower ⟨p :: passes, r⟩ scope n).run memory = (.ok out, after)) :
    ∃ tree between, (p.run scope n).run memory = (.ok tree, between) ∧
      (lower ⟨passes, r⟩ scope tree).run between = (.ok out, after) :=
  Run.exists_of_bind h

/-- The passes after inlining look nothing up and make up no string. -/
theorem carries_of_lower_inlined {r : Renderer} {scope : Option SiteContext} {n out : Node}
    {memory after : Memory} {P : String → Prop} (built : n.WellBuilt) (carries : n.Carries True P)
    (h : (lower ⟨[.concat, .empty, .loop, .self "this" "self"], r⟩ scope n).run memory =
      (.ok out, after)) : out.Carries False P ∧ after = memory := by
  obtain ⟨split, between, first, others⟩ := exists_of_lower_cons h
  obtain ⟨made, rfl⟩ := Run.eq_of_ofExcept first
  cases others
  have keeps : ∀ x : String, "_var".toList <:+ x.toList →
      "_var".toList <:+ ((Renaming.single "this" "self").apply x).toList := by
    intro x hx
    have other : x ≠ "this" := by
      rintro rfl
      exact absurd hx (by decide)
    rwa [Renaming.apply, Renaming.single, if_neg other]
  have unchained := (carries.splitStringBuilding built made).unchained
  exact ⟨unchained.useEmptiness.useStatusObject.renameRoots keeps, rfl⟩

/-- The string is written in a macro other than `name` that was looked up. -/
def ImportedString (c : Content) (site name : String) (lookups : List Lookup) (s : String) : Prop :=
  ∃ other d kind, other ≠ name ∧ c.macroNode site other = .ok d ∧ .resolve site other ∈ lookups ∧
    .literal (.string s) kind ∈ d.preorder

theorem contains_ofTree {n k : Node} {name : String} (member : k ∈ n.preorder)
    (named : k.macroName? = some name) : (Library.ofTree n).contains name = true := by
  cases k with
  | macroDef other p body doc =>
    cases named
    refine List.find?_isSome.mpr ⟨⟨name, p, body⟩, List.mem_filterMap.mpr ⟨_, member, rfl⟩, ?_⟩
    simp
  | _ => cases named

/-- Inlining in the tree of a macro takes in strings of other macros only. -/
theorem carries_of_inline {c : Content} {site name : String} {n k tree : Node}
    {memory after : Memory} {P : String → Prop} (built : n.WellBuilt) (carries : n.Carries True P)
    (own : k ∈ n.preorder) (named : k.macroName? = some name)
    (h : (Pass.run (some ⟨c, site⟩) n (.inline true)).run memory = (.ok tree, after)) :
    ∃ more, after.lookups = memory.lookups ++ more ∧
      (∀ l ∈ more, ∃ other, l = .resolve site other) ∧
      tree.WellBuilt ∧ tree.Carries True fun s => P s ∨ ImportedString c site name more s := by
  obtain ⟨lib, between, completed, inlined⟩ := Run.exists_of_bind h
  obtain ⟨made, rfl⟩ := Run.eq_of_ofExcept inlined
  obtain ⟨more, looked, resolves, added⟩ :=
    (Library.ofTree n).complete_imports c site [] (NameSet.ofNames n.callees) memory
  cases completed
  refine ⟨more, looked, resolves, ((Pass.inline true).safe_run built _).of_ok h, ?_⟩
  refine (Inlining.keeps_of_node (fun d hd => ?_) (carries.imp fun _ => .inl) made).2
  rcases added d hd with old | ⟨other, m, absent, found, made, noted⟩
  · obtain ⟨j, hj, made⟩ := List.mem_filterMap.mp old
    exact Definition.carries_of_ofNode? ((carries.part hj).imp fun _ => .inl) made
  · have differ : other ≠ name := by
      rintro rfl
      cases (contains_ofTree own named).symm.trans absent
    refine Definition.carries_of_ofNode? (carries_of_literals fun s kind hs => .inr ?_) made
    exact ⟨other, m, kind, differ, found, noted, hs⟩

/-- Once all models are known, loading them leaves no path to ask by. -/
theorem paths_of_loadModels {models : ModelLoading.Models} {n out : Node} (built : n.WellBuilt)
    (known : ∀ path ∈ ModelLoading.paths n, (models.lookup path).isSome = true)
    (loaded : n.loadModels models = .ok out) : ModelLoading.paths out = [] := by
  have ready : ModelLoading.ModelsKnown (fun path => (models.lookup path).getD .null) models n :=
    ⟨built, fun path hpath => by
      obtain ⟨v, found⟩ := Option.isSome_iff_exists.mp (known path hpath)
      rw [found]
      rfl⟩
  obtain ⟨tree, run, none, -⟩ := ready.resolved
  cases loaded.symm.trans run
  exact none

/-- The standard pipeline looks up the view models that the macro's own calls ask for, and no
others. After its first pass none of these calls passes a string for a parameter with the name of a
model. In the tree that it makes, an argument or a binding for such a parameter bears a path only if
the macro writes it elsewhere than as such an argument, or if it comes from another macro that was
taken in from the content. -/
theorem own_models_looked_up {c : Content} {site name : String} {found : c.Found name}
    {before between after : Memory} {r : Renderer} {out : Node}
    (find : (c.findMacro site name).run before = (.ok found, between))
    (lowered : (lower ⟨Pass.standard, r⟩ (some ⟨c, site⟩) found.node).run between =
      (.ok out, after)) :
    (∃ loaded first, (Pass.staticModel.run (some ⟨c, site⟩) found.node).run between =
        (.ok loaded, first) ∧
      (lower ⟨Pass.standard.tail, r⟩ (some ⟨c, site⟩) loaded).run first = (.ok out, after) ∧
      ∀ call p body, .call call p body ∈ loaded.preorder → ∀ x path kind,
        .parameter (some x) (some (.literal (.string path) kind)) ∈ p.parameterList →
          ModelLoading.isModelName x = false) ∧
    ∃ new, after.lookups = between.lookups ++ new ∧
      (∀ path, .viewModel path ∈ new ↔ path ∈ ModelLoading.paths found.node) ∧
      ∀ k ∈ out.preorder, ∀ path, ModelLoading.BearsPath k path →
        ModelLoading.Writes found.node path ∨ ImportedString c site name new path := by
  have given : c.macroNode site name = .ok found.node := by
    have result := (c.findMacro_run site name before).1
    rw [find] at result
    exact result.symm
  have built := Content.wellBuilt_of_macroNode given
  obtain ⟨file, t, -, -, top⟩ := Content.exists_parse_of_macroNode given
  obtain ⟨loaded, m₁, first, later⟩ := exists_of_lower_cons lowered
  obtain ⟨inlined, m₂, second, others⟩ := exists_of_lower_cons later
  have loadedBuilt := (Pass.staticModel.safe_run built (some ⟨c, site⟩)).of_ok first
  obtain ⟨models, m₀, looked, loads⟩ := Run.exists_of_bind first
  obtain ⟨load, rfl⟩ := Run.eq_of_ofExcept loads
  obtain ⟨more₁, lookups₁, noted, known⟩ := Content.lookUpModels_ok looked
  have known : ∀ path ∈ ModelLoading.paths found.node, (models.lookup path).isSome = true :=
    fun path hpath => known path (.inr hpath)
  refine ⟨⟨loaded, _, first, later, fun call p body member x path kind argument =>
    ModelLoading.isModelName_of_paths_eq_nil (paths_of_loadModels built known load) member
      argument⟩, ?_⟩
  obtain ⟨carries, k, own, named⟩ := ModelLoading.carries_of_loadModels built known load
  obtain ⟨more₂, lookups₂, resolves, inlinedBuilt, carries⟩ := carries_of_inline loadedBuilt carries
    own (named.trans (macroName?_of_topMacro? top)) second
  obtain ⟨carries, rfl⟩ := carries_of_lower_inlined inlinedBuilt carries others
  refine ⟨more₁ ++ more₂, by rw [lookups₂, lookups₁, List.append_assoc], fun path => ?_,
    fun k hk path bears => ?_⟩
  · have absent : .viewModel path ∉ more₂ := by
      intro viewed
      obtain ⟨other, same⟩ := resolves _ viewed
      cases same
    simp [noted, absent]
  · refine (bears.of_carries (carries k hk)).imp_right ?_
    rintro ⟨other, d, kind, differ, imported, resolved, literal⟩
    exact ⟨other, d, kind, differ, imported, List.mem_append_right _ resolved, literal⟩

/-! ### A site with models -/

namespace ModelSite

/-- Two macros, of which the first calls the second. Each asks for a model. -/
def content : Content :=
  let pageFile : Store.Registration := ⟨"base", ⟨"e1", "page", "pages", "page"⟩, "page",
    "\x7b% macro page() %\x7d\x7b\x7b nav(model='page.json') \x7d\x7d" ++
      "\x7b\x7b card() \x7d\x7d\x7b% endmacro %\x7d", []⟩
  let cardFile : Store.Registration := ⟨"base", ⟨"e2", "atom", "atoms", "card"⟩, "card",
    "\x7b% macro card() %\x7d\x7b\x7b nav(model='card.json') \x7d\x7d\x7b% endmacro %\x7d", []⟩
  let files := Store.ofRegistrations [pageFile, cardFile]
  ((files.addViewModel "page.json" .null).addViewModel "card.json" .null).content

def navigation (model : Node) : Node :=
  .output [.call "nav" (.parameters [.named "model" model]) []]

def card : Node := .macroDef "card" (.parameters []) [navigation (.string "card.json")] none

/-- The page, with the model of its own navigation and the statements before and after it. -/
def pageWith (before : List Node) (model : Node) (after : Node) : Node :=
  .macroDef "page" (.parameters []) (before ++ [navigation model, after]) none

def page : Node := pageWith [] (.string "page.json") (.output [.call "card" (.parameters []) []])

def loadedPage : Node :=
  pageWith [ModelLoading.load "nav_model_data" .null] (.var ["nav_model_data"])
    (.output [.call "card" (.parameters []) []])

def loweredPage : Node :=
  pageWith [ModelLoading.load "nav_model_data" .null] (.var ["nav_model_data"])
    (.list [navigation (.string "card.json")])

theorem macroNode_page : content.macroNode "base" "page" = .ok page := by
  unfold Content.macroNode
  simp only [Template.parse_eq]
  cbv

theorem macroNode_card : content.macroNode "base" "card" = .ok card := by
  unfold Content.macroNode
  simp only [Template.parse_eq]
  cbv

theorem macroNode_nav :
    content.macroNode "base" "nav" = .error (.macroNotFound "base" "nav") := by cbv

theorem exists_found_page : ∃ (found : content.Found "page") (between : Memory),
    (content.findMacro "base" "page").run .empty = (.ok found, between) ∧ found.node = page ∧
      between.lookups = [Lookup.resolve "base" "page"] := by
  obtain ⟨found, ok, node⟩ := Content.findMacro_of_ok macroNode_page .empty
  obtain ⟨-, looked⟩ := content.findMacro_run "base" "page" .empty
  exact ⟨found, _, Prod.ext ok rfl, node, looked⟩

/-- Completing the library finds the second macro, but nothing for what both of them call. -/
theorem exists_completed_library (memory : Memory) : ∃ after : Memory,
    (Library.ofTree loadedPage).complete content "base" [] ["card", "nav"] memory =
      (Library.ofTree loadedPage ++ (Definition.ofNode? card).toList, after) ∧
    after.lookups = memory.lookups ++ [Lookup.resolve "base" "card", .resolve "base" "nav"] := by
  have absent : (Library.ofTree loadedPage).contains "card" = false := by decide
  have untried : ([] : List String).contains "card" = false := by decide
  have absent' : Library.contains (Library.ofTree loadedPage ++ (Definition.ofNode? card).toList)
      "nav" = false := by decide
  have untried' : ["card"].contains "nav" = false := by decide
  have wanted : NameSet.addAll card.callees ["nav"] = ["nav"] := by decide
  obtain ⟨m₁, looked₁, first⟩ := Library.complete_found absent untried macroNode_card ["nav"] memory
  obtain ⟨m₂, looked₂, second⟩ := Library.complete_missing absent' untried' macroNode_nav [] m₁
  refine ⟨m₂, ?_, by simp [looked₂, looked₁]⟩
  rw [first, wanted, second, Library.complete]

theorem exists_lowered_page (r : Renderer) (memory : Memory) : ∃ after : Memory,
    (lower ⟨Pass.standard, r⟩ (some ⟨content, "base"⟩) page).run memory = (.ok loweredPage, after) ∧
    after.lookups = memory.lookups ++
      [Lookup.viewModel "page.json", .resolve "base" "card", .resolve "base" "nav"] := by
  let between : Memory :=
    { memory with lookups := memory.lookups ++ [Lookup.viewModel "page.json"] }
  obtain ⟨after, completed, looked⟩ := exists_completed_library between
  have loads : (Pass.run (some ⟨content, "base"⟩) page .staticModel).run memory =
      (.ok loadedPage, between) := rfl
  have wanted : NameSet.ofNames loadedPage.callees = ["card", "nav"] := by decide
  have expands : loadedPage.inline (Library.ofTree loadedPage ++ (Definition.ofNode? card).toList) =
      .ok loweredPage := by cbv
  have inlines : (Pass.run (some ⟨content, "base"⟩) loadedPage (.inline true)).run between =
      (.ok loweredPage, after) := by
    rw [Pass.run, Run.run_bind]
    show Run.andThen _ (.ok ((Library.ofTree loadedPage).complete content "base" []
      (NameSet.ofNames loadedPage.callees) between).1, _) = _
    rw [wanted, completed]
    exact congrArg (fun x => (Run.ofExcept .surplus x).run after) expands
  refine ⟨after, ?_, by simp [looked, between]⟩
  rw [Pass.standard, lower_cons, loads, Run.andThen, lower_cons, inlines]
  rfl

/-- A call that asks for a model writes nothing else. -/
theorem not_writes_navigation (path s : String) :
    ¬ ModelLoading.Writes (navigation (.string path)) s := by
  rintro (_ | ⟨-, part, h⟩)
  obtain rfl := List.mem_singleton.mp part
  cases h with
  | subtree other => exact absurd rfl (other _ _ _)
  | argument given none h =>
    obtain rfl := List.mem_singleton.mp given
    cases none
  | block part => cases part

theorem not_writes_page (s : String) : ¬ ModelLoading.Writes page s := by
  rintro (_ | ⟨-, part, h⟩)
  have parts : page.subtrees = [.parameters [], navigation (.string "page.json"),
    .output [.call "card" (.parameters []) []]] := rfl
  rw [parts] at part
  simp only [List.mem_cons, List.not_mem_nil, or_false] at part
  rcases part with rfl | rfl | rfl
  · cases h with
    | subtree _ part => cases part
  · exact not_writes_navigation _ s h
  · cases h with
    | subtree _ part h =>
      obtain rfl := List.mem_singleton.mp part
      cases h with
      | subtree other => exact absurd rfl (other _ _ _)
      | argument given => cases given
      | block part => cases part

/-- The model of the page's own navigation is looked up. The only path that is left in the tree is
that of the macro which the page calls. -/
theorem page_model_looked_up : ∃ (found : content.Found "page") (between after : Memory),
    (content.findMacro "base" "page").run .empty = (.ok found, between) ∧
    (lower ⟨Pass.standard, .null⟩ (some ⟨content, "base"⟩) found.node).run between =
      (.ok loweredPage, after) ∧
    .viewModel "page.json" ∈ after.lookups ∧
    ∀ k ∈ loweredPage.preorder, ∀ path, ModelLoading.BearsPath k path → path = "card.json" := by
  obtain ⟨found, between, find, node, -⟩ := exists_found_page
  obtain ⟨after, lowered, all⟩ := exists_lowered_page .null between
  rw [← node] at lowered
  obtain ⟨-, new, lookups, looked, bears⟩ := own_models_looked_up find lowered
  rw [node] at looked bears
  refine ⟨found, between, after, find, lowered, ?_, fun k hk path h => ?_⟩
  · rw [lookups]
    exact List.mem_append_right _ ((looked "page.json").mpr (by decide))
  · rcases bears k hk path h with written | ⟨other, d, kind, -, given, resolved, literal⟩
    · exact absurd written (not_writes_page path)
    · rw [List.append_cancel_left (lookups.symm.trans all)] at resolved
      have called : other = "card" ∨ other = "nav" := by simpa using resolved
      rcases called with rfl | rfl
      · cases macroNode_card.symm.trans given
        have only : path = "card.json" ∧ kind = .string := by
          simpa [card, navigation, preorder, preorderAll, Node.string, named] using literal
        exact only.1
      · cases macroNode_nav.symm.trans given

/-- The model of the navigation in the macro that the page calls: the path stays in the tree,
although the content has the model, and is not looked up. -/
theorem card_model_not_looked_up : ∃ (found : content.Found "page") (between after : Memory),
    (content.findMacro "base" "page").run .empty = (.ok found, between) ∧
    .output [.call "card" (.parameters []) []] ∈ found.node.subtrees ∧
    content.macroNode "base" "card" = .ok card ∧ "card.json" ∈ ModelLoading.paths card ∧
    content.viewModel "card.json" = .ok .null ∧
    (lower ⟨Pass.standard, .null⟩ (some ⟨content, "base"⟩) found.node).run between =
      (.ok loweredPage, after) ∧
    .viewModel "card.json" ∉ after.lookups ∧
    ∃ k ∈ loweredPage.preorder, ModelLoading.BearsPath k "card.json" := by
  obtain ⟨found, between, find, node, looked⟩ := exists_found_page
  obtain ⟨after, lowered, later⟩ := exists_lowered_page .null between
  rw [← node] at lowered
  refine ⟨found, between, after, find, ?_, macroNode_card, by decide, rfl, lowered, ?_,
    .named "model" (.string "card.json"), ?_, .argument rfl⟩
  · rw [node]
    simp [page, pageWith, subtrees]
  · simp [later, looked]
  · simp [loweredPage, pageWith, navigation, preorder, preorderAll, mem_preorder_self]

end ModelSite
end Compiler
end TagCompiler
