import TagCompiler.Proofs.StoreHistories
/-!
# Sites do not interfere

Two contents that answer alike for a site cannot be told apart by what a compiler does for it. The
argument follows two computations side by side, one for each content: they make the same lookups,
get the same answers and go on alike, through the macros that are looked up for inlining and through
every pass. What the compiler remembers may differ in both, as it does not show in a result.

A store answers for a site by what was registered for this site and by the view models. So what is
added for other sites makes no difference.
-/

namespace TagCompiler

/-! ### Two computations side by side -/

/-- Both fail for the same reason, or both succeed with related values. -/
inductive SameResult {α β : Type} (R : α → β → Prop) :
    Except CompileError α → Except CompileError β → Prop
  | ok {a : α} {b : β} : R a b → SameResult R (.ok a) (.ok b)
  | error (e : CompileError) : SameResult R (.error e) (.error e)

theorem SameResult.eq {α : Type} {x y : Except CompileError α} (h : SameResult Eq x y) : x = y := by
  cases h with
  | ok same => rw [same]
  | error e => rfl

namespace Run

variable {α β γ δ : Type} {R : α → β → Prop} {S : γ → δ → Prop}

/-- The two computations cannot be told apart: whatever is remembered, their results are related and
they make the same lookups. -/
def Alike (R : α → β → Prop) (x : Run α) (y : Run β) : Prop :=
  ∀ m m', SameResult R (x.run m).1 (y.run m').1 ∧ ∃ made,
    (x.run m).2.lookups = m.lookups ++ made ∧ (y.run m').2.lookups = m'.lookups ++ made

namespace Alike

theorem pure {a : α} {b : β} (h : R a b) : Alike R (Pure.pure a) (Pure.pure b) :=
  fun m m' => ⟨.ok h, [], (List.append_nil m.lookups).symm, (List.append_nil m'.lookups).symm⟩

theorem throw (e : CompileError) :
    Alike R (MonadExcept.throw e : Run α) (MonadExcept.throw e : Run β) :=
  fun m m' => ⟨.error e, [], (List.append_nil m.lookups).symm, (List.append_nil m'.lookups).symm⟩

theorem note (l : Lookup) : Alike Eq (Run.note l) (Run.note l) :=
  fun _ _ => ⟨.ok rfl, [l], rfl, rfl⟩

theorem ofExcept {ε : Type} (wrap : ε → CompileError) (x : Except ε α) :
    Alike Eq (Run.ofExcept wrap x) (Run.ofExcept wrap x) := by
  intro m m'
  rw [run_ofExcept, run_ofExcept]
  refine ⟨?_, [], by simp⟩
  cases x with
  | ok a => exact .ok rfl
  | error e => exact .error (wrap e)

/-- One computation after another. -/
theorem bind {x : Run α} {y : Run β} {f : α → Run γ} {g : β → Run δ} (first : Alike R x y)
    (next : ∀ a b, R a b → Alike S (f a) (g b)) : Alike S (x >>= f) (y >>= g) := by
  intro m m'
  obtain ⟨same, made, left, right⟩ := first m m'
  rw [run_bind, run_bind]
  rcases hx : x.run m with ⟨r, m₁⟩
  rcases hy : y.run m' with ⟨r', m₁'⟩
  rw [hx, hy] at same
  rw [hx] at left
  rw [hy] at right
  cases same with
  | error e => exact ⟨.error e, made, left, right⟩
  | ok related =>
    obtain ⟨same, more, left', right'⟩ := next _ _ related m₁ m₁'
    refine ⟨same, made ++ more, ?_, ?_⟩
    · rw [← List.append_assoc, ← left]
      exact left'
    · rw [← List.append_assoc, ← right]
      exact right'

theorem map {f : α → γ} {g : β → γ} {x : Run α} {y : Run β} (h : Alike R x y)
    (same : ∀ a b, R a b → f a = g b) : Alike Eq (f <$> x) (g <$> y) := by
  rw [← bind_pure_comp, ← bind_pure_comp]
  exact h.bind fun a b related => .pure (same a b related)

end Alike

/-- What a computation shows: its result, and the lookups it makes. -/
def observed (x : Run α) (cache : ParseCache) : Except CompileError α × List Lookup :=
  ((x.run ⟨cache, []⟩).1, (x.run ⟨cache, []⟩).2.lookups)

theorem Alike.observed_eq {x y : Run α} (h : Alike Eq x y) (cache cache' : ParseCache) :
    x.observed cache = y.observed cache' := by
  obtain ⟨same, made, left, right⟩ := h ⟨cache, []⟩ ⟨cache', []⟩
  exact Prod.ext same.eq (left.trans right.symm)

end Run

/-! ### Contents that answer alike for a site -/

structure Content.AgreeOn (site : String) (c c' : Content) : Prop where
  resolve : ∀ name, c.resolve site name = c'.resolve site name
  properties : ∀ entity, c.properties site entity = c'.properties site entity
  viewModel : ∀ path, c.viewModel path = c'.viewModel path

namespace Content.AgreeOn

open Run

variable {site : String} {c c' : Content}

theorem macroNode (h : AgreeOn site c c') (name : String) :
    c.macroNode site name = c'.macroNode site name := by
  rw [Content.macroNode, Content.macroNode, h.resolve]

theorem findMacro (h : AgreeOn site c c') (name : String) :
    Alike (fun d d' => d.node = d'.node) (c.findMacro site name) (c'.findMacro site name) := by
  intro m m'
  refine ⟨?_, _, (c.findMacro_run site name m).2, (c'.findMacro_run site name m').2⟩
  cases given : c.macroNode site name with
  | error e =>
    have given' := (h.macroNode name).symm.trans given
    rw [c.findMacro_of_error given m, c'.findMacro_of_error given' m']
    exact .error e
  | ok n =>
    obtain ⟨d, found, node⟩ := c.findMacro_of_ok given m
    obtain ⟨d', found', node'⟩ := c'.findMacro_of_ok ((h.macroNode name).symm.trans given) m'
    rw [found, found']
    exact .ok (node.trans node'.symm)

theorem ownerProperties (h : AgreeOn site c c') (name : String) :
    Alike Eq (c.ownerProperties site name) (c'.ownerProperties site name) := by
  unfold Content.ownerProperties
  refine .bind (.note _) fun _ _ _ => ?_
  rw [h.resolve]
  refine .bind (.ofExcept _ _) fun file _ same => ?_
  subst same
  refine .bind (.note _) fun _ _ _ => ?_
  rw [h.properties]
  exact .ofExcept _ _

theorem lookUpModel (h : AgreeOn site c c') (path : String) :
    Alike Eq (c.lookUpModel path) (c'.lookUpModel path) := by
  unfold Content.lookUpModel
  refine .bind (.note _) fun _ _ _ => ?_
  rw [h.viewModel]
  cases c'.viewModel path with
  | ok v => exact .pure rfl
  | error e => cases e <;> exact .throw _

theorem lookUpModels (h : AgreeOn site c c') (known : ModelLoading.Models) (paths : List String) :
    Alike Eq (c.lookUpModels known paths) (c'.lookUpModels known paths) := by
  induction paths generalizing known with
  | nil => exact .pure rfl
  | cons path paths ih =>
    rw [Content.lookUpModels, Content.lookUpModels]
    split
    · exact ih known
    · refine .bind (h.lookUpModel path) fun v _ same => ?_
      subst same
      exact ih _

/-- The second content has the same macros, so completing a library takes the same turns. -/
theorem complete (h : AgreeOn site c c') (lib : Library) (tried : List String) (wanted : NameSet)
    (m m' : Memory) :
    (lib.complete c site tried wanted m).1 = (lib.complete c' site tried wanted m').1 ∧ ∃ made,
      (lib.complete c site tried wanted m).2.lookups = m.lookups ++ made ∧
      (lib.complete c' site tried wanted m').2.lookups = m'.lookups ++ made := by
  induction lib, tried, wanted using Library.complete_induction c site generalizing m m' with
  | nil lib tried =>
    rw [Library.complete, Library.complete]
    exact ⟨rfl, [], by simp⟩
  | skipped lib tried name rest skipped ih =>
    rw [Library.complete_skipped skipped, Library.complete_skipped skipped]
    exact ih m m'
  | looked lib tried name rest known new ih =>
    have sameDefinition : c'.definition? site name = c.definition? site name := by
      rw [Content.definition?, Content.definition?, h.macroNode name]
    have sameCalls : c'.calledBy site name = c.calledBy site name := by
      rw [Content.calledBy, Content.calledBy, h.macroNode name]
    obtain ⟨after, noted, next⟩ := Library.complete_looked c site known new rest m
    obtain ⟨after', noted', next'⟩ := Library.complete_looked c' site known new rest m'
    obtain ⟨same, made, left, right⟩ := ih after after'
    rw [next, next', sameDefinition, sameCalls]
    exact ⟨same, .resolve site name :: made, by simp [left, noted], by simp [right, noted']⟩

theorem complementing (h : AgreeOn site c c') (n : Node) :
    Alike Eq (Library.complementing c site n) (Library.complementing c' site n) :=
  fun m m' =>
    (h.complete (.ofTree n) [] (NameSet.ofNames n.callees) m m').imp_left fun same => .ok same

theorem run (h : AgreeOn site c c') (n : Node) (p : Pass) :
    Alike Eq (p.run (some ⟨c, site⟩) n) (p.run (some ⟨c', site⟩) n) := by
  cases p with
  | clone | decorate | empty | loop | self => exact .pure rfl
  | concat => exact .ofExcept _ _
  | inline external =>
    cases external with
    | false => exact .bind (.pure (R := Eq) rfl) fun lib _ same => same ▸ .ofExcept _ _
    | true => exact .bind (h.complementing n) fun lib _ same => same ▸ .ofExcept _ _
  | staticModel =>
    exact .bind (h.lookUpModels [] (ModelLoading.paths n)) fun models _ same => same ▸ .ofExcept _ _

theorem lower (h : AgreeOn site c c') (k : Compiler) (n : Node) :
    Alike Eq (k.lower (some ⟨c, site⟩) n) (k.lower (some ⟨c', site⟩) n) := by
  unfold Compiler.lower
  induction k.passes generalizing n with
  | nil => exact .pure rfl
  | cons p passes ih =>
    rw [List.foldlM_cons, List.foldlM_cons]
    exact .bind (h.run n p) fun lowered _ same => same ▸ ih lowered

theorem compileMacro (h : AgreeOn site c c') (k : Compiler) (name : String) :
    Alike Eq (k.compileMacro c ⟨site, name⟩) (k.compileMacro c' ⟨site, name⟩) := by
  refine .bind (h.findMacro name) fun d d' same => ?_
  rw [same]
  exact .bind (h.lower k d'.node) fun lowered _ same => same ▸ .ofExcept _ _

end Content.AgreeOn

/-! ### Operations for a site -/

/-- What a compiler can be asked for a site. -/
inductive SiteOperation where
  | findMacro (name : String)
  | ownerProperties (name : String)
  | lower (tree : Node)
  | compileMacro (name : String)

inductive SiteAnswer where
  | tree (n : Node)
  | properties (ps : Members)
  | text (s : String)

namespace Compiler

variable (k : Compiler) (c : Content)

def performFor (site : String) : SiteOperation → Run SiteAnswer
  | .findMacro name => (fun d => .tree d.node) <$> c.findMacro site name
  | .ownerProperties name => .properties <$> c.ownerProperties site name
  | .lower tree => .tree <$> k.lower (some ⟨c, site⟩) tree
  | .compileMacro name => .text <$> k.compileMacro c ⟨site, name⟩

/-- An entry of a batch: what was requested, the result, and the lookups made for it. -/
structure Entry where
  request : Request
  result : Except CompileError String
  lookups : List Lookup

def entry (r : Request) (cache : ParseCache) : Entry :=
  ⟨r, ((k.compileMacro c r).observed cache).1, ((k.compileMacro c r).observed cache).2⟩

/-- A batch, entry by entry. Each starts with what those before it have read. -/
def entries : List Request → ParseCache → List Entry
  | [], _ => []
  | r :: rs, cache =>
    k.entry c r cache :: entries rs ((k.compileMacro c r).run ⟨cache, []⟩).2.cache

end Compiler

/-- The record of earlier lookups has no influence. -/
theorem Steps.run_past {α : Type} (t : Steps α) (cache : ParseCache) (past made : List Lookup) :
    t.run ⟨cache, past ++ made⟩ = ((t.run ⟨cache, made⟩).1,
      ⟨(t.run ⟨cache, made⟩).2.cache, past ++ (t.run ⟨cache, made⟩).2.lookups⟩) := by
  induction t generalizing cache made with
  | done r => rfl
  | note l t ih =>
    have later := ih cache (made ++ [l])
    rw [← List.append_assoc] at later
    exact later
  | parse source next ih => exact ih _ (cache.parse source).2 made

theorem Run.Stepwise.run_past {α : Type} {x : Run α} (h : Stepwise x) (cache : ParseCache)
    (past : List Lookup) : x.run ⟨cache, past⟩ = ((x.observed cache).1,
      ⟨(x.run ⟨cache, []⟩).2.cache, past ++ (x.observed cache).2⟩) := by
  obtain ⟨t, made⟩ := h
  have later := t.run_past cache past []
  rw [List.append_nil, ← made, ← made] at later
  exact later

namespace Compiler

variable (k : Compiler) (c : Content)

/-- A batch gives the results of its entries, and its lookups are those of the entries in turn. -/
theorem compileAll_eq_entries (rs : List Request) (cache : ParseCache) (past : List Lookup) :
    (k.compileAll c rs ⟨cache, past⟩).1 = (k.entries c rs cache).map Entry.result ∧
    (k.compileAll c rs ⟨cache, past⟩).2.lookups =
      past ++ (k.entries c rs cache).flatMap Entry.lookups := by
  induction rs generalizing cache past with
  | nil => exact ⟨rfl, (List.append_nil past).symm⟩
  | cons r rs ih =>
    have first := (k.stepwise_compileMacro c r).run_past cache past
    have batch : k.compileAll c (r :: rs) ⟨cache, past⟩ =
        (((k.compileMacro c r).run ⟨cache, past⟩).1 ::
          (k.compileAll c rs ((k.compileMacro c r).run ⟨cache, past⟩).2).1,
          (k.compileAll c rs ((k.compileMacro c r).run ⟨cache, past⟩).2).2) := by
      unfold compileAll
      rw [List.mapM_cons]
      rfl
    obtain ⟨results, lookups⟩ := ih ((k.compileMacro c r).run ⟨cache, []⟩).2.cache
      (past ++ ((k.compileMacro c r).observed cache).2)
    rw [batch, first, entries, List.map_cons, List.flatMap_cons]
    refine ⟨congrArg _ results, lookups.trans ?_⟩
    rw [List.append_assoc]
    rfl

variable {c}

theorem entries_eq (rs : List Request) (cache : ParseCache) :
    k.entries c rs cache = rs.map fun r => k.entry c r .empty := by
  induction rs generalizing cache with
  | nil => rfl
  | cons r rs ih =>
    have refl : Content.AgreeOn r.site c c := ⟨fun _ => rfl, fun _ => rfl, fun _ => rfl⟩
    have same := (refl.compileMacro k r.name).observed_eq cache .empty
    rw [entries, ih, List.map_cons, entry, same]
    rfl

end Compiler

/-! ### Stores -/

namespace Store

variable {site : String} {h h' : List Addition}

/-- What holds only of registrations for a site has its last instance among these. -/
theorem last?_of_site {P : Registration → Prop} [DecidablePred P]
    (within : ∀ r, P r → r.site = site) (rs : List Registration) :
    last? (rs.filter (·.site = site)) P = last? rs P := by
  unfold last?
  rw [List.filter_filter]
  refine congrArg List.getLast? (List.filter_congr fun r _ => ?_)
  by_cases holds : P r
  · simp [holds, within r holds]
  · simp [holds]

theorem last?_eq_of_own {P : Registration → Prop} [DecidablePred P]
    (own : (registrations h).filter (·.site = site) = (registrations h').filter (·.site = site))
    (within : ∀ r, P r → r.site = site) :
    last? (registrations h) P = last? (registrations h') P := by
  rw [← last?_of_site within, own, last?_of_site within]

theorem agreeOn_of_histories
    (own : (registrations h).filter (·.site = site) = (registrations h').filter (·.site = site))
    (models : addedModels h = addedModels h') :
    Content.AgreeOn site (ofHistory h).content (ofHistory h').content where
  resolve name := by
    have named := last?_eq_of_own (P := (·.Names site name)) own fun _ names => names.1
    have known : (∃ r ∈ registrations h, r.site = site) ↔
        ∃ r ∈ registrations h', r.site = site := by
      have nonempty : ∀ rs : List Registration,
          (∃ r ∈ rs, r.site = site) ↔ rs.filter (·.site = site) ≠ [] := by simp
      rw [nonempty, nonempty, own]
    rw [resolve_ofHistory, resolve_ofHistory, named]
    simp only [known]
  properties entity := by
    have owned := last?_eq_of_own (P := (·.Concerns site entity.id)) own
      fun _ concerns => concerns.1
    rw [properties_ofHistory, properties_ofHistory, owned]
  viewModel path := by
    show (ofHistory h).viewModel path = (ofHistory h').viewModel path
    rw [ofHistory_eq, ofHistory_eq, models]
    rfl

end Store

open Store

/-- Sites do not interfere. Take two histories of a store with the same registrations for a site, in
the same order, and the same view models, in the same order, whatever they have for other sites and
wherever. Then every operation for the site shows the same, its result and its lookups, whatever was
read before. In two batches with the same requests for the site, the entries of these requests show
the same, where a batch gives the results of its entries and makes their lookups in turn. -/
theorem Compiler.sites_do_not_interfere (k : Compiler) {site : String} {h h' : List Addition}
    (own : (registrations h).filter (·.site = site) = (registrations h').filter (·.site = site))
    (models : addedModels h = addedModels h') :
    (∀ o cache cache', (k.performFor (ofHistory h).content site o).observed cache =
      (k.performFor (ofHistory h').content site o).observed cache') ∧
    (∀ rs rs' cache cache', rs.filter (·.site = site) = rs'.filter (·.site = site) →
      (k.entries (ofHistory h).content rs cache).filter (·.request.site = site) =
        (k.entries (ofHistory h').content rs' cache').filter (·.request.site = site)) ∧
    ∀ g rs cache past,
      (k.compileAll (ofHistory g).content rs ⟨cache, past⟩).1 =
        (k.entries (ofHistory g).content rs cache).map Entry.result ∧
      (k.compileAll (ofHistory g).content rs ⟨cache, past⟩).2.lookups =
        past ++ (k.entries (ofHistory g).content rs cache).flatMap Entry.lookups := by
  have agree := agreeOn_of_histories own models
  refine ⟨fun o cache cache' => ?_, fun rs rs' cache cache' requests => ?_,
    fun g => k.compileAll_eq_entries _⟩
  · refine Run.Alike.observed_eq ?_ cache cache'
    cases o with
    | findMacro name => exact (agree.findMacro name).map fun _ _ same => congrArg _ same
    | ownerProperties name => exact (agree.ownerProperties name).map fun _ _ same => congrArg _ same
    | lower tree => exact (agree.lower k tree).map fun _ _ same => congrArg _ same
    | compileMacro name => exact (agree.compileMacro k name).map fun _ _ same => congrArg _ same
  · have split : ∀ (c : Content) (rs : List Request),
        (rs.map fun r => k.entry c r .empty).filter (·.request.site = site) =
          (rs.filter (·.site = site)).map fun r => k.entry c r .empty := fun c rs => List.filter_map
    rw [k.entries_eq, k.entries_eq, split, split, ← requests]
    refine List.map_congr_left fun r hr => ?_
    obtain rfl : r.site = site := by simpa using (List.mem_filter.mp hr).2
    have same := (agree.compileMacro k r.name).observed_eq .empty .empty
    rw [entry, entry, same]

/-! ### Two sites with the same names -/

namespace SharedNames

def page : Registration :=
  ⟨"base", ⟨"e1", "page", "pages", "page"⟩, "page",
    "\x7b% macro page() %\x7d\x7b\x7b card() \x7d\x7d\x7b% endmacro %\x7d", []⟩

/-- A macro with its owner, which has the same names at every site. -/
def card (site text : String) : Registration :=
  ⟨site, ⟨"e2", "atom", "atoms", "card"⟩, "card",
    "\x7b% macro card() %\x7d" ++ text ++ "\x7b% endmacro %\x7d", [("text", .string text)]⟩

/-- One site alone. -/
def alone : List Addition :=
  [.entity page, .entity (card "base" "ours"), .viewModel "m.json" .null]

/-- The other site has registrations before, between and after. -/
def mixed : List Addition :=
  [.entity (card "shop" "theirs"), .viewModel "m.json" .null, .entity page,
    .entity (card "shop" "new"), .entity (card "base" "ours"), .entity (card "shop" "last")]

end SharedNames

open SharedNames in
/-- The other site has its own card. The page and the card of the site itself show the same as they
do when it is alone. -/
theorem Compiler.same_names_do_not_interfere :
    let k : Compiler := Config.standard
    ((ofHistory mixed).content.ownerProperties "shop" "card").observed .empty =
      (.ok [("text", .string "last")], [.resolve "shop" "card", .properties "shop" "e2"]) ∧
    (k.performFor (ofHistory mixed).content "base" (.ownerProperties "card")).observed .empty =
      (.ok (.properties [("text", .string "ours")]),
        [.resolve "base" "card", .properties "base" "e2"]) ∧
    (k.entries (ofHistory mixed).content [⟨"shop", "card"⟩, ⟨"base", "page"⟩] .empty).filter
        (·.request.site = "base") =
      (k.entries (ofHistory alone).content [⟨"base", "page"⟩] .empty).filter
        (·.request.site = "base") := by
  intro k
  have own : (registrations alone).filter (·.site = "base") =
      (registrations mixed).filter (·.site = "base") := rfl
  obtain ⟨operations, batches, -⟩ := k.sites_do_not_interfere own rfl
  refine ⟨by cbv, ?_, (batches _ _ _ _ ?_).symm⟩
  · rw [← operations (.ownerProperties "card") .empty .empty]
    cbv
  · decide

end TagCompiler
