import Mathlib.Data.List.Perm.Subperm
import TagCompiler.Proofs.StatementCalls
import TagCompiler.Proofs.StaticModels
/-!
# Which macros are looked up for an expansion

Before calls are expanded, the macros that a tree does not define itself are looked up in the
content of its site, and so are those that the found ones call. The names that are looked up are
closed under calls: whatever is called, in the tree or in a macro that was found, is defined in the
tree or was looked up. No name is looked up twice, none without having been called before, and there
are no more of them than calls in the tree and in the sources of the content.
-/

namespace TagCompiler

/-! ### Calls and definitions -/

theorem Node.mem_callees_iff {n : Node} {x : String} :
    x ∈ n.callees ↔ x ∈ Meaning.callees n ∧ x ≠ "loadModel" := by
  constructor
  · intro h
    obtain ⟨k, hk, called⟩ := List.mem_filterMap.mp h
    cases k with
    | call name p body =>
      by_cases loads : name = "loadModel"
      · simp [loads] at called
      · simp only [if_neg loads, Option.some.injEq] at called
        exact ⟨List.mem_filterMap.mpr ⟨_, hk, congrArg some called⟩, called ▸ loads⟩
    | _ => cases called
  · rintro ⟨h, other⟩
    obtain ⟨k, hk, called⟩ := List.mem_filterMap.mp h
    cases k with
    | call name p body =>
      cases called
      exact List.mem_filterMap.mpr ⟨_, hk, if_neg other⟩
    | _ => cases called

theorem Library.contains_ofTree_iff {n : Node} {x : String} :
    (ofTree n).contains x = true ↔ x ∈ n.definedMacros := by
  constructor
  · intro h
    obtain ⟨d, hd, named⟩ := List.find?_isSome.mp h
    obtain ⟨k, hk, made⟩ := List.mem_filterMap.mp hd
    refine List.mem_filterMap.mpr ⟨k, hk, ?_⟩
    cases k with
    | macroDef name p body doc =>
      cases made
      simpa [Node.macroName?] using named
    | _ => cases made
  · intro h
    obtain ⟨k, hk, named⟩ := List.mem_filterMap.mp h
    exact Compiler.contains_ofTree hk named

namespace Content

variable {c : Content} {site name : String}

/-- The names that are called in the sources of the content. -/
def calledNames (c : Content) : List String :=
  c.sources.flatMap fun s => (Template.parse s).toOption.elim [] Node.callees

theorem mem_calledBy {x : String} :
    x ∈ c.calledBy site name ↔ ∃ d, c.macroNode site name = .ok d ∧ x ∈ d.callees := by
  unfold calledBy
  cases c.macroNode site name <;> simp [Except.toOption]

theorem calledBy_subset_calledNames : c.calledBy site name ⊆ c.calledNames := by
  intro x hx
  obtain ⟨d, given, inside⟩ := mem_calledBy.mp hx
  obtain ⟨file, t, resolved, read, top⟩ := exists_parse_of_macroNode given
  obtain ⟨k, hk, called⟩ := List.mem_filterMap.mp inside
  refine List.mem_flatMap.mpr ⟨file.source, c.mem_sources resolved, ?_⟩
  rw [read]
  exact List.mem_filterMap.mpr
    ⟨k, Node.preorder_trans (Node.mem_preorder_of_topMacro? top) hk, called⟩

/-- What is found under a name is a definition of a macro with this name. -/
theorem exists_definition {d : Node} (h : c.macroNode site name = .ok d) :
    ∃ e, Definition.ofNode? d = some e ∧ e.name = name := by
  obtain ⟨-, t, -, -, top⟩ := exists_parse_of_macroNode h
  have named := Node.macroName?_of_topMacro? top
  cases d with
  | macroDef m p body doc =>
    cases named
    exact ⟨_, rfl, rfl⟩
  | _ => cases named

theorem name_of_definition? {e : Definition} (h : c.definition? site name = some e) :
    e.name = name := by
  obtain ⟨d, given, made⟩ := exists_of_definition? h
  obtain ⟨e', made', named⟩ := exists_definition given
  exact Option.some.inj (made'.symm.trans made) ▸ named

end Content

/-! ### One lookup -/

namespace Library

variable {c : Content} {site name : String} {lib : Library} {tried : List String}

theorem contains_append_definition? {x : String} :
    Library.contains (lib ++ (c.definition? site name).toList) x = true →
      lib.contains x = true ∨ x = name := by
  cases found : c.definition? site name with
  | none =>
    rw [Option.toList_none, List.append_nil]
    exact .inl
  | some e =>
    intro h
    obtain ⟨d, hd, named⟩ := List.find?_isSome.mp h
    rcases List.mem_append.mp hd with old | own
    · exact .inl (List.find?_isSome.mpr ⟨d, old, named⟩)
    · rw [List.mem_singleton.mp own] at named
      exact .inr ((beq_iff_eq.mp named).symm.trans (Content.name_of_definition? found))

end Library

/-! ### All lookups -/

namespace Content

/-- A name that is wanted from the start, or called in a macro found under one of the `names`. -/
def Wants (c : Content) (site : String) (start names : List String) (x : String) : Prop :=
  x ∈ start ∨ ∃ y ∈ names, x ∈ c.calledBy site y

/-- The `names` are those that completing a library looks up, in this order. -/
structure Completes (c : Content) (site : String) (lib : Library)
    (tried wanted names : List String) : Prop where
  nodup : names.Nodup
  fresh : ∀ x ∈ names, lib.contains x = false ∧ x ∉ tried
  called : ∀ before x later, names = before ++ x :: later → c.Wants site wanted before x
  closed : ∀ x, c.Wants site wanted names x → lib.contains x = true ∨ x ∈ tried ∨ x ∈ names

namespace Completes

variable {c : Content} {site name : String} {lib : Library} {tried wanted names : List String}

theorem nil : c.Completes site lib tried [] [] where
  nodup := List.nodup_nil
  fresh := by simp
  called := by simp
  closed := by simp [Wants]

theorem skip (known : lib.contains name = true ∨ tried.contains name = true)
    (h : c.Completes site lib tried wanted names) :
    c.Completes site lib tried (name :: wanted) names where
  nodup := h.nodup
  fresh := h.fresh
  called before x later parts := (h.called before x later parts).imp_left (List.mem_cons_of_mem _)
  closed x wants := by
    rcases wants with start | found
    · rcases List.mem_cons.mp start with rfl | rest
      · exact known.imp_right fun old => .inl (by simpa using old)
      · exact h.closed x (.inl rest)
    · exact h.closed x (.inr found)

theorem look (known : lib.contains name = false) (new : tried.contains name = false)
    (h : c.Completes site (lib ++ (c.definition? site name).toList) (name :: tried)
      (NameSet.addAll (c.calledBy site name) wanted) names) :
    c.Completes site lib tried (name :: wanted) (name :: names) where
  nodup := List.nodup_cons.mpr ⟨fun again => (h.fresh name again).2 List.mem_cons_self, h.nodup⟩
  fresh := by
    refine List.forall_mem_cons.mpr ⟨⟨known, by simpa using new⟩, fun x hx => ?_⟩
    obtain ⟨absent, untried⟩ := h.fresh x hx
    exact ⟨Library.contains_append_eq_false absent, fun old => untried (List.mem_cons_of_mem _ old)⟩
  called := by
    intro before x later parts
    rcases before with _ | ⟨first, before⟩
    · obtain ⟨rfl, -⟩ := List.cons.inj parts
      exact .inl List.mem_cons_self
    · obtain ⟨rfl, rest⟩ := List.cons.inj parts
      rcases h.called before x later rest with start | ⟨y, hy, found⟩
      · rcases NameSet.mem_addAll.mp start with inside | old
        · exact .inr ⟨name, List.mem_cons_self, inside⟩
        · exact .inl (List.mem_cons_of_mem _ old)
      · exact .inr ⟨y, List.mem_cons_of_mem _ hy, found⟩
  closed := by
    intro x wants
    have later : x = name ∨
        c.Wants site (NameSet.addAll (c.calledBy site name) wanted) names x := by
      rcases wants with start | ⟨y, hy, inside⟩
      · refine (List.mem_cons.mp start).imp_right fun rest => ?_
        exact .inl (NameSet.mem_addAll.mpr (.inr rest))
      · rcases List.mem_cons.mp hy with rfl | hy
        · exact .inr (.inl (NameSet.mem_addAll.mpr (.inl inside)))
        · exact .inr (.inr ⟨y, hy, inside⟩)
    -- What is settled by the lookup itself is among the names now.
    rcases later with rfl | later
    · exact .inr (.inr List.mem_cons_self)
    · rcases h.closed x later with present | old | there
      · refine (Library.contains_append_definition? present).imp_right fun own => .inr ?_
        exact List.mem_cons.mpr (.inl own)
      · rcases List.mem_cons.mp old with rfl | old
        · exact .inr (.inr List.mem_cons_self)
        · exact .inr (.inl old)
      · exact .inr (.inr (List.mem_cons_of_mem _ there))

end Completes

/-- What names looked up in a content add to a library. -/
def definitions (c : Content) (site : String) (names : List String) : Library :=
  names.filterMap (c.definition? site)

theorem definitions_cons (c : Content) (site name : String) (names : List String) :
    c.definitions site (name :: names) =
      (c.definition? site name).toList ++ c.definitions site names := by
  rw [definitions, definitions, List.filterMap_cons]
  cases c.definition? site name <;> rfl

/-- A name that was looked up leads to the definition that was found under it. -/
theorem find?_definitions {c : Content} {site x : String} {names : List String} {e : Definition}
    (h : x ∈ names) (found : c.definition? site x = some e) :
    (c.definitions site names).find? x = some e := by
  have member : e ∈ c.definitions site names := List.mem_filterMap.mpr ⟨x, h, found⟩
  have present : ((c.definitions site names).find? x).isSome = true :=
    List.find?_isSome.mpr ⟨e, member, by simp [name_of_definition? found]⟩
  obtain ⟨e', first⟩ := Option.isSome_iff_exists.mp present
  obtain ⟨y, -, found'⟩ := List.mem_filterMap.mp (List.mem_of_find?_eq_some first)
  have same : y = x := by
    rw [← name_of_definition? found']
    simpa using List.find?_some first
  rw [first, ← found', same, found]

/-- A name that is called in a tree, or in a macro found under one of the `names`. -/
def Called (c : Content) (site : String) (n : Node) (names : List String) (x : String) : Prop :=
  x ∈ Meaning.callees n ∨ ∃ y ∈ names, ∃ d, c.macroNode site y = .ok d ∧ x ∈ Meaning.callees d

theorem wants_iff {c : Content} {site x : String} {n : Node} {names : List String} :
    c.Wants site (NameSet.ofNames n.callees) names x ↔
      c.Called site n names x ∧ x ≠ "loadModel" := by
  simp only [Wants, Called, NameSet.mem_ofNames, mem_calledBy, Node.mem_callees_iff]
  grind

end Content

theorem Library.complete_completes (lib : Library) (c : Content) (site : String)
    (tried : List String) (wanted : NameSet) (m : Memory) :
    ∃ names, c.Completes site lib tried wanted names ∧
      (lib.complete c site tried wanted m).1 = lib ++ c.definitions site names ∧
      (lib.complete c site tried wanted m).2.lookups =
        m.lookups ++ names.map (Lookup.resolve site) := by
  induction lib, tried, wanted using complete_induction c site generalizing m with
  | nil lib tried =>
    rw [complete]
    exact ⟨[], .nil, (List.append_nil _).symm, (List.append_nil _).symm⟩
  | skipped lib tried name rest skipped ih =>
    obtain ⟨names, completes, made, looked⟩ := ih m
    rw [complete_skipped skipped]
    exact ⟨names, completes.skip skipped, made, looked⟩
  | looked lib tried name rest known new ih =>
    obtain ⟨after, noted, next⟩ := complete_looked c site known new rest m
    obtain ⟨names, completes, made, looked⟩ := ih after
    rw [next]
    refine ⟨name :: names, completes.look known new, ?_, ?_⟩
    · rw [made, Content.definitions_cons, List.append_assoc]
    · rw [looked, noted, List.append_assoc]
      rfl

/-- Names that are looked up once each, and only after they were called, are bounded by the calls in
the tree and in the sources of the content. -/
theorem Content.Completes.length_le {c : Content} {site : String} {lib : Library} {n : Node}
    {names : List String}
    (h : c.Completes site lib [] (NameSet.ofNames n.callees) names) :
    names.length ≤ n.callees.length + c.calledNames.length := by
  have inside : names ⊆ n.callees ++ c.calledNames := by
    intro x hx
    obtain ⟨before, later, parts⟩ := List.append_of_mem hx
    rcases h.called before x later parts with start | ⟨y, -, called⟩
    · exact List.mem_append_left _ (NameSet.mem_ofNames.mp start)
    · exact List.mem_append_right _ (calledBy_subset_calledNames called)
  rw [← List.length_append]
  exact (List.subperm_of_subset h.nodup inside).length_le

/-- A macro that was found is the one that its name leads to in the completed library. -/
theorem Content.Completes.find?_of_ok {c : Content} {site x : String} {lib : Library} {node : Node}
    {tried wanted names : List String} (h : c.Completes site lib tried wanted names) (hx : x ∈ names)
    (given : c.macroNode site x = .ok node) :
    ∃ d, Definition.ofNode? node = some d ∧
      Library.find? (lib ++ c.definitions site names) x = some d := by
  obtain ⟨d, definition, -⟩ := exists_definition given
  have found := (definition?_of_ok given).trans definition
  have absent : lib.find? x = none :=
    Option.not_isSome_iff_eq_none.mp (Bool.eq_false_iff.mp (h.fresh x hx).1)
  refine ⟨d, definition, ?_⟩
  rw [Library.find?, List.find?_append, ← Library.find?, absent, Option.none_or]
  exact find?_definitions hx found

theorem Library.exists_complementing (c : Content) (site : String) (n : Node) (m : Memory) :
    ∃ names after,
      c.Completes site (ofTree n) [] (NameSet.ofNames n.callees) names ∧
      (complementing c site n).run m = (.ok (ofTree n ++ c.definitions site names), after) ∧
      after.lookups = m.lookups ++ names.map (Lookup.resolve site) := by
  obtain ⟨names, completes, made, looked⟩ := (ofTree n).complete_completes c site []
    (NameSet.ofNames n.callees) m
  exact ⟨names, _, completes, Prod.ext (congrArg Except.ok made) rfl, looked⟩

/-- Inlining with the macros of a site looks up `names` and then expands calls with a library,
whatever the content holds. No name is looked up twice. None is that of a macro of the tree or
`loadModel`, and each was called in the tree or in a macro that was found before. The library is
closed: a name that is called in the tree or in a macro that was found is defined in the tree, or
the library has what was found under the name, or the lookup of the name has failed. -/
theorem Pass.external_macros_closed (c : Content) (site : String) (n : Node) (m : Memory) :
    ∃ names lib after,
      (Pass.run (some ⟨c, site⟩) n (.inline true)).run m =
        ((n.inline lib).mapError .surplus, after) ∧
      after.lookups = m.lookups ++ names.map (Lookup.resolve site) ∧
      names.Nodup ∧ names.length ≤ n.callees.length + c.calledNames.length ∧
      (∀ x ∈ names, x ∉ n.definedMacros ∧ x ≠ "loadModel") ∧
      (∀ before x later, names = before ++ x :: later → c.Called site n before x) ∧
      ∀ x, c.Called site n names x → x ≠ "loadModel" →
        x ∈ n.definedMacros ∨
        (∃ node d, c.macroNode site x = .ok node ∧ Definition.ofNode? node = some d ∧
          lib.find? x = some d) ∨
        (x ∈ names ∧ ∃ e, c.macroNode site x = .error e) := by
  obtain ⟨names, after, completes, completed, looked⟩ := Library.exists_complementing c site n m
  have first : ∀ before x later, names = before ++ x :: later →
      c.Called site n before x ∧ x ≠ "loadModel" := fun before x later parts =>
    Content.wants_iff.mp (completes.called before x later parts)
  refine ⟨names, Library.ofTree n ++ c.definitions site names, after, ?_, looked, completes.nodup,
    completes.length_le, fun x hx => ?_,
    fun before x later parts => (first before x later parts).1, fun x called other => ?_⟩
  · show (Library.complementing c site n >>= fun lib =>
      Run.ofExcept .surplus (n.inline lib)).run m = _
    rw [Run.run_bind, completed]
    exact Run.run_ofExcept _ _ _
  · obtain ⟨before, later, parts⟩ := List.append_of_mem hx
    have absent := (completes.fresh x hx).1
    rw [← Bool.not_eq_true, Library.contains_ofTree_iff] at absent
    exact ⟨absent, (first before x later parts).2⟩
  · rcases completes.closed x (Content.wants_iff.mpr ⟨called, other⟩) with own | old | tried
    · exact .inl (Library.contains_ofTree_iff.mp own)
    · cases old
    · cases given : c.macroNode site x with
      | error e => exact .inr (.inr ⟨tried, e, rfl⟩)
      | ok node =>
        obtain ⟨d, definition, found⟩ := completes.find?_of_ok tried given
        exact .inr (.inl ⟨node, d, rfl, definition, found⟩)

end TagCompiler
