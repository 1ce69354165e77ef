import TagCompiler.Proofs.FoundDefinitions
import TagCompiler.Proofs.Sessions
/-!
# Which macro a site finds

A store finds a macro in the file that was registered last among those in which a scan finds the
name. The scan also finds the name in comments and inside of other elements, where the reader of
templates knows no macro of the site. So a macro that was registered is found if and only if the
last of these files defines it at its top level, and a later file that only mentions it hides it.
-/

namespace TagCompiler

/-! ### Lookups -/

namespace Content

/-- A macro that is found stands at the top of a file of the content. -/
theorem exists_parse_of_macroNode {c : Content} {site name : String} {n : Node}
    (h : c.macroNode site name = .ok n) : ∃ file t, c.resolve site name = .ok file ∧
      Template.parse file.source = .ok t ∧ t.topMacro? name = some n := by
  unfold macroNode at h
  split at h
  · cases h
  · cases h
  · rename_i file resolved
    split at h
    · cases h
    · rename_i t read
      split at h
      · rename_i top
        cases h
        exact ⟨file, t, resolved, read, top⟩
      · cases h

/-- The definition that is found under a name, if there is one. -/
def definition? (c : Content) (site name : String) : Option Definition :=
  (c.macroNode site name).toOption.bind Definition.ofNode?

/-- The names that are called in the macro that is found under a name, if there is one. -/
def calledBy (c : Content) (site name : String) : List String :=
  (c.macroNode site name).toOption.elim [] Node.callees

section Definitions

variable {c : Content} {site name : String}

theorem definition?_of_ok {d : Node} (h : c.macroNode site name = .ok d) :
    c.definition? site name = Definition.ofNode? d := by
  rw [definition?, h]
  rfl

theorem definition?_of_error {e : CompileError} (h : c.macroNode site name = .error e) :
    c.definition? site name = none := by
  rw [definition?, h]
  rfl

theorem exists_of_definition? {d : Definition} (h : c.definition? site name = some d) :
    ∃ n, c.macroNode site name = .ok n ∧ Definition.ofNode? n = some d := by
  cases given : c.macroNode site name with
  | error => simp [definition?_of_error given] at h
  | ok n => exact ⟨n, rfl, definition?_of_ok given ▸ h⟩

end Definitions

end Content

/-! ### Completing a library -/

namespace Library

variable {c : Content} {site name : String} {tried : List String}

theorem complete_skipped {lib : Library}
    (h : lib.contains name = true ∨ tried.contains name = true) (wanted : NameSet) (m : Memory) :
    lib.complete c site tried (name :: wanted) m = lib.complete c site tried wanted m := by
  rw [complete]
  by_cases known : lib.contains name = true
  · rw [if_pos known]
  · rw [if_neg known, dif_pos (h.resolve_left known)]

theorem complete_missing {lib : Library} (known : lib.contains name = false)
    (new : tried.contains name = false) {e : CompileError} (h : c.macroNode site name = .error e)
    (wanted : NameSet) (m : Memory) : ∃ after,
      after.lookups = m.lookups ++ [Lookup.resolve site name] ∧
      lib.complete c site tried (name :: wanted) m =
        lib.complete c site (name :: tried) wanted after := by
  obtain ⟨-, looked⟩ := c.findMacro_run site name m
  have failed := c.findMacro_of_error h m
  rw [complete, if_neg (by simp [known]), dif_neg (by simpa using new)]
  rcases run : (c.findMacro site name).run m with ⟨_ | found, after⟩
  · rw [run] at looked
    exact ⟨after, looked, rfl⟩
  · rw [run] at failed
    cases failed

theorem complete_found {lib : Library} (known : lib.contains name = false)
    (new : tried.contains name = false) {n : Node} (h : c.macroNode site name = .ok n)
    (wanted : NameSet) (m : Memory) : ∃ after,
      after.lookups = m.lookups ++ [Lookup.resolve site name] ∧
      lib.complete c site tried (name :: wanted) m =
        Library.complete (lib ++ (Definition.ofNode? n).toList) c site (name :: tried)
          (NameSet.addAll n.callees wanted) after := by
  obtain ⟨-, looked⟩ := c.findMacro_run site name m
  obtain ⟨found, ok, rfl⟩ := c.findMacro_of_ok h m
  rw [complete, if_neg (by simp [known]), dif_neg (by simpa using new)]
  rcases run : (c.findMacro site name).run m with ⟨_ | found', after⟩
  · rw [run] at ok
    cases ok
  · rw [run] at ok looked
    cases ok
    exact ⟨after, looked, rfl⟩

/-- A name that is looked up adds what is found to the library, and what it calls to the names that
are wanted. -/
theorem complete_looked {lib : Library} (c : Content) (site : String)
    (known : lib.contains name = false) (new : tried.contains name = false) (wanted : NameSet)
    (m : Memory) : ∃ after,
      after.lookups = m.lookups ++ [Lookup.resolve site name] ∧
      lib.complete c site tried (name :: wanted) m =
        Library.complete (lib ++ (c.definition? site name).toList) c site (name :: tried)
          (NameSet.addAll (c.calledBy site name) wanted) after := by
  cases given : c.macroNode site name with
  | error e =>
    have same : lib ++ (c.definition? site name).toList = lib := by
      rw [Content.definition?_of_error given, Option.toList_none, List.append_nil]
    have nobody : c.calledBy site name = [] := by
      rw [Content.calledBy, given]
      rfl
    rw [same, nobody]
    exact complete_missing known new given wanted m
  | ok d =>
    have found : c.calledBy site name = d.callees := by
      rw [Content.calledBy, given]
      rfl
    rw [Content.definition?_of_ok given, found]
    exact complete_found known new given wanted m

/-- Completing a library has less to do after a lookup. -/
theorem lex_untried (c : Content) (site : String) (new : tried.contains name = false)
    (wanted : NameSet) :
    Prod.Lex (· < ·) (· < ·)
      (untried c.macroNames (name :: tried), (NameSet.addAll (c.calledBy site name) wanted).length)
      (untried c.macroNames tried, (name :: wanted).length) := by
  cases given : c.macroNode site name with
  | error e =>
    have nobody : c.calledBy site name = [] := by
      rw [Content.calledBy, given]
      rfl
    rw [nobody]
    exact Prod.Lex.right' _ (untried_cons_le ..) (Nat.lt_succ_self _)
  | ok d =>
    obtain ⟨found, -, -⟩ := c.findMacro_of_ok given .empty
    exact Prod.Lex.left _ _ (untried_cons_lt found.known new)

/-- The induction of `complete`: a wanted name is skipped, or it is looked up, and what it calls is
wanted then. -/
theorem complete_induction (c : Content) (site : String)
    {motive : Library → List String → NameSet → Prop} (nil : ∀ lib tried, motive lib tried [])
    (skipped : ∀ lib tried name wanted, lib.contains name = true ∨ tried.contains name = true →
      motive lib tried wanted → motive lib tried (name :: wanted))
    (looked : ∀ lib tried name wanted, lib.contains name = false → tried.contains name = false →
      motive (lib ++ (c.definition? site name).toList) (name :: tried)
        (NameSet.addAll (c.calledBy site name) wanted) → motive lib tried (name :: wanted))
    (lib : Library) (tried : List String) (wanted : NameSet) : motive lib tried wanted := by
  cases wanted with
  | nil => exact nil lib tried
  | cons name rest =>
    by_cases skip : lib.contains name = true ∨ tried.contains name = true
    · exact skipped lib tried name rest skip
        (complete_induction c site nil skipped looked lib tried rest)
    · obtain ⟨known, new⟩ := not_or.mp skip
      rw [Bool.not_eq_true] at known new
      have smaller := lex_untried c site new rest
      exact looked lib tried name rest known new (complete_induction c site nil skipped looked _ _ _)
termination_by (untried c.macroNames tried, wanted.length)
decreasing_by
  · exact Prod.Lex.right _ (Nat.lt_succ_self _)
  · exact smaller

theorem contains_append_eq_false {lib more : Library}
    (h : Library.contains (lib ++ more) name = false) : lib.contains name = false := by
  simp_all [contains, find?, List.find?_append]

end Library

/-- A macro that was not known and looked up in the content. -/
def Content.Imported (c : Content) (site : String) (known : Library) (lookups : List Lookup)
    (d : Definition) : Prop :=
  ∃ name n, known.contains name = false ∧ c.macroNode site name = .ok n ∧
    Definition.ofNode? n = some d ∧ .resolve site name ∈ lookups

/-- Completing a library looks up macros, and adds those that it finds. -/
theorem Library.complete_imports (lib : Library) (c : Content) (site : String)
    (tried : List String) (wanted : NameSet) (m : Memory) :
    ∃ more, (lib.complete c site tried wanted m).2.lookups = m.lookups ++ more ∧
      (∀ l ∈ more, ∃ name, l = .resolve site name) ∧
      ∀ d ∈ (lib.complete c site tried wanted m).1, d ∈ lib ∨ c.Imported site lib more d := by
  induction lib, tried, wanted using complete_induction c site generalizing m with
  | nil lib tried =>
    rw [complete]
    exact ⟨[], by simp, by simp, fun _ => .inl⟩
  | skipped lib tried name rest skipped ih =>
    rw [complete_skipped skipped]
    exact ih m
  | looked lib tried name rest known new ih =>
    obtain ⟨after, noted, next⟩ := complete_looked c site known new rest m
    obtain ⟨more, later, resolves, added⟩ := ih after
    rw [next]
    refine ⟨.resolve site name :: more, by simp [later, noted],
      List.forall_mem_cons.mpr ⟨⟨name, rfl⟩, resolves⟩, fun d hd => ?_⟩
    rcases added d hd with present | ⟨name', n', absent, found, made, noted⟩
    · rcases List.mem_append.mp present with old | own
      · exact .inl old
      · obtain ⟨n, given, made⟩ := Content.exists_of_definition? (Option.mem_toList.mp own)
        exact .inr ⟨name, n, known, given, made, List.mem_cons_self⟩
    · exact .inr ⟨name', n', contains_append_eq_false absent, found, made,
        List.mem_cons_of_mem _ noted⟩

theorem Node.macroName?_of_topMacro? {n d : Node} {name : String}
    (h : n.topMacro? name = some d) : d.macroName? = some name := by
  simpa using List.find?_some h

theorem Node.mem_preorder_of_topMacro? {n d : Node} {name : String}
    (h : n.topMacro? name = some d) : d ∈ n.preorder := by
  have member : d ∈ n.topLevel := List.mem_of_find?_eq_some h
  cases n with
  | list cs => exact Node.preorder_subset member d.mem_preorder_self
  | _ =>
    rw [List.mem_singleton.mp member]
    exact Node.mem_preorder_self _

/-! ### Registrations -/

namespace Store

open Template

/-- A macro file with its owner, as it is added to a store. -/
structure Registration where
  site : String
  entity : Entity
  file : String
  source : String
  properties : Members

namespace Registration

def macroFile (r : Registration) : MacroFile := ⟨r.entity, r.file, r.source⟩

/-- The file is one of the site, and a scan of it finds a definition of the macro. -/
def Names (r : Registration) (site name : String) : Prop :=
  r.site = site ∧ name ∈ (usage r.source).definitions

instance (r : Registration) (site name : String) : Decidable (r.Names site name) :=
  inferInstanceAs (Decidable (_ ∧ _))

/-- The file is one of the site, and the macro stands at the top of its tree. -/
def Defines (r : Registration) (site name : String) : Prop :=
  r.site = site ∧ ∃ t d, parse r.source = .ok t ∧ t.topMacro? name = some d

theorem defines_iff {r : Registration} {site name : String} : r.Defines site name ↔
    r.site = site ∧ ((parse r.source).toOption.bind (·.topMacro? name)).isSome = true := by
  unfold Defines
  cases parse r.source <;> simp [Except.toOption, Option.isSome_iff_exists]

instance (r : Registration) (site name : String) : Decidable (r.Defines site name) :=
  decidable_of_iff _ defines_iff.symm

end Registration

def register (s : Store) (r : Registration) : Store :=
  (s.addEntity r.site r.entity r.file r.source r.properties).2

/-- The store in which files have been registered, one after the other. -/
def ofRegistrations (rs : List Registration) : Store := rs.foldl register empty

theorem ofRegistrations_concat (rs : List Registration) (r : Registration) :
    ofRegistrations (rs ++ [r]) = (ofRegistrations rs).register r := by
  rw [ofRegistrations, List.foldl_append]
  rfl

theorem lookup_append_of_ne {k : String × String} {names : List String} {site : String}
    {file : MacroFile} (h : ∀ n ∈ names, (site, n) ≠ k)
    (more : List ((String × String) × MacroFile)) :
    (names.map (fun n => ((site, n), file)) ++ more).lookup k = more.lookup k := by
  induction names with
  | nil => rfl
  | cons n names ih =>
    obtain ⟨first, others⟩ := List.forall_mem_cons.mp h
    have differ : (k == (site, n)) = false := beq_eq_false_iff_ne.mpr first.symm
    rw [List.map_cons, List.cons_append, List.lookup_cons, differ]
    exact ih others

theorem lookup_register (s : Store) (r : Registration) (site name : String) :
    (s.register r).macros.lookup (site, name) =
      if r.Names site name then some r.macroFile else s.macros.lookup (site, name) := by
  split
  · rename_i names
    obtain ⟨rfl, scanned⟩ := names
    exact lookup_append_of_mem scanned s.macros
  · rename_i other
    refine lookup_append_of_ne (fun n hn same => other ?_) s.macros
    cases same
    exact ⟨rfl, hn⟩

theorem contains_ofRegistrations {rs : List Registration} {r : Registration} (h : r ∈ rs) :
    (ofRegistrations rs).sites.contains r.site = true := by
  induction rs using List.reverseRecOn with
  | nil => cases h
  | append_singleton rs q ih =>
    have sites : (ofRegistrations (rs ++ [q])).sites = q.site :: (ofRegistrations rs).sites := by
      rw [ofRegistrations_concat]
      rfl
    rw [sites, List.contains_cons, Bool.or_eq_true]
    rcases List.mem_append.mp h with earlier | last
    · exact .inr (ih earlier)
    · exact .inl (by rw [List.mem_singleton.mp last, BEq.rfl])

/-- Of the files that name a macro the one that was registered last is found. -/
theorem exists_last_of_names {rs : List Registration} {site name : String}
    (h : ∃ r ∈ rs, r.Names site name) : ∃ before r after, rs = before ++ r :: after ∧
      r.Names site name ∧ (∀ q ∈ after, ¬ q.Names site name) ∧
      (ofRegistrations rs).content.resolve site name = .ok r.macroFile := by
  have found : ∃ before r after, rs = before ++ r :: after ∧ r.Names site name ∧
      (∀ q ∈ after, ¬ q.Names site name) ∧
      (ofRegistrations rs).macros.lookup (site, name) = some r.macroFile := by
    induction rs using List.reverseRecOn with
    | nil => simp at h
    | append_singleton rs q ih =>
      by_cases last : q.Names site name
      · refine ⟨rs, q, [], rfl, last, by simp, ?_⟩
        rw [ofRegistrations_concat, lookup_register, if_pos last]
      · have earlier : ∃ r ∈ rs, r.Names site name := by
          obtain ⟨r, hr, names⟩ := h
          rcases List.mem_append.mp hr with hr | hr
          · exact ⟨r, hr, names⟩
          · exact absurd (List.mem_singleton.mp hr ▸ names) last
        obtain ⟨before, r, after, rfl, names, later, found⟩ := ih earlier
        refine ⟨before, r, after ++ [q], by simp, names, ?_, ?_⟩
        · exact List.forall_mem_append.mpr ⟨later, List.forall_mem_singleton.mpr last⟩
        · rw [ofRegistrations_concat, lookup_register, if_neg last, found]
  obtain ⟨before, r, after, parts, names, later, found⟩ := found
  refine ⟨before, r, after, parts, names, later, ?_⟩
  have member : r ∈ rs := by simp [parts]
  have known : (ofRegistrations rs).sites.contains site = true :=
    names.1 ▸ contains_ofRegistrations member
  show (ofRegistrations rs).resolve site name = _
  rw [resolve, if_pos known, found]

theorem Registration.Defines.names {r : Registration} {site name : String}
    (h : r.Defines site name) (other : name ≠ "caller") : r.Names site name := by
  obtain ⟨same, t, d, read, top⟩ := h
  have inside := Node.mem_preorder_of_topMacro? top
  have named := Node.macroName?_of_topMacro? top
  cases d with
  | macroDef m p body doc =>
    cases named
    exact ⟨same, mem_definitions read inside other⟩
  | _ => cases named

/-- A macro that was registered is found if and only if the last file that names it defines it. If a
file of the site has the macro at its top level, then there is a last file in which a scan finds the
name. If this one has the macro at its top level, the lookup gives its definition, and otherwise the
macro is not found, whatever the compiler remembers. -/
theorem findMacro_of_last_naming {rs : List Registration} {site name : String}
    (readable : ∀ r ∈ rs, ∃ t, parse r.source = .ok t)
    (defined : ∃ r ∈ rs, r.Defines site name) (other : name ≠ "caller") :
    ∃ before last after, rs = before ++ last :: after ∧ last.Names site name ∧
      (∀ r ∈ after, ¬ r.Names site name) ∧ ∀ memory,
        (last.Defines site name → ∃ d,
          (((ofRegistrations rs).content.findMacro site name).run memory).1 = .ok d ∧
          d.node.macroName? = some name) ∧
        (¬ last.Defines site name →
          (((ofRegistrations rs).content.findMacro site name).run memory).1 =
            .error (.macroNotFound site name)) := by
  obtain ⟨r, hr, defines⟩ := defined
  obtain ⟨before, last, after, parts, names, later, resolved⟩ :=
    exists_last_of_names ⟨r, hr, defines.names other⟩
  refine ⟨before, last, after, parts, names, later, fun memory => ?_⟩
  obtain ⟨t, read⟩ := readable last (by simp [parts])
  refine ⟨?_, fun hidden => Content.findMacro_of_error ?_ memory⟩
  · rintro ⟨-, t', d, read', top⟩
    have node : (ofRegistrations rs).content.macroNode site name = .ok d := by
      simp only [Content.macroNode, resolved, Registration.macroFile, read', top]
    obtain ⟨found, result, same⟩ := Content.findMacro_of_ok node memory
    exact ⟨found, result, same ▸ Node.macroName?_of_topMacro? top⟩
  · have top : t.topMacro? name = none := Option.eq_none_iff_forall_ne_some.mpr fun d top =>
      hidden ⟨names.1, t, d, read, top⟩
    simp only [Content.macroNode, resolved, Registration.macroFile, read, top]

/-- A file of the site `base`, with nothing else that matters. -/
def baseFile (source : String) : Registration :=
  ⟨"base", ⟨"e", "atom", "atoms", "button"⟩, "button", source, []⟩

def buttonFile : Registration :=
  baseFile "\x7b% macro button() %\x7d<b></b>\x7b% endmacro %\x7d"

/-- A file in which the macro is only mentioned in a comment. -/
def mentioningFile : Registration :=
  baseFile "\x7b# was: \x7b% macro button() %\x7d #\x7d\x7b% macro card() %\x7d\x7b% endmacro %\x7d"

def renewedFile : Registration :=
  baseFile "new\x7b% macro button(a) %\x7d<i></i>\x7b% endmacro %\x7d"

theorem exists_tree_of_isSome {source : String} (h : (parse source).toOption.isSome = true) :
    ∃ t, parse source = .ok t := by
  cases read : parse source with
  | error e =>
    rw [read] at h
    cases h
  | ok t => exact ⟨t, rfl⟩

/-- A macro that was registered, mentioned elsewhere and registered again is found. -/
theorem findMacro_registered_again : ∃ d,
    (((ofRegistrations [buttonFile, mentioningFile, renewedFile]).content.findMacro "base"
      "button").run .empty).1 = .ok d ∧ d.node.macroName? = some "button" := by
  have readable : ∀ r ∈ [buttonFile, mentioningFile, renewedFile],
      (parse r.source).toOption.isSome = true := by decide +kernel
  have defined : buttonFile.Defines "base" "button" := by decide +kernel
  obtain ⟨before, last, after, parts, -, later, found⟩ := findMacro_of_last_naming
    (fun r hr => exists_tree_of_isSome (readable r hr)) ⟨_, List.mem_cons_self, defined⟩ (by decide)
  refine (found .empty).1 ?_
  -- No file but the third can be the last one that names the macro.
  have again : renewedFile.Names "base" "button" := by decide +kernel
  have isLast : last = renewedFile := by
    rcases before with _ | ⟨_, _ | ⟨_, _ | ⟨_, before⟩⟩⟩
    · obtain ⟨rfl, rfl⟩ := List.cons.inj parts
      exact absurd again (later _ (by simp))
    · obtain ⟨-, parts⟩ := List.cons.inj parts
      obtain ⟨rfl, rfl⟩ := List.cons.inj parts
      exact absurd again (later _ (by simp))
    · simp_all
    · simp_all
  rw [isLast]
  decide +kernel

/-- A macro that was registered is not found any more once a file mentions it in a comment. -/
theorem macro_hidden_by_comment :
    (∀ r ∈ [buttonFile, mentioningFile], ∃ t, parse r.source = .ok t) ∧
    buttonFile.Defines "base" "button" ∧
    (((ofRegistrations [buttonFile]).content.findMacro "base" "button").run .empty).1.isOk = true ∧
    (((ofRegistrations [buttonFile, mentioningFile]).content.findMacro "base" "button").run
      .empty).1 = .error (.macroNotFound "base" "button") := by
  have readable : ∀ r ∈ [buttonFile, mentioningFile],
      (parse r.source).toOption.isSome = true := by decide +kernel
  have defined : buttonFile.Defines "base" "button" := by decide +kernel
  have before : (((ofRegistrations [buttonFile]).content.findMacro "base" "button").run
      .empty).1.isOk = true := by decide +kernel
  have hidden : (ofRegistrations [buttonFile, mentioningFile]).content.macroNode "base" "button" =
      .error (.macroNotFound "base" "button") := by cbv
  exact ⟨fun r hr => exists_tree_of_isSome (readable r hr), defined, before,
    Content.findMacro_of_error hidden .empty⟩

end Store
end TagCompiler
