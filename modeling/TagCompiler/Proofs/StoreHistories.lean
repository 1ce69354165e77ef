import TagCompiler.Proofs.SiteMacros
/-!
# What a store answers after a history of additions

Macro files and view models are added to a store in any order. Each table of the store is read as a
function of the history: the table of macros answers with the last registration that names the
macro, the table of properties with the last one for the entity, and a site is known as soon as
something was registered for it. The tables are filled together, so a macro that is found has an
owner with properties.
-/

namespace TagCompiler.Store

open Template

/-! ### Histories -/

/-- What can be added to a store. -/
inductive Addition where
  | entity (r : Registration)
  | viewModel (path : String) (value : Value)

def Addition.registration? : Addition → Option Registration
  | .entity r => some r
  | .viewModel .. => none

def Addition.viewModel? : Addition → Option (String × Value)
  | .entity _ => none
  | .viewModel path value => some (path, value)

def add (s : Store) : Addition → Store
  | .entity r => s.register r
  | .viewModel path value => s.addViewModel path value

/-- The store after a history of additions. -/
def ofHistory (h : List Addition) : Store := h.foldl add empty

/-- The macro files that were registered, in order. -/
def registrations (h : List Addition) : List Registration := h.filterMap Addition.registration?

/-- The view models that were added, in order. -/
def addedModels (h : List Addition) : List (String × Value) := h.filterMap Addition.viewModel?

/-- The tables of macros and that of view models do not depend on each other. -/
theorem ofHistory_eq (h : List Addition) :
    ofHistory h =
      { ofRegistrations (registrations h) with viewModels := (addedModels h).reverse } := by
  induction h using List.reverseRecOn with
  | nil => rfl
  | append_singleton h a ih =>
    have step : ofHistory (h ++ [a]) = (ofHistory h).add a := by
      rw [ofHistory, List.foldl_append]
      rfl
    rw [step, ih]
    cases a with
    | entity r =>
      have more : registrations (h ++ [.entity r]) = registrations h ++ [r] := List.filterMap_append
      have same : addedModels (h ++ [.entity r]) = addedModels h := by
        simp [addedModels, Addition.viewModel?]
      rw [more, same, ofRegistrations_concat]
      rfl
    | viewModel path value =>
      have same : registrations (h ++ [.viewModel path value]) = registrations h := by
        simp [registrations, Addition.registration?]
      have more : addedModels (h ++ [.viewModel path value]) = addedModels h ++ [(path, value)] :=
        List.filterMap_append
      rw [same, more, List.reverse_append]
      rfl

/-! ### The tables -/

/-- The registration is one for the entity of the site with this identity. -/
def Registration.Concerns (r : Registration) (site id : String) : Prop :=
  r.site = site ∧ r.entity.id = id

instance (r : Registration) (site id : String) : Decidable (r.Concerns site id) :=
  inferInstanceAs (Decidable (_ ∧ _))

/-- The last of the registrations with a property. -/
def last? (rs : List Registration) (P : Registration → Prop) [DecidablePred P] :
    Option Registration := (rs.filter P).getLast?

section Last

variable {P : Registration → Prop} [DecidablePred P] {rs : List Registration}

theorem last?_concat (rs : List Registration) (r : Registration) :
    last? (rs ++ [r]) P = if P r then some r else last? rs P := by
  unfold last?
  by_cases holds : P r <;> simp [holds]

theorem last?_eq_none : last? rs P = none ↔ ∀ r ∈ rs, ¬ P r := by
  simp [last?]

theorem exists_last (h : ∃ r ∈ rs, P r) : ∃ r, last? rs P = some r := by
  refine Option.ne_none_iff_exists'.mp fun none => ?_
  obtain ⟨r, hr, holds⟩ := h
  exact last?_eq_none.mp none r hr holds

theorem of_last? {r : Registration} (h : last? rs P = some r) : r ∈ rs ∧ P r := by
  simpa using List.mem_filter.mp (List.mem_of_getLast? h)

end Last

theorem lookup_macros (rs : List Registration) (site name : String) :
    (ofRegistrations rs).macros.lookup (site, name) =
      (last? rs (·.Names site name)).map Registration.macroFile := by
  induction rs using List.reverseRecOn with
  | nil => rfl
  | append_singleton rs r ih =>
    rw [ofRegistrations_concat, lookup_register, ih, last?_concat]
    split <;> rfl

theorem lookup_properties (rs : List Registration) (site id : String) :
    (ofRegistrations rs).properties.lookup (site, id) =
      (last? rs (·.Concerns site id)).map Registration.properties := by
  induction rs using List.reverseRecOn with
  | nil => rfl
  | append_singleton rs r ih =>
    have table : (ofRegistrations (rs ++ [r])).properties =
        ((r.site, r.entity.id), r.properties) :: (ofRegistrations rs).properties := by
      rw [ofRegistrations_concat]
      rfl
    rw [table, List.lookup_cons, ih, last?_concat]
    by_cases concerns : r.Concerns site id
    · obtain ⟨rfl, rfl⟩ := concerns
      simp [Registration.Concerns]
    · have other : ((site, id) == (r.site, r.entity.id)) = false := by
        refine beq_eq_false_iff_ne.mpr fun same => concerns ?_
        exact ⟨(Prod.mk.inj same).1.symm, (Prod.mk.inj same).2.symm⟩
      rw [other, if_neg concerns]

theorem contains_sites (rs : List Registration) (site : String) :
    (ofRegistrations rs).sites.contains site = true ↔ ∃ r ∈ rs, r.site = site := by
  constructor
  · intro known
    induction rs using List.reverseRecOn with
    | nil => cases known
    | append_singleton rs r ih =>
      rw [ofRegistrations_concat] at known
      rcases Bool.or_eq_true_iff.mp ((List.contains_cons ..).symm.trans known) with own | earlier
      · exact ⟨r, by simp, (eq_of_beq own).symm⟩
      · obtain ⟨q, hq, same⟩ := ih earlier
        exact ⟨q, List.mem_append_left _ hq, same⟩
  · rintro ⟨r, hr, rfl⟩
    exact contains_ofRegistrations hr

/-! ### Lookups -/

section Lookups

variable (h : List Addition) (site name : String)

theorem resolve_ofHistory : (ofHistory h).content.resolve site name =
    if ∃ r ∈ registrations h, r.site = site then
      ((last? (registrations h) (·.Names site name)).map Registration.macroFile).elim
        (.error (.unknownMacro site name)) .ok
    else .error (.unknownSite site) := by
  have table := lookup_macros (registrations h) site name
  show (ofHistory h).resolve site name = _
  rw [ofHistory_eq, resolve, table]
  simp only [contains_sites]
  split
  · cases last? (registrations h) (·.Names site name) <;> rfl
  · rfl

theorem properties_ofHistory (entity : Entity) : (ofHistory h).content.properties site entity =
    ((last? (registrations h) (·.Concerns site entity.id)).map Registration.properties).elim
      (.error (.missingProperties entity.id)) .ok := by
  have table := lookup_properties (registrations h) site entity.id
  show (ofHistory h).entityProperties site entity = _
  rw [ofHistory_eq, entityProperties, table]
  cases last? (registrations h) (·.Concerns site entity.id) <;> rfl

/-- The three ways in which looking up a macro can end. -/
theorem resolve_cases :
    ((∀ r ∈ registrations h, r.site ≠ site) ∧
      (ofHistory h).content.resolve site name = .error (.unknownSite site)) ∨
    (((∃ r ∈ registrations h, r.site = site) ∧ ∀ r ∈ registrations h, ¬ r.Names site name) ∧
      (ofHistory h).content.resolve site name = .error (.unknownMacro site name)) ∨
    ∃ r, last? (registrations h) (·.Names site name) = some r ∧
      (ofHistory h).content.resolve site name = .ok r.macroFile := by
  rw [resolve_ofHistory]
  by_cases known : ∃ r ∈ registrations h, r.site = site
  · rw [if_pos known]
    cases last : last? (registrations h) (·.Names site name) with
    | none => exact .inr (.inl ⟨⟨known, last?_eq_none.mp last⟩, rfl⟩)
    | some r => exact .inr (.inr ⟨r, rfl, rfl⟩)
  · rw [if_neg known]
    exact .inl ⟨fun r member same => known ⟨r, member, same⟩, rfl⟩

/-- The owner of a macro was registered with it, so it has properties. -/
theorem exists_properties_of_last {r : Registration}
    (last : last? (registrations h) (·.Names site name) = some r) :
    ∃ q, last? (registrations h) (·.Concerns site r.entity.id) = some q ∧
      (ofHistory h).content.properties site r.entity = .ok q.properties := by
  obtain ⟨member, names⟩ := of_last? last
  have registered : ∃ q ∈ registrations h, q.Concerns site r.entity.id :=
    ⟨r, member, names.1, rfl⟩
  obtain ⟨q, owner⟩ := exists_last registered
  have properties := properties_ofHistory h site r.entity
  rw [owner] at properties
  exact ⟨q, owner, properties⟩

end Lookups

/-- What a request for the properties of a macro's owner gives, whatever is remembered. -/
theorem ownerProperties_run (c : Content) (site name : String) (memory : Memory) :
    ((c.ownerProperties site name).run memory).1 =
      (c.resolve site name >>= fun file => c.properties site file.entity).mapError .content := by
  unfold Content.ownerProperties
  rw [Run.run_bind, Run.run_note, Run.andThen, Run.run_bind, Run.run_ofExcept]
  cases c.resolve site name with
  | error e => rfl
  | ok file =>
    dsimp only [Except.mapError, Run.andThen]
    rw [Run.run_bind, Run.run_note, Run.andThen, Run.run_ofExcept]
    rfl

/-- A store answers with the latest registration. After any history, a site is unknown if and only
if nothing was registered for it, and a macro is unknown if and only if its site is known and no
file of the site names it. Otherwise the last file of the site that names the macro is found, the
properties of its owner are those that were registered last for this entity, and they are what a
request for the properties of the macro's owner gives. So such a request never fails for a lack of
properties. -/
theorem latest_registration_answers (h : List Addition) (site name : String) :
    ((ofHistory h).content.resolve site name = .error (.unknownSite site) ↔
      ∀ r ∈ registrations h, r.site ≠ site) ∧
    ((ofHistory h).content.resolve site name = .error (.unknownMacro site name) ↔
      (∃ r ∈ registrations h, r.site = site) ∧ ∀ r ∈ registrations h, ¬ r.Names site name) ∧
    ((∃ r ∈ registrations h, r.Names site name) → ∃ r q,
      last? (registrations h) (·.Names site name) = some r ∧
      (ofHistory h).content.resolve site name = .ok ⟨r.entity, r.file, r.source⟩ ∧
      last? (registrations h) (·.Concerns site r.entity.id) = some q ∧
      (ofHistory h).content.properties site r.entity = .ok q.properties ∧
      ∀ memory, (((ofHistory h).content.ownerProperties site name).run memory).1 =
        .ok q.properties) ∧
    ∀ memory entity, (((ofHistory h).content.ownerProperties site name).run memory).1 ≠
      .error (.content (.missingProperties entity)) := by
  rcases resolve_cases h site name with
    ⟨unknown, answer⟩ | ⟨⟨⟨r, member, same⟩, unnamed⟩, answer⟩ | ⟨r, last, answer⟩
  · refine ⟨iff_of_true answer unknown, iff_of_false (by simp [answer]) ?_, ?_, ?_⟩
    · rintro ⟨⟨r, member, same⟩, -⟩
      exact unknown r member same
    · rintro ⟨r, member, names⟩
      exact absurd names.1 (unknown r member)
    · intro memory entity failed
      rw [ownerProperties_run, answer] at failed
      cases failed
  · refine ⟨iff_of_false (by simp [answer]) fun unknown => unknown r member same,
      iff_of_true answer ⟨⟨r, member, same⟩, unnamed⟩, ?_, ?_⟩
    · rintro ⟨r, member, names⟩
      exact absurd names (unnamed r member)
    · intro memory entity failed
      rw [ownerProperties_run, answer] at failed
      cases failed
  · obtain ⟨q, owner, properties⟩ := exists_properties_of_last h site name last
    obtain ⟨member, names⟩ := of_last? last
    have given : ∀ memory, (((ofHistory h).content.ownerProperties site name).run memory).1 =
        .ok q.properties := by
      intro memory
      rw [ownerProperties_run, answer]
      exact congrArg (Except.mapError CompileError.content) properties
    refine ⟨iff_of_false (by simp [answer]) fun unknown => unknown r member names.1,
      iff_of_false (by simp [answer]) fun none => none.2 r member names,
      fun _ => ⟨r, q, last, answer, owner, properties, given⟩, ?_⟩
    intro memory entity failed
    rw [given] at failed
    cases failed

end TagCompiler.Store
