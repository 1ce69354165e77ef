import TagCompiler.Proofs.InlinedCode
/-!
# Inlining and what a template prints

All runs of a macro share one variable for each of its names once they are inlined. As long as every
run reads only what it wrote itself last, this cannot be seen, and the inlined template prints what
the template prints. A call inside the block of another call of the same macro can show the
difference.

The invariant is `Agree`: page variables are the same on both sides, and the shared variable of a
macro's name holds what the run that wrote it last has in its own scope.
-/

namespace TagCompiler.Meaning

open Inlining

/-! ### Shared variables -/

theorem underscored_of_isPlain {m : String} (h : IsPlain m) : underscored m = m := by
  have same : m.toList.map (fun c => if c = '.' then '_' else c) = m.toList := by
    refine (List.map_congr_left fun c hc => ?_).trans (List.map_id m.toList)
    have : c ≠ '.' := fun dot => h.2 (dot ▸ hc)
    simp [this]
  rw [underscored, same, String.ofList_toList]

theorem toList_boundName {m : String} (h : IsPlain m) (x : String) :
    (boundName m x).toList = m.toList ++ '_' :: x.toList := by
  simp [boundName, underscored_of_isPlain h]

theorem boundName_ne {m x y : String} (hm : IsPlain m) (hy : IsPlain y) : y ≠ boundName m x := by
  rintro rfl
  refine hy.1 ?_
  rw [toList_boundName hm]
  simp

theorem split_underscore {l l' r r' : List Char} (hl : '_' ∉ l) (hl' : '_' ∉ l')
    (h : l ++ '_' :: r = l' ++ '_' :: r') : l = l' ∧ r = r' := by
  induction l generalizing l' with
  | nil =>
    cases l' with
    | nil => exact ⟨rfl, (List.cons.inj h).2⟩
    | cons c l' =>
      obtain ⟨rfl, -⟩ := List.cons.inj h
      simp at hl'
  | cons c l ih =>
    cases l' with
    | nil =>
      obtain ⟨rfl, -⟩ := List.cons.inj h
      simp at hl
    | cons d l' =>
      obtain ⟨rfl, rest⟩ := List.cons.inj h
      obtain ⟨rfl, rfl⟩ := ih (fun mem => hl (List.mem_cons_of_mem _ mem))
        (fun mem => hl' (List.mem_cons_of_mem _ mem)) rest
      exact ⟨rfl, rfl⟩

theorem boundName_inj {m m' x x' : String} (hm : IsPlain m) (hm' : IsPlain m')
    (h : boundName m x = boundName m' x') : m = m' ∧ x = x' := by
  have split := congrArg String.toList h
  rw [toList_boundName hm, toList_boundName hm'] at split
  obtain ⟨macros, names⟩ := split_underscore hm.1 hm'.1 split
  exact ⟨String.ext macros, String.ext names⟩

/-! ### The invariant -/

/-- The one scope of the inlined code holds the page under its own names, and under the bound name
of a macro's variable what the last of its writers holds. A run holds names of its macro only. -/
structure Agree (lib : Library) (st : State) (scope : Scope) : Prop where
  page : ∀ x, IsPlain x → scope x = st.page x
  shared : ∀ m x k, IsPlain m → lastWriter m x st.log = some k → k < st.count ∧
    ∃ v, scope (boundName m x) = some v ∧ st.runs m k x = some v
  own : ∀ m k x v, st.runs m k x = some v → ∃ d, lib.find? m = some d ∧ x ∈ locals d

/-- The runs that a site belongs to have numbers below `count`. -/
def Site.Started (count : Nat) : Site → Prop
  | .page => True
  | .run _ k _ outer => k < count ∧ outer.Started count

theorem Site.Started.mono {count count' : Nat} {site : Site} (h : site.Started count)
    (le : count ≤ count') : site.Started count' := by
  induction site with
  | page => trivial
  | run d k block outer ih => exact ⟨Nat.lt_of_lt_of_le h.1 le, ih h.2⟩

/-- What happens between two states is what `f` does, if no read was disturbed. -/
def Tracks (lib : Library) (st st' : State) (f : Scope → Scope × String) : Prop :=
  ∀ scope, Agree lib st scope → Undisturbed st'.log →
    Agree lib st' (f scope).1 ∧ printedText st'.log = printedText st.log ++ (f scope).2

/-- The flat code `flat` does what the statements `ns` do at the site. -/
def Simulates (lib : Library) (site : Site) (ns flat : List Node) : Prop :=
  ∀ st : State, site.Started st.count →
    ∃ st', Runs lib site ns st st' ∧ Tracks lib st st' (execAll flat)

/-- Code at the site is inlined for the host. -/
inductive Placed (lib : Library) : Site → Host → Prop
  | page : Placed lib .page .page
  | run {d : Definition} {k : Nat} {block content : List Node} {outer : Site} :
      lib.find? d.name = some d → IsPlain d.name → Simulates lib outer block content →
      Placed lib (.run d k block outer) (.expansion d content)

/-- The names that code of a host may assign. -/
def Host.Owns : Host → String → Prop
  | .page, _ => True
  | .expansion d _, x => x ∈ locals d

theorem Host.name_of_mem {d : Definition} {content : List Node} {x : String} (h : x ∈ locals d) :
    (expansion d content).name x = boundName d.name x := by
  simp [name, Renaming.apply, freshNames, h]

theorem Host.name_of_not_mem {d : Definition} {content : List Node} {x : String}
    (h : x ∉ locals d) : (expansion d content).name x = x := by
  simp [name, Renaming.apply, freshNames, h]

variable {lib : Library} {st st₁ st₂ : State} {scope : Scope} {site : Site} {host : Host}

theorem Agree.note {e : Event} (h : Agree lib st scope)
    (quiet : ∀ m x, lastWriter m x (e :: st.log) = lastWriter m x st.log) :
    Agree lib (st.note e) scope := by
  refine ⟨h.page, fun m x k hm last => ?_, h.own⟩
  have last : lastWriter m x (e :: st.log) = some k := last
  rw [quiet] at last
  exact h.shared m x k hm last

theorem Agree.reading {e : Node} (h : Agree lib st scope) : Agree lib (st.reading site e) scope := by
  unfold State.reading
  split
  · exact h.note fun _ _ => rfl
  · exact h

theorem Agree.enter (h : Agree lib st scope) (d : Definition) : Agree lib (st.enter d) scope := by
  refine ⟨h.page, fun m x k hm last => ?_, fun m k x v held => ?_⟩
  · obtain ⟨lt, v, shared, held⟩ := h.shared m x k hm last
    have old : ¬ (m = d.name ∧ k = st.count) := fun new => Nat.lt_irrefl _ (new.2 ▸ lt)
    refine ⟨Nat.lt_succ_of_lt lt, v, shared, ?_⟩
    simpa [State.enter, old] using held
  · by_cases new : m = d.name ∧ k = st.count
    · simp [State.enter, new] at held
    · refine h.own m k x v ?_
      simpa [State.enter, new] using held

/-- A read that is not disturbed finds the same value on both sides. -/
theorem Agree.valueOf {e : Node} (h : Agree lib st scope) (placed : Placed lib site host)
    (he : IsValue e) (undisturbed : Undisturbed (st.reading site e).log) :
    valueOf scope (host.adapt e) = valueOf (st.look site) e := by
  cases he with
  | string s =>
    rw [Host.adapt_string]
    rfl
  | null =>
    rw [Host.adapt_null]
    rfl
  | @var x hx =>
    rw [Host.adapt_var]
    show (scope (host.name x)).join = (st.look site x).join
    cases placed with
    | page => exact congrArg Option.join (h.page x hx)
    | @run d k _ _ _ found plain _ =>
      refine congrArg Option.join ?_
      show _ = (st.runs d.name k x).or (st.page x)
      by_cases own : x ∈ locals d
      · obtain ⟨-, v, shared, held⟩ := h.shared d.name x k plain (undisturbed.1 own)
        rw [Host.name_of_mem own, shared, held]
        rfl
      · have unheld : st.runs d.name k x = none := by
          cases held : st.runs d.name k x with
          | none => rfl
          | some v =>
            obtain ⟨d', found', own'⟩ := h.own d.name k x v held
            obtain rfl := Option.some.inj (found.symm.trans found')
            exact absurd own' own
        rw [Host.name_of_not_mem own, unheld, h.page x hx]
        rfl

theorem State.runs_write (st : State) (d : Definition) (k : Nat) (block : List Node) (outer : Site)
    (x : String) (v : Datum) (m : String) (j : Nat) (y : String) :
    (st.write (.run d k block outer) x v).runs m j y =
      if (m = d.name ∧ j = k) ∧ y = x then some v else st.runs m j y := by
  show (if m = d.name ∧ j = k then (st.runs m j).set x v else st.runs m j) y = _
  by_cases here : m = d.name ∧ j = k <;> simp [here, Scope.set]

theorem Agree.write {x : String} (h : Agree lib st scope) (placed : Placed lib site host)
    (started : site.Started st.count) (hx : IsPlain x) (owns : host.Owns x) (v : Datum) :
    Agree lib (st.write site x v) (scope.set (host.name x) v) := by
  cases placed with
  | page =>
    refine ⟨fun y hy => ?_, fun m y k hm last => ?_, h.own⟩
    · show scope.set x v y = st.page.set x v y
      simp [Scope.set, h.page y hy]
    · obtain ⟨lt, u, shared, held⟩ := h.shared m y k hm last
      have other : boundName m y ≠ x := (boundName_ne hm hx).symm
      refine ⟨lt, u, ?_, held⟩
      show scope.set x v (boundName m y) = some u
      rw [Scope.set, if_neg other, shared]
  | @run d k block content outer found plain sim =>
    rw [Host.name_of_mem owns]
    refine ⟨fun y hy => ?_, fun m y j hm last => ?_, fun m j y u held => ?_⟩
    · show scope.set (boundName d.name x) v y = st.page y
      rw [Scope.set, if_neg (boundName_ne plain hy), h.page y hy]
    · have last : (if d.name = m ∧ x = y then some k else lastWriter m y st.log) = some j := last
      by_cases same : d.name = m ∧ x = y
      · obtain ⟨rfl, rfl⟩ := same
        rw [if_pos ⟨rfl, rfl⟩] at last
        cases last
        exact ⟨started.1, v, by simp [Scope.set], by simp [State.runs_write]⟩
      · rw [if_neg same] at last
        obtain ⟨lt, u, shared, held⟩ := h.shared m y j hm last
        have other : boundName m y ≠ boundName d.name x := by
          intro equal
          obtain ⟨rfl, rfl⟩ := boundName_inj hm plain equal
          exact same ⟨rfl, rfl⟩
        refine ⟨lt, u, ?_, ?_⟩
        · rw [Scope.set, if_neg other, shared]
        · rw [State.runs_write, if_neg fun here => same ⟨here.1.1.symm, here.2.symm⟩, held]
    · rw [State.runs_write] at held
      split at held
      · rename_i here
        exact ⟨d, here.1.1 ▸ found, here.2 ▸ owns⟩
      · exact h.own m j y u held

/-! ### Statements -/

theorem Tracks.refl (lib : Library) (st : State) : Tracks lib st st fun scope => (scope, "") :=
  fun _ agree _ => ⟨agree, (String.append_empty).symm⟩

theorem Tracks.trans {f g : Scope → Scope × String} (h : Tracks lib st st₁ f)
    (next : Tracks lib st₁ st₂ g) (before : st₁.Before st₂) :
    Tracks lib st st₂ fun scope => ((g (f scope).1).1, (f scope).2 ++ (g (f scope).1).2) := by
  intro scope agree undisturbed
  obtain ⟨agree₁, text₁⟩ := h scope agree (undisturbed.of_suffix before.log)
  obtain ⟨agree₂, text₂⟩ := next _ agree₁ undisturbed
  exact ⟨agree₂, by rw [text₂, text₁, String.append_assoc]⟩

theorem tracks_print (st : State) (s : String) :
    Tracks lib st (st.print s) fun scope => (scope, s) :=
  fun _ agree _ => ⟨agree.note fun _ _ => rfl, rfl⟩

theorem printedText_reading (st : State) (site : Site) (e : Node) :
    printedText (st.reading site e).log = printedText st.log := by
  unfold State.reading
  split <;> rfl

theorem printedText_write (st : State) (site : Site) (x : String) (v : Datum) :
    printedText (st.write site x v).log = printedText st.log := by
  cases site <;> rfl

theorem tracks_output {e : Node} (placed : Placed lib site host) (he : IsValue e) (st : State) :
    Tracks lib st ((st.reading site e).print (shown (valueOf (st.look site) e)))
      (exec (.output [host.adapt e])) := by
  intro scope agree undisturbed
  have value := agree.valueOf placed he undisturbed.tail
  refine ⟨agree.reading.note fun _ _ => rfl, ?_⟩
  show printedText (st.reading site e).log ++ _ = _ ++ shown (valueOf scope (host.adapt e))
  rw [value, printedText_reading]

/-- The value is read at one site and written at another. -/
theorem tracks_assign {x : String} {e : Node} {source : Site} {sourceHost : Host}
    (placed : Placed lib site host) (sourcePlaced : Placed lib source sourceHost)
    (started : site.Started st.count) (hx : IsPlain x) (owns : host.Owns x) (he : IsValue e) :
    Tracks lib st (st.assign site x source e)
      (exec (.assign (.var [host.name x]) (sourceHost.adapt e) .set)) := by
  intro scope agree undisturbed
  have read := undisturbed.of_suffix (State.Before.write (st.reading source e) site x _).log
  have value := agree.valueOf sourcePlaced he read
  have started := started.mono (State.Before.reading st source e).count
  have written := agree.reading.write placed started hx owns (valueOf (st.look source) e)
  rw [← value] at written
  refine ⟨?_, ?_⟩
  · show Agree lib (State.write _ _ _ (valueOf (st.look source) e)) _
    rw [← value]
    exact written
  · show printedText (State.write _ _ _ _).log = _ ++ ""
    rw [printedText_write, printedText_reading, String.append_empty]

theorem tracks_bind {d : Definition} {k : Nat} {args block content : List Node}
    (placed : Placed lib site host)
    (callee : Placed lib (.run d k block site) (.expansion d content)) (ha : ∀ a ∈ args, IsPassed a)
    {ps : List Node} (hp : ∀ p ∈ ps, IsDeclared p) (own : ps ⊆ d.declared) (place : Nat)
    (started : (Site.run d k block site).Started st.count) :
    Tracks lib st (State.bind (.run d k block site) site args place ps st)
      (execAll (settings host (.expansion d content) d args place ps)) := by
  induction ps generalizing st place with
  | nil => exact .refl lib st
  | cons p ps ih =>
    obtain ⟨declared, others⟩ := List.forall_mem_cons.mp hp
    obtain ⟨inLocals, ownOthers⟩ := List.cons_subset.mp own
    obtain ⟨x, default, rfl, hx, value⟩ := declared.exists_default
    have owns : (Host.expansion d content).Owns x := by
      refine List.mem_append_left _ (List.mem_filterMap.mpr ⟨_, inLocals, rfl⟩)
    have name : boundName d.name x = (Host.expansion d content).name x :=
      (Host.name_of_mem owns).symm
    rw [State.bind, settings, setting, name]
    cases found : argument? args x place with
    | some e =>
      have first := tracks_assign callee placed started hx owns (isValue_of_argument? ha found)
      refine first.trans (ih others ownOthers (place + 1) (started.mono ?_)) (.bind ..)
      exact (State.Before.assign ..).count
    | none =>
      have first := tracks_assign callee callee started hx owns value
      refine first.trans (ih others ownOthers (place + 1) (started.mono ?_)) (.bind ..)
      exact (State.Before.assign ..).count

/-! ### Inlined code -/

/-- The statement `n` is inlined for the host, and what comes out is flat and does the same. -/
def Inlines (lib here : Library) (host : Host) (n : Node) : Prop :=
  ∃ n', statement here (host.adapt n) = .ok n' ∧ IsFlat n' ∧
    ∀ site, Placed lib site host → ∀ st : State, site.Started st.count →
      ∃ st', Runs lib site [n] st st' ∧ Tracks lib st st' (exec n')

def InlinesAll (lib here : Library) (host : Host) (ns : List Node) : Prop :=
  ∃ ns', body here (ns.map host.adapt) = .ok ns' ∧ (∀ n ∈ ns', IsFlat n) ∧
    ∀ site, Placed lib site host → Simulates lib site ns ns'

variable {here : Library}

theorem inlinesAll_of_inlines {ns : List Node} (h : ∀ n ∈ ns, Inlines lib here host n) :
    InlinesAll lib here host ns := by
  induction ns with
  | nil =>
    refine ⟨[], by rw [List.map_nil, body], by simp, fun site _ st _ => ⟨st, .nil, ?_⟩⟩
    exact .refl lib st
  | cons n ns ih =>
    obtain ⟨first, others⟩ := List.forall_mem_cons.mp h
    obtain ⟨n', inlined, flat, runs⟩ := first
    obtain ⟨ns', inlinedAll, flatAll, runsAll⟩ := ih others
    refine ⟨n' :: ns', ?_, List.forall_mem_cons.mpr ⟨flat, flatAll⟩, fun site placed st started => ?_⟩
    · rw [List.map_cons, body, inlined, inlinedAll]
      rfl
    · obtain ⟨st₁, run, tracks⟩ := runs site placed st started
      obtain ⟨st₂, runRest, tracksRest⟩ := runsAll site placed st₁ (started.mono run.before.count)
      exact ⟨st₂, run.append runRest, tracks.trans tracksRest runRest.before⟩

theorem inlines_text (s : String) : Inlines lib here host (.text s) := by
  refine ⟨.text s, ?_, .text s, fun site _ st _ => ⟨_, .text .nil, tracks_print st s⟩⟩
  rw [Host.adapt_text]
  exact statement_of_isFlat (.text s) here

theorem inlines_output {e : Node} (he : IsValue e) : Inlines lib here host (.output [e]) := by
  have flat : IsFlat (.output [host.adapt e]) := .output (he.isAtom_adapt host)
  refine ⟨_, ?_, flat, fun site placed st _ => ⟨_, .output he.isAtom .nil, ?_⟩⟩
  · rw [Host.adapt_output]
    exact statement_of_isFlat flat here
  · exact tracks_output placed he st

theorem inlines_assign {x : String} {e : Node} (hx : IsPlain x) (he : IsValue e)
    (owns : host.Owns x) : Inlines lib here host (.assign (.var [x]) e .set) := by
  have flat : IsFlat (.assign (.var [host.name x]) (host.adapt e) .set) :=
    .assign _ (he.isAtom_adapt host)
  refine ⟨_, ?_, flat, fun site placed st started => ⟨_, .assign .nil, ?_⟩⟩
  · rw [Host.adapt_assign]
    exact statement_of_isFlat flat here
  · exact tracks_assign placed placed started hx owns he

theorem inlines_yield (hs : IsFlat host.slot) : Inlines lib here host .yield := by
  refine ⟨host.slot, ?_, hs, fun site placed st started => ?_⟩
  · rw [Host.adapt_yield]
    exact statement_of_isFlat hs here
  · cases placed with
    | page => exact ⟨st, .noBlock .nil, .refl lib st⟩
    | run _ _ sim =>
      obtain ⟨st₁, run, tracks⟩ := sim st started.2
      exact ⟨st₁, .yield run .nil, tracks⟩

theorem inlines_macroDef {m : String} {params code : List Node} {doc : Option String}
    (hp : ∀ p ∈ params, IsDeclared p) (hb : InlinesAll lib (here.without m) host code) :
    Inlines lib here host (.macroDef m (.parameters params) code doc) := by
  obtain ⟨code', inlined, flat, -⟩ := hb
  have params' : ∀ p ∈ params.map host.adapt, IsFlatParameter p := by
    rintro _ mem
    obtain ⟨p, hmem, rfl⟩ := List.mem_map.mp mem
    exact (hp p hmem).adapt host
  refine ⟨.macroDef m (.parameters (params.map host.adapt)) code' doc, ?_, .macroDef m doc params' flat,
    fun site _ st _ => ⟨st, .macroDef .nil, .refl lib st⟩⟩
  rw [Host.adapt_macroDef, statement_eq_node rfl, node, node_of_flatParameters params', inlined]
  rfl

theorem Tracks.of_enter {d : Definition} {f : Scope → Scope × String}
    (h : Tracks lib (st.enter d) st₁ f) : Tracks lib st st₁ f :=
  fun scope agree undisturbed => h scope (agree.enter d) undisturbed

/-- The list that a call becomes does what the run of the macro does. -/
theorem exists_expansion {m : String} {d : Definition} {args block : List Node}
    (found : lib.find? m = some d) (available : here.find? m = some d) (hd : IsDefined lib d)
    (ha : ∀ a ∈ args, IsPassed a) (fits : args.length ≤ d.declared.length)
    (hblock : InlinesAll lib here host block)
    (hbody : ∀ content, (∀ n ∈ content, IsFlat n) →
      InlinesAll lib (here.without m) (.expansion d content) d.body) :
    ∃ n', expand here ⟨d, here.without m, Library.length_without_lt available⟩
        (.parameters (args.map host.adapt)) (block.map host.adapt) = .ok n' ∧ IsFlat n' ∧
      ∀ site, Placed lib site host → ∀ st : State, site.Started st.count → ∃ st',
        Runs lib (.run d st.count block site) d.body
          (State.bind (.run d st.count block site) site args 0 d.declared (st.enter d)) st' ∧
        Tracks lib st st' (exec n') := by
  obtain ⟨content, inner, flatContent, sim⟩ := hblock
  obtain ⟨statements, outer, flatStatements, simBody⟩ := hbody content flatContent
  refine ⟨_, expand_eq available ha fits hd.declared inner outer, .list ?_, ?_⟩
  · exact List.forall_mem_append.mpr ⟨isFlat_of_mem_settings ha hd.declared, flatStatements⟩
  · intro site placed st started
    have callee : Placed lib (.run d st.count block site) (.expansion d content) :=
      .run (name_of_find? found ▸ found) hd.plain (sim site placed)
    have started : (Site.run d st.count block site).Started (st.enter d).count :=
      ⟨Nat.lt_succ_self _, started.mono (Nat.le_succ _)⟩
    have bound := tracks_bind placed callee ha hd.declared (List.Subset.refl _) 0 started
    obtain ⟨st₁, run, tracks⟩ := simBody _ callee _ (started.mono (State.Before.bind ..).count)
    refine ⟨st₁, run, ?_⟩
    show Tracks lib st st₁ fun scope => execAll (settings _ _ _ _ _ _ ++ statements) scope
    simp only [execAll_append]
    exact (bound.trans tracks run.before).of_enter

theorem inlines_call {m : String} {d : Definition} {args block : List Node}
    (found : lib.find? m = some d) (available : here.find? m = some d) (hd : IsDefined lib d)
    (ha : ∀ a ∈ args, IsPassed a) (fits : args.length ≤ d.declared.length)
    (hblock : InlinesAll lib here host block)
    (hbody : ∀ content, (∀ n ∈ content, IsFlat n) →
      InlinesAll lib (here.without m) (.expansion d content) d.body) :
    Inlines lib here host (.call m (.parameters args) block) := by
  obtain ⟨n', expanded, flat, runs⟩ := exists_expansion found available hd ha fits hblock hbody
  refine ⟨n', ?_, flat, fun site placed st started => ?_⟩
  · rw [Host.adapt_call, statement.eq_def]
    dsimp only
    rw [extract?_of_find? available]
    exact expanded
  · obtain ⟨st', run, tracks⟩ := runs site placed st started
    exact ⟨st', .call found run .nil, tracks⟩

theorem inlines_outputCall {m : String} {d : Definition} {args : List Node}
    (found : lib.find? m = some d) (available : here.find? m = some d) (hd : IsDefined lib d)
    (ha : ∀ a ∈ args, IsPassed a) (fits : args.length ≤ d.declared.length)
    (hbody : ∀ content, (∀ n ∈ content, IsFlat n) →
      InlinesAll lib (here.without m) (.expansion d content) d.body) :
    Inlines lib here host (.output [.call m (.parameters args) []]) := by
  have hblock : InlinesAll lib here host [] := inlinesAll_of_inlines (by simp)
  obtain ⟨n', expanded, flat, runs⟩ := exists_expansion found available hd ha fits hblock hbody
  refine ⟨n', ?_, flat, fun site placed st started => ?_⟩
  · rw [Host.adapt_output, Host.adapt_call, statement.eq_def]
    dsimp only
    rw [extract?_of_find? available]
    exact expanded
  · obtain ⟨st', run, tracks⟩ := runs site placed st started
    exact ⟨st', .outputCall found run .nil, tracks⟩

/-! ### Templates -/

/-- A library whose macros are made of calls, which contains the macros that are defined inside its
macros, and in which no macro calls itself. -/
structure IsSound (lib : Library) : Prop where
  defined : ∀ d ∈ lib, IsDefined lib d
  nested : ∀ d ∈ lib, ∀ n ∈ d.body, ∀ k ∈ n.preorder, ∀ e, Definition.ofNode? k = some e → e ∈ lib
  acyclic : ∀ m, ¬ Relation.TransGen (Calls lib) m m

/-- All that a statement can reach by calls is still `here`, and the macros defined in it are in
the library. -/
structure Ready (lib here : Library) (n : Node) : Prop where
  available : ∀ c ∈ callees n, ∀ m, Relation.ReflTransGen (Calls lib) c m →
    here.find? m = lib.find? m
  defined : ∀ k ∈ n.preorder, ∀ d, Definition.ofNode? k = some d → d ∈ lib

theorem mem_callees_call (m : String) (arguments : Node) (block : List Node) :
    m ∈ callees (.call m arguments block) :=
  List.mem_filterMap.mpr ⟨_, Node.mem_preorder_self _, rfl⟩

theorem callees_subset {k n : Node} (h : k.preorder ⊆ n.preorder) : callees k ⊆ callees n := by
  intro c hc
  obtain ⟨j, hj, call⟩ := List.mem_filterMap.mp hc
  exact List.mem_filterMap.mpr ⟨j, h hj, call⟩

theorem Ready.of_subtree {k n : Node} (h : Ready lib here n) (sub : k ∈ n.subtrees) :
    Ready lib here k := by
  have subset := Node.preorder_subset sub
  exact ⟨fun c hc => h.available c (callees_subset subset hc), fun j hj => h.defined j (subset hj)⟩

/-- Inside a definition of `m`, whatever can be reached is not `m`. -/
theorem available_without {d : Definition} {n : Node} (sound : IsSound lib) (hd : d ∈ lib)
    (hn : n ∈ d.body) (available : ∀ c ∈ callees n, ∀ m, Relation.ReflTransGen (Calls lib) c m →
      here.find? m = lib.find? m) {c : String} (hc : c ∈ callees n) {m : String}
    (reach : Relation.ReflTransGen (Calls lib) c m) :
    (here.without d.name).find? m = lib.find? m := by
  have calls : Calls lib d.name c := ⟨d, hd, rfl, n, hn, hc⟩
  have other : m ≠ d.name := by
    rintro rfl
    exact sound.acyclic _ (.trans_left (.single calls) reach)
  rw [find?_without other, available c hc m reach]

theorem Ready.macroDef {m : String} {p : Node} {code : List Node} {doc : Option String}
    (sound : IsSound lib) (h : Ready lib here (.macroDef m p code doc)) {n : Node} (hn : n ∈ code) :
    Ready lib (here.without m) n := by
  have hd : (⟨m, p, code⟩ : Definition) ∈ lib := h.defined _ (Node.mem_preorder_self _) _ rfl
  have inner := h.of_subtree (List.mem_cons_of_mem p hn)
  exact ⟨fun c hc m' => available_without sound hd hn inner.available hc, inner.defined⟩

theorem Ready.body {m : String} {d : Definition} {k : Node} (sound : IsSound lib)
    (h : Ready lib here k) (hm : m ∈ callees k) (found : lib.find? m = some d) {n : Node}
    (hn : n ∈ d.body) : Ready lib (here.without m) n := by
  have hd : d ∈ lib := List.mem_of_find?_eq_some found
  obtain rfl := name_of_find? found
  have available : ∀ c ∈ callees n, ∀ m', Relation.ReflTransGen (Calls lib) c m' →
      here.find? m' = lib.find? m' := by
    intro c hc m' reach
    exact h.available _ hm m' (.head ⟨d, hd, rfl, n, hn, hc⟩ reach)
  exact ⟨fun c hc m' => available_without sound hd hn available hc, sound.nested d hd n hn⟩

theorem owns_of_mem_body {d : Definition} {content : List Node} {n k : Node} {x : String}
    (hn : n ∈ d.body) (hk : k ∈ n.preorder) (hx : x ∈ boundBy k) :
    (Host.expansion d content).Owns x := by
  refine List.mem_append_right _ (List.mem_flatMap.mpr ⟨k, ?_, hx⟩)
  exact Node.mem_preorderAll.mpr ⟨n, hn, hk⟩

/-- The induction is on the number of macros that are still there, and inside on the code: a call
goes to the code of a macro with one macro less, everything else to smaller code. -/
theorem inlines_of_isCode (sound : IsSound lib) (size : Nat) {n : Node} (code : IsCode lib n) :
    ∀ {here : Library} {host : Host}, here.length ≤ size → Ready lib here n → IsFlat host.slot →
      (∀ k ∈ n.preorder, ∀ x ∈ boundBy k, host.Owns x) → Inlines lib here host n := by
  induction size using Nat.strongRecOn generalizing n with
  | ind size shorter =>
    have body : ∀ {here : Library} {k : Node} {m : String} {d : Definition}, here.length ≤ size →
        Ready lib here k → m ∈ callees k → lib.find? m = some d → here.find? m = some d →
        ∀ content, (∀ n ∈ content, IsFlat n) →
          InlinesAll lib (here.without m) (.expansion d content) d.body := by
      intro here k m d le ready hm found available content flat
      have hd : IsDefined lib d := sound.defined d (List.mem_of_find?_eq_some found)
      have lt := Nat.lt_of_lt_of_le (Library.length_without_lt available) le
      refine inlinesAll_of_inlines fun n hn => ?_
      exact shorter _ lt (hd.code n hn) (Nat.le_refl _) (ready.body sound hm found hn) (.list flat)
        fun k hk x hx => owns_of_mem_body hn hk hx
    induction code with
    | text s => exact fun _ _ _ _ => inlines_text s
    | output he => exact fun _ _ _ _ => inlines_output he
    | assign hx he =>
      intro here host le ready flat owned
      exact inlines_assign hx he (owned _ (Node.mem_preorder_self _) _ List.mem_cons_self)
    | macroDef _ hp _ ih =>
      intro here host le ready flat owned
      refine inlines_macroDef hp (inlinesAll_of_inlines fun n hn => ?_)
      refine ih n hn (Nat.le_trans (Library.length_without_le _ _) le) (ready.macroDef sound hn) flat ?_
      exact fun k hk => owned k (Node.preorder_subset (List.mem_cons_of_mem _ hn) hk)
    | @call m d args block found ha fits _ ih =>
      intro here host le ready flat owned
      have hm := mem_callees_call m (.parameters args) block
      have available : here.find? m = some d := (ready.available m hm m .refl).trans found
      have hd : IsDefined lib d := sound.defined d (List.mem_of_find?_eq_some found)
      refine inlines_call found available hd ha fits (inlinesAll_of_inlines fun n hn => ?_)
        (body le ready hm found available)
      have sub : n ∈ (Node.call m (.parameters args) block).subtrees := List.mem_cons_of_mem _ hn
      exact ih n hn le (ready.of_subtree sub) flat fun k hk => owned k (Node.preorder_subset sub hk)
    | @outputCall m d args found ha fits =>
      intro here host le ready flat owned
      have ready : Ready lib here (.call m (.parameters args) []) :=
        ready.of_subtree (List.mem_singleton_self _)
      have hm := mem_callees_call m (.parameters args) []
      have available : here.find? m = some d := (ready.available m hm m .refl).trans found
      have hd : IsDefined lib d := sound.defined d (List.mem_of_find?_eq_some found)
      exact inlines_outputCall found available hd ha fits (body le ready hm found available)
    | yield => exact fun _ _ flat _ => inlines_yield flat

theorem preorder_subset_of_statement {t n : Node} {ns : List Node} (h : statements? t = some ns)
    (hn : n ∈ ns) : n.preorder ⊆ t.preorder := by
  cases t with
  | list =>
    cases h
    exact Node.preorder_subset hn
  | macroDef =>
    cases h
    rw [List.mem_singleton.mp hn]
    exact List.Subset.refl _
  | _ => cases h

theorem exists_statement_of_defined {t k : Node} {ns : List Node} {d : Definition}
    (h : statements? t = some ns) (hk : k ∈ t.preorder) (hd : Definition.ofNode? k = some d) :
    ∃ n ∈ ns, k ∈ n.preorder := by
  cases t with
  | list =>
    cases h
    rcases Node.mem_preorder.mp hk with rfl | below
    · cases hd
    · exact below
  | macroDef =>
    cases h
    exact ⟨_, List.mem_singleton_self _, hk⟩
  | _ => cases h

theorem IsCallTemplate.isSound {t : Node} {ns : List Node} (h : IsCallTemplate t ns) :
    IsSound (.ofTree t) := by
  refine ⟨fun d hd => ?_, fun d hd n hn k hk e he => ?_, h.acyclic⟩
  · obtain ⟨k, hk, def_k⟩ := List.mem_filterMap.mp hd
    obtain ⟨n, hn, hk⟩ := exists_statement_of_defined h.root hk def_k
    exact (h.code n hn).isDefined hk def_k
  · obtain ⟨j, hj, def_j⟩ := List.mem_filterMap.mp hd
    refine List.mem_filterMap.mpr ⟨k, Node.preorder_trans hj ?_, he⟩
    cases j with
    | macroDef m p code doc =>
      cases def_j
      exact Node.preorder_subset (List.mem_cons_of_mem p hn) hk
    | _ => cases def_j

theorem agree_start (page : Scope) : Agree lib (.start page) page :=
  ⟨fun _ _ => rfl, nofun, nofun⟩

/-- The tree of a template is inlined if its statements are. -/
theorem exists_inlined {t : Node} {ns : List Node} (h : statements? t = some ns)
    (inlines : ∀ n ∈ ns, Inlines lib lib .page n) : ∃ n, t.inline lib = .ok n ∧
      ∀ st : State, ∃ st', Runs lib .page ns st st' ∧ Tracks lib st st' (exec n) := by
  cases t with
  | list =>
    cases h
    obtain ⟨flat, inlined, -, sim⟩ := inlinesAll_of_inlines inlines
    rw [Host.page_adapt, List.map_id] at inlined
    refine ⟨.list flat, ?_, fun st => sim .page .page st trivial⟩
    rw [Node.inline, node, inlined]
    rfl
  | macroDef =>
    cases h
    obtain ⟨n, inlined, -, sim⟩ := inlines _ (List.mem_singleton_self _)
    rw [Host.page_adapt, id, statement_eq_node rfl] at inlined
    exact ⟨n, inlined, fun st => sim .page .page st trivial⟩
  | _ => cases h

/-- Inlining succeeds, and unless a run reads what another run of its macro wrote, the inlined
template prints what the template prints. -/
theorem inline_prints_same {t : Node} {ns : List Node} (h : IsCallTemplate t ns) :
    ∃ n, t.inline (.ofTree t) = .ok n ∧ ∀ page : Scope, ∃ st : State,
      (∀ st', Runs (.ofTree t) .page ns (.start page) st' ↔ st' = st) ∧
      (Undisturbed st.log → (exec n page).2 = printedText st.log) := by
  have sound := h.isSound
  have ready : ∀ n ∈ ns, Ready (.ofTree t) (.ofTree t) n := by
    refine fun n hn => ⟨fun _ _ _ _ => rfl, fun k hk d hd => ?_⟩
    exact List.mem_filterMap.mpr ⟨k, preorder_subset_of_statement h.root hn hk, hd⟩
  have inlined : ∀ n ∈ ns, Inlines (.ofTree t) (.ofTree t) .page n := fun n hn =>
    inlines_of_isCode sound _ (h.code n hn) (Nat.le_refl _) (ready n hn) .yield
      fun _ _ _ _ => trivial
  obtain ⟨n, inlined, same⟩ := exists_inlined h.root inlined
  refine ⟨n, inlined, fun page => ?_⟩
  obtain ⟨st, run, tracks⟩ := same (.start page)
  refine ⟨st, fun st' => ⟨fun other => other.unique run, fun equal => equal ▸ run⟩, ?_⟩
  intro undisturbed
  obtain ⟨-, text⟩ := tracks page (agree_start page) undisturbed
  rw [text]
  exact String.empty_append.symm

/-- Two calls of one macro, which calls another one. -/
theorem inline_prints_same_in_two_calls :
    let inner : Node := .macroDef "n" (.parameters [.parameter (some "a") none])
      [.text "<", .output [.var ["a"]], .text ">"] none
    let outer : Node := .macroDef "m" (.parameters [.parameter (some "a") none])
      [.assign (.var ["b"]) (.var ["a"]) .set, .yield,
        .output [.call "n" (.parameters [.positional (.var ["b"])]) []]] none
    let ns : List Node := [inner, outer,
      .call "m" (.parameters [.positional (.string "1")]) [.output [.var ["p"]]],
      .output [.call "m" (.parameters [.named "a" (.var ["p"])]) []]]
    let page : Scope := fun x => if x = "p" then some (some "x") else none
    IsCallTemplate (.list ns) ns ∧ ∃ n, (Node.list ns).inline (.ofTree (.list ns)) = .ok n ∧
      (exec n page).2 = "x<1><x>" := by
  intro inner outer ns page
  have plain : ∀ x ∈ ["m", "n", "a", "b", "p"], IsPlain x := by
    unfold IsPlain
    decide
  have var : ∀ x ∈ ["m", "n", "a", "b", "p"], IsValue (.var [x]) := fun x hx => .var (plain x hx)
  have lib : Library.ofTree (.list ns) = [⟨"n", _, _⟩, ⟨"m", _, _⟩] := rfl
  have foundN : (Library.ofTree (.list ns)).find? "n" = some ⟨"n", _, _⟩ := rfl
  have foundM : (Library.ofTree (.list ns)).find? "m" = some ⟨"m", _, _⟩ := rfl
  have template : IsCallTemplate (.list ns) ns := by
    refine ⟨rfl, ?_, acyclic_of_rank (fun m => if m = "m" then 1 else 0) ?_⟩
    · have passed : ∀ e, IsValue e → ∀ a ∈ [Node.positional e], IsPassed a := by
        simpa using fun e he => IsPassed.positional he
      have declared : ∀ p ∈ [Node.parameter (some "a") none], IsDeclared p := by
        simpa using IsDeclared.bare (plain "a" (by simp))
      have innerCode : ∀ k ∈ [Node.text "<", .output [.var ["a"]], .text ">"],
          IsCode (.ofTree (.list ns)) k := by
        simpa using ⟨.text "<", .output (var "a" (by simp)), .text ">"⟩
      have outerCode : ∀ k ∈ [Node.assign (.var ["b"]) (.var ["a"]) .set, .yield,
          .output [.call "n" (.parameters [.positional (.var ["b"])]) []]],
          IsCode (.ofTree (.list ns)) k := by
        simpa using ⟨.assign (plain "b" (by simp)) (var "a" (by simp)), .yield,
          .outputCall foundN (passed _ (var "b" (by simp))) (by decide)⟩
      have block : ∀ k ∈ [Node.output [.var ["p"]]], IsCode (.ofTree (.list ns)) k := by
        simpa using .output (var "p" (by simp))
      have named : ∀ a ∈ [Node.named "a" (.var ["p"])], IsPassed a := by
        simpa using .named (var "p" (by simp))
      exact List.forall_mem_cons.mpr ⟨.macroDef (plain "n" (by simp)) declared innerCode,
        List.forall_mem_cons.mpr ⟨.macroDef (plain "m" (by simp)) declared outerCode,
        List.forall_mem_cons.mpr ⟨.call foundM (passed _ (.string "1")) (by decide) block,
        List.forall_mem_singleton.mpr (.outputCall foundM named (by decide))⟩⟩⟩
    · rw [lib]
      simp [callees, callee?, Node.preorder, Node.preorderAll, Node.positional]
  obtain ⟨n, inlined, prints⟩ := inline_prints_same template
  obtain ⟨st, unique, same⟩ := prints page
  have run : Runs (.ofTree (.list ns)) .page ns (.start page) _ :=
    .macroDef (.macroDef (.call foundM (.assign (.yield (.output (.var "p") .nil)
      (.outputCall foundN (.text (.output (.var "a") (.text .nil))) .nil)))
      (.outputCall foundM (.assign (.yield .nil
        (.outputCall foundN (.text (.output (.var "a") (.text .nil))) .nil))) .nil)))
  refine ⟨template, n, inlined, ?_⟩
  rw [same (by rw [← (unique _).mp run]; decide), ← (unique _).mp run]
  decide

/-- In the block of a call of `m`, a second call of `m` overwrites the parameter of the first. -/
theorem inline_prints_other_in_nested_call :
    let ns : List Node := [.macroDef "m" (.parameters [.parameter (some "a") none])
        [.yield, .output [.var ["a"]]] none,
      .call "m" (.parameters [.positional (.string "1")])
        [.output [.call "m" (.parameters [.positional (.string "2")]) []]]]
    let page : Scope := fun _ => none
    IsCallTemplate (.list ns) ns ∧
      (∃ st : State, (∀ st', Runs (.ofTree (.list ns)) .page ns (.start page) st' ↔ st' = st) ∧
        printedText st.log = "21") ∧
      ∃ n, (Node.list ns).inline (.ofTree (.list ns)) = .ok n ∧ (exec n page).2 = "22" := by
  intro ns page
  have plain : ∀ x ∈ ["m", "a"], IsPlain x := by
    unfold IsPlain
    decide
  have lib : Library.ofTree (.list ns) = [⟨"m", _, _⟩] := rfl
  have found : (Library.ofTree (.list ns)).find? "m" = some ⟨"m", _, _⟩ := rfl
  have passed : ∀ s, ∀ a ∈ [Node.positional (.string s)], IsPassed a := by
    simpa using fun s => IsPassed.positional (.string s)
  refine ⟨⟨rfl, ?_, acyclic_of_rank (fun _ => 0) ?_⟩, ?_, ?_⟩
  · have block : ∀ n ∈ [Node.output [.call "m" (.parameters [.positional (.string "2")]) []]],
        IsCode (.ofTree (.list ns)) n := by
      simpa using .outputCall found (passed "2") (by decide)
    have declared : ∀ p ∈ [Node.parameter (some "a") none], IsDeclared p := by
      simpa using .bare (plain "a" (by simp))
    have code : ∀ n ∈ [Node.yield, .output [.var ["a"]]], IsCode (.ofTree (.list ns)) n := by
      simpa using ⟨.yield, .output (.var (plain "a" (by simp)))⟩
    exact List.forall_mem_cons.mpr ⟨.macroDef (plain "m" (by simp)) declared code,
      List.forall_mem_singleton.mpr (.call found (passed "1") (by decide) block)⟩
  · rw [lib]
    simp [callees, callee?, Node.preorder, Node.preorderAll]
  · have run : Runs (.ofTree (.list ns)) .page ns (.start page) _ :=
      .macroDef (.call found (.yield (.outputCall found (.yield .nil (.output (.var "a") .nil)) .nil)
        (.output (.var "a") .nil)) .nil)
    exact ⟨_, fun st' => ⟨fun other => other.unique run, fun equal => equal ▸ run⟩, by decide⟩
  · exact ⟨.list [.macroDef "m" (.parameters [.parameter (some "a") none])
        [.yield, .output [.var ["a"]]] none,
      .list [.assign (.var ["m_a"]) (.string "1") .set,
        .list [.list [.assign (.var ["m_a"]) (.string "2") .set, .list [], .output [.var ["m_a"]]]],
        .output [.var ["m_a"]]]], by cbv, rfl⟩

end TagCompiler.Meaning
