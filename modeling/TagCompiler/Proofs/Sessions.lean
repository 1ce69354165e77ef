import Mathlib.Data.List.Forall2
import Mathlib.Tactic.Choose
import TagCompiler.Content.Store
import TagCompiler.Pipeline.Compiler
import TagCompiler.Proofs.TrackedStatements
/-!
# What a compiler remembers does not show

Whatever a compiler does is a sequence of small steps that are made with its memory: to record a
lookup, and to read a template, perhaps from the cache. A template is read with the same result
either way, so no answer depends on what is remembered, whoever put it there: an earlier request, a
request that failed, or another request of the same batch between two steps of this one.
-/

namespace TagCompiler

namespace ParseCache

variable {source : String}

theorem parse_of_ok {n : Node} (h : Template.parse source = .ok n) (c : ParseCache) :
    (c.parse source).1 = .ok ⟨n, h⟩ := by
  unfold parse
  split
  · rename_i t found
    obtain ⟨n', hn'⟩ := t
    cases hn'.symm.trans h
    rfl
  · split
    · rename_i n' hn'
      cases hn'.symm.trans h
      rfl
    · rename_i e he
      cases he.symm.trans h

theorem parse_of_error {e : Template.SyntaxError} (h : Template.parse source = .error e)
    (c : ParseCache) : (c.parse source).1 = .error e := by
  unfold parse
  split
  · rename_i t found
    cases t.2.symm.trans h
  · split
    · rename_i n hn
      cases hn.symm.trans h
    · rename_i e' he
      cases he.symm.trans h
      rfl

/-- A template is read with the same result whatever is in the cache. -/
theorem parse_fst (c : ParseCache) (source : String) :
    (c.parse source).1 = (ParseCache.empty.parse source).1 := by
  cases h : Template.parse source with
  | ok n => rw [parse_of_ok h, parse_of_ok h]
  | error e => rw [parse_of_error h, parse_of_error h]

end ParseCache

/-! ### Lookups -/

namespace Run

variable {α β : Type}

/-- What comes after a computation that may have failed. -/
def andThen (f : α → Run β) : Except CompileError α × Memory → Except CompileError β × Memory
  | (.ok a, m) => (f a).run m
  | (.error e, m) => (.error e, m)

theorem run_bind (x : Run α) (f : α → Run β) (m : Memory) :
    (x >>= f).run m = andThen f (x.run m) := by
  have bound : (x >>= f).run m = ExceptT.bindCont f (x.run m).1 (x.run m).2 := rfl
  rw [bound]
  rcases x.run m with ⟨_ | a, m⟩ <;> rfl

/-- A sequence of computations that succeeds is one of two that do. -/
theorem exists_of_bind {x : Run α} {f : α → Run β} {m after : Memory} {b : β}
    (h : (x >>= f).run m = (.ok b, after)) :
    ∃ a between, x.run m = (.ok a, between) ∧ (f a).run between = (.ok b, after) := by
  rw [run_bind] at h
  rcases first : x.run m with ⟨e | a, between⟩
  · rw [first] at h
    cases h
  · rw [first] at h
    exact ⟨a, between, rfl, h⟩

theorem eq_of_ofExcept {ε : Type} {wrap : ε → CompileError} {x : Except ε α} {m after : Memory}
    {a : α} (h : (ofExcept wrap x).run m = (.ok a, after)) : x = .ok a ∧ after = m := by
  cases x with
  | error e => cases h
  | ok a =>
    cases h
    exact ⟨rfl, rfl⟩

theorem run_note (l : Lookup) (m : Memory) :
    (note l).run m = (.ok (), { m with lookups := m.lookups ++ [l] }) := rfl

theorem run_parse (source : String) (m : Memory) : (Run.parse source).run m =
    ((m.cache.parse source).1.mapError .template, { m with cache := (m.cache.parse source).2 }) :=
  run_ofExcept CompileError.template (m.cache.parse source).1 _

end Run

namespace Content

/-- What the lookup of a macro gives, apart from what is remembered of it. -/
def macroNode (c : Content) (site name : String) : Except CompileError Node :=
  match c.resolve site name with
  | .error (.unknownMacro _ _) => .error (.macroNotFound site name)
  | .error e => .error (.content e)
  | .ok m =>
    match Template.parse m.source with
    | .error e => .error (.template e)
    | .ok t =>
      match t.topMacro? name with
      | some d => .ok d
      | none => .error (.macroNotFound site name)

theorem findMacro_run (c : Content) (site name : String) (memory : Memory) :
    (((c.findMacro site name).run memory).1.map Found.node = c.macroNode site name) ∧
      ((c.findMacro site name).run memory).2.lookups =
        memory.lookups ++ [Lookup.resolve site name] := by
  unfold findMacro
  rw [Run.run_bind, Run.run_note, Run.andThen]
  split
  · rename_i h
    rw [macroNode, h]
    exact ⟨rfl, rfl⟩
  · rename_i e other h
    rw [macroNode, h]
    cases e with
    | unknownMacro s n => exact absurd rfl (other s n)
    | _ => exact ⟨rfl, rfl⟩
  · rename_i m h
    rw [Run.run_bind, Run.run_parse]
    have readings : (∃ e, Template.parse m.source = .error e) ∨
        ∃ t, Template.parse m.source = .ok t := by
      cases Template.parse m.source <;> simp
    rcases readings with ⟨e, read⟩ | ⟨t, read⟩
    · have given : c.macroNode site name = .error (.template e) := by simp only [macroNode, h, read]
      rw [ParseCache.parse_of_error read, given]
      exact ⟨rfl, rfl⟩
    · rw [ParseCache.parse_of_ok read]
      dsimp only [Except.mapError, Run.andThen]
      split
      · rename_i d found
        have given : c.macroNode site name = .ok d := by simp only [macroNode, h, read, found]
        rw [given]
        exact ⟨rfl, rfl⟩
      · rename_i missing
        have given : c.macroNode site name = .error (.macroNotFound site name) := by
          simp only [macroNode, h, read, missing]
        rw [given]
        exact ⟨rfl, rfl⟩

theorem findMacro_of_ok {c : Content} {site name : String} {d : Node}
    (h : c.macroNode site name = .ok d) (memory : Memory) :
    ∃ found, ((c.findMacro site name).run memory).1 = .ok found ∧ found.node = d := by
  have given := (c.findMacro_run site name memory).1
  rw [h] at given
  cases result : ((c.findMacro site name).run memory).1 with
  | error e =>
    rw [result] at given
    cases given
  | ok found =>
    rw [result] at given
    exact ⟨found, rfl, Except.ok.inj given⟩

theorem findMacro_of_error {c : Content} {site name : String} {e : CompileError}
    (h : c.macroNode site name = .error e) (memory : Memory) :
    ((c.findMacro site name).run memory).1 = .error e := by
  have given := (c.findMacro_run site name memory).1
  rw [h] at given
  cases result : ((c.findMacro site name).run memory).1 with
  | error e' =>
    rw [result] at given
    cases given
    rfl
  | ok found =>
    rw [result] at given
    cases given

end Content

/-! ### Steps -/

/-- A computation as the steps it makes with a memory. -/
inductive Steps (α : Type) where
  | done (result : Except CompileError α)
  | note (lookup : Lookup) (next : Steps α)
  | parse (source : String) (next : Except Template.SyntaxError (TreeOf source) → Steps α)

namespace Steps

variable {α β : Type}

/-- Makes one step, if any is left. -/
def step : Steps α → Memory → Steps α × Memory
  | .done r, m => (.done r, m)
  | .note l t, m => (t, { m with lookups := m.lookups ++ [l] })
  | .parse source next, m =>
    let (r, cache) := m.cache.parse source
    (next r, { m with cache })

/-- Makes all steps. -/
def run : Steps α → Memory → Except CompileError α × Memory
  | .done r, m => (r, m)
  | .note l t, m => t.run { m with lookups := m.lookups ++ [l] }
  | .parse source next, m =>
    let (r, cache) := m.cache.parse source
    (next r).run { m with cache }

/-- The result when every template is read anew. -/
def result : Steps α → Except CompileError α
  | .done r => r
  | .note _ t => t.result
  | .parse source next => (next (ParseCache.empty.parse source).1).result

theorem run_fst (t : Steps α) (m : Memory) : (t.run m).1 = t.result := by
  induction t generalizing m with
  | done r => rfl
  | note l t ih => exact ih _
  | parse source next ih =>
    rw [run, result, ← m.cache.parse_fst]
    exact ih _ _

theorem result_step (t : Steps α) (m : Memory) : (t.step m).1.result = t.result := by
  cases t with
  | done r => rfl
  | note l t => rfl
  | parse source next => rw [step, result, ← m.cache.parse_fst]

/-- Some steps and then others, which get the result of the first. -/
def andThen : Steps α → (Except CompileError α → Steps β) → Steps β
  | .done r, f => f r
  | .note l t, f => .note l (t.andThen f)
  | .parse source next, f => .parse source fun r => (next r).andThen f

theorem run_andThen (t : Steps α) (f : Except CompileError α → Steps β) (m : Memory) :
    (t.andThen f).run m = (f (t.run m).1).run (t.run m).2 := by
  induction t generalizing m with
  | done r => rfl
  | note l t ih => exact ih _
  | parse source next ih => exact ih _ _

/-- What comes after steps that may fail. -/
def resume (next : α → Steps β) (failed : CompileError → Steps β) : Except CompileError α → Steps β
  | .ok a => next a
  | .error e => failed e

/-- Runs computations with one memory, one after the other. -/
def runAll : List (Steps α) → Memory → List (Except CompileError α)
  | [], _ => []
  | t :: ts, m => (t.run m).1 :: runAll ts (t.run m).2

/-- Runs computations with one memory, in turns: the schedule says which of them makes the next
step. What is left at its end is done one after the other. -/
def interleave : List Nat → List (Steps α) → Memory → List (Except CompileError α)
  | [], ts, m => runAll ts m
  | i :: schedule, ts, m =>
    match ts[i]? with
    | some t => interleave schedule (ts.set i (t.step m).1) (t.step m).2
    | none => interleave schedule ts m

theorem runAll_eq (ts : List (Steps α)) (m : Memory) : runAll ts m = ts.map result := by
  induction ts generalizing m with
  | nil => rfl
  | cons t ts ih => rw [runAll, run_fst, ih, List.map_cons]

theorem map_result_set {ts : List (Steps α)} {i : Nat} {t : Steps α} (h : ts[i]? = some t)
    (m : Memory) : (ts.set i (t.step m).1).map result = ts.map result := by
  obtain ⟨bound, rfl⟩ := List.getElem?_eq_some_iff.mp h
  have bound' : i < (ts.map result).length := by rwa [List.length_map]
  rw [List.map_set, result_step, ← List.getElem_map result (h := bound'), List.set_getElem_self]

/-- Whoever makes the next step, the results stay what they were going to be. -/
theorem interleave_eq (schedule : List Nat) (ts : List (Steps α)) (m : Memory) :
    interleave schedule ts m = ts.map result := by
  induction schedule generalizing ts m with
  | nil => exact runAll_eq ts m
  | cons i schedule ih =>
    rw [interleave]
    split
    · rename_i t ht
      rw [ih, map_result_set ht]
    · exact ih ts m

end Steps

/-! ### The steps of the compiler -/

/-- The computation makes the steps of `t`. -/
def Run.Makes {α : Type} (x : Run α) (t : Steps α) : Prop := ∀ m, x.run m = t.run m

/-- The computation is made of steps. -/
def Run.Stepwise {α : Type} (x : Run α) : Prop := ∃ t, x.Makes t

theorem Run.Makes.result_eq {α : Type} {x : Run α} {t : Steps α} (h : x.Makes t) (m : Memory) :
    (x.run m).1 = t.result := by
  rw [h m, t.run_fst]

namespace Run.Stepwise

variable {α β : Type}

theorem run_fst {x : Run α} (h : Stepwise x) (m : Memory) :
    (x.run m).1 = (x.run .empty).1 := by
  obtain ⟨t, ht⟩ := h
  rw [ht.result_eq, ht.result_eq]

theorem pure (a : α) : Stepwise (Pure.pure a : Run α) := ⟨.done (.ok a), fun _ => rfl⟩

theorem throw (e : CompileError) : Stepwise (MonadExcept.throw e : Run α) :=
  ⟨.done (.error e), fun _ => rfl⟩

theorem note (l : Lookup) : Stepwise (Run.note l) := ⟨.note l (.done (.ok ())), fun _ => rfl⟩

theorem ofExcept {ε : Type} (wrap : ε → CompileError) (x : Except ε α) :
    Stepwise (Run.ofExcept wrap x) :=
  ⟨.done (x.mapError wrap), fun m => run_ofExcept wrap x m⟩

theorem parse (source : String) : Stepwise (Run.parse source) :=
  ⟨.parse source fun r => .done (r.mapError .template), fun m =>
    run_ofExcept CompileError.template (m.cache.parse source).1 _⟩

theorem bind {x : Run α} {f : α → Run β} (hx : Stepwise x) (hf : ∀ a, Stepwise (f a)) :
    Stepwise (x >>= f) := by
  obtain ⟨t, ht⟩ := hx
  choose u hu using hf
  refine ⟨t.andThen (.resume u fun e => .done (.error e)), fun m => ?_⟩
  have first : (x >>= f).run m = ExceptT.bindCont f (x.run m).1 (x.run m).2 := rfl
  rw [Steps.run_andThen, ← ht, first]
  rcases x.run m with ⟨_ | a, m⟩
  · rfl
  · exact hu a m

end Run.Stepwise

theorem Content.stepwise_findMacro (c : Content) (site name : String) :
    (c.findMacro site name).Stepwise := by
  unfold Content.findMacro
  refine .bind (.note _) fun _ => ?_
  split
  · exact .throw _
  · exact .throw _
  · refine .bind (.parse _) fun ⟨n, hn⟩ => ?_
    dsimp only
    split
    · exact .pure _
    · exact .throw _

theorem Content.stepwise_lookUpModels (c : Content) (known : ModelLoading.Models)
    (paths : List String) : (c.lookUpModels known paths).Stepwise := by
  induction paths generalizing known with
  | nil => exact .pure known
  | cons path paths ih =>
    rw [lookUpModels]
    split
    · exact ih known
    · refine .bind ?_ fun v => ih _
      unfold lookUpModel
      refine .bind (.note _) fun _ => ?_
      split
      · exact .pure _
      · exact .throw _
      · exact .throw _

/-- The induction is that of `complete`: a name is tried once, and what was found is among
finitely many names. -/
theorem Library.exists_steps_complete (lib : Library) (c : Content) (site : String)
    (tried : List String) (wanted : NameSet) : ∃ t : Steps Library, ∀ m, t.run m =
      (.ok (lib.complete c site tried wanted m).1, (lib.complete c site tried wanted m).2) := by
  cases wanted with
  | nil => exact ⟨.done (.ok lib), fun m => by rw [complete]; rfl⟩
  | cons name rest =>
    by_cases known : lib.contains name = true
    · obtain ⟨t, ht⟩ := lib.exists_steps_complete c site tried rest
      refine ⟨t, fun m => ?_⟩
      rw [complete, if_pos known]
      exact ht m
    · by_cases done : tried.contains name = true
      · obtain ⟨t, ht⟩ := lib.exists_steps_complete c site tried rest
        refine ⟨t, fun m => ?_⟩
        rw [complete, if_neg known, dif_pos done]
        exact ht m
      · obtain ⟨look, hlook⟩ := c.stepwise_findMacro site name
        obtain ⟨skip, hskip⟩ := lib.exists_steps_complete c site (name :: tried) rest
        have found : ∀ d : c.Found name, _ := fun d =>
          have := untried_cons_lt d.known (by simpa using done)
          exists_steps_complete (lib ++ (Definition.ofNode? d.node).toList) c site (name :: tried)
            (NameSet.addAll d.node.callees rest)
        choose more hmore using found
        refine ⟨look.andThen (.resume more fun _ => skip), fun m => ?_⟩
        rw [Steps.run_andThen, ← hlook, complete, if_neg known, dif_neg done]
        rcases (c.findMacro site name).run m with ⟨_ | d, m⟩
        · exact hskip m
        · exact hmore d m
termination_by (untried c.macroNames tried, wanted.length)
decreasing_by
  · exact Prod.Lex.right _ (Nat.lt_succ_self _)
  · exact Prod.Lex.right _ (Nat.lt_succ_self _)
  · exact Prod.Lex.right' _ (untried_cons_le ..) (Nat.lt_succ_self _)
  · exact Prod.Lex.left _ _ ‹_›

theorem Library.stepwise_complementing (c : Content) (site : String) (n : Node) :
    (Library.complementing c site n).Stepwise := by
  obtain ⟨t, ht⟩ := (Library.ofTree n).exists_steps_complete c site [] (NameSet.ofNames n.callees)
  exact ⟨t, fun m => (ht m).symm⟩

theorem Pass.stepwise_run (scope : Option SiteContext) (n : Node) (p : Pass) :
    (p.run scope n).Stepwise := by
  cases p with
  | clone | decorate | empty | loop | self => exact .pure _
  | concat => exact .ofExcept _ _
  | inline external =>
    unfold Pass.run
    dsimp only
    split
    · exact .bind (Library.stepwise_complementing _ _ n) fun lib => .ofExcept _ _
    · exact .bind (.pure _) fun lib => .ofExcept _ _
  | staticModel =>
    unfold Pass.run
    dsimp only
    split
    · exact .bind (Content.stepwise_lookUpModels _ _ _) fun models => .ofExcept _ _
    · exact .bind (.pure _) fun models => .ofExcept _ _

namespace Compiler

variable (k : Compiler)

theorem stepwise_lower (scope : Option SiteContext) (n : Node) : (k.lower scope n).Stepwise := by
  unfold lower
  induction k.passes generalizing n with
  | nil => exact .pure n
  | cons p passes ih =>
    rw [List.foldlM_cons]
    exact .bind (p.stepwise_run scope n) ih

theorem stepwise_compile (source : String) : (k.compile source).Stepwise :=
  .bind (.parse source) fun ⟨n, _⟩ => .bind (k.stepwise_lower none n) fun _ => .ofExcept _ _

theorem stepwise_compileMacro (c : Content) (r : Request) : (k.compileMacro c r).Stepwise :=
  .bind (c.stepwise_findMacro r.site r.name) fun d =>
    .bind (k.stepwise_lower _ d.node) fun _ => .ofExcept _ _

theorem compileAll_fst (c : Content) (rs : List Request) (m : Memory) :
    (k.compileAll c rs m).1 = rs.map fun r => ((k.compileMacro c r).run .empty).1 := by
  induction rs generalizing m with
  | nil => rfl
  | cons r rs ih =>
    have cons : (k.compileAll c (r :: rs) m).1 =
        ((k.compileMacro c r).run m).1 ::
          (k.compileAll c rs ((k.compileMacro c r).run m).2).1 := by
      unfold compileAll
      rw [List.mapM_cons]
      rfl
    rw [cons, ih, (k.stepwise_compileMacro c r).run_fst, List.map_cons]

end Compiler

/-! ### Sessions -/

/-- What a compiler can be asked for. -/
inductive Operation where
  | parse (source : String)
  | findMacro (r : Request)
  | compile (source : String)
  | compileMacro (r : Request)
  | lower (tree : Node) (site : Option String)
  | compileAll (rs : List Request)

inductive Answer where
  | tree (result : Except CompileError Node)
  | text (result : Except CompileError String)
  | texts (results : List (Except CompileError String))

/-- Something that happens while a compiler is in use. -/
inductive SessionEvent where
  /-- Things are added to the content, or it is changed in another way. -/
  | change (update : Content → Content)
  | ask (o : Operation)

namespace Compiler

variable (k : Compiler)

def perform (c : Content) : Operation → StateM Memory Answer
  | .parse source => (fun r => .tree (r.map Subtype.val)) <$> (Run.parse source).run
  | .findMacro r => (fun d => .tree (d.map Content.Found.node)) <$> (c.findMacro r.site r.name).run
  | .compile source => .text <$> (k.compile source).run
  | .compileMacro r => .text <$> (k.compileMacro c r).run
  | .lower tree site => .tree <$> (k.lower (site.map (SiteContext.mk c)) tree).run
  | .compileAll rs => .texts <$> k.compileAll c rs

/-- The answers of one compiler, which remembers what it has read. -/
def answers : List SessionEvent → Content → Memory → List Answer
  | [], _, _ => []
  | .change update :: events, c, m => answers events (update c) m
  | .ask o :: events, c, m => (k.perform c o m).1 :: answers events c (k.perform c o m).2

/-- The answers when each operation is performed by a new compiler. -/
def freshAnswers : List SessionEvent → Content → List Answer
  | [], _ => []
  | .change update :: events, c => freshAnswers events (update c)
  | .ask o :: events, c => (k.perform c o .empty).1 :: freshAnswers events c

theorem perform_fst (c : Content) (o : Operation) (m : Memory) :
    (k.perform c o m).1 = (k.perform c o .empty).1 := by
  cases o with
  | parse source =>
    exact congrArg (fun r => Answer.tree (r.map Subtype.val))
      ((Run.Stepwise.parse source).run_fst m)
  | findMacro r =>
    exact congrArg (fun d => Answer.tree (d.map Content.Found.node))
      ((c.stepwise_findMacro r.site r.name).run_fst m)
  | compile source => exact congrArg Answer.text ((k.stepwise_compile source).run_fst m)
  | compileMacro r => exact congrArg Answer.text ((k.stepwise_compileMacro c r).run_fst m)
  | lower tree site => exact congrArg Answer.tree ((k.stepwise_lower _ tree).run_fst m)
  | compileAll rs =>
    have same : (k.compileAll c rs m).1 = (k.compileAll c rs .empty).1 := by
      rw [compileAll_fst, compileAll_fst]
    exact congrArg Answer.texts same

theorem answers_eq (events : List SessionEvent) (c : Content) (m : Memory) :
    k.answers events c m = k.freshAnswers events c := by
  induction events generalizing c m with
  | nil => rfl
  | cons e events ih =>
    cases e with
    | change update => exact ih (update c) m
    | ask o => rw [answers, freshAnswers, perform_fst, ih]

theorem interleave_compileMacro {c : Content} {rs : List Request} {ts : List (Steps String)}
    (h : List.Forall₂ (fun r t => (k.compileMacro c r).Makes t) rs ts) (schedule : List Nat)
    (m : Memory) : Steps.interleave schedule ts m =
      rs.map fun r => ((k.compileMacro c r).run .empty).1 := by
  rw [Steps.interleave_eq]
  induction h with
  | nil => rfl
  | cons made _ ih => rw [List.map_cons, List.map_cons, ih, made.result_eq]

/-- What becomes of a request for a macro, apart from what is remembered of the lookup. -/
theorem exists_compileMacro_fst (c : Content) (r : Request) (m : Memory) : ∃ after,
    ((k.compileMacro c r).run m).1 =
      match c.macroNode r.site r.name with
      | .ok d => ((k.lower (some ⟨c, r.site⟩) d >>= k.render).run after).1
      | .error e => .error e := by
  refine ⟨((c.findMacro r.site r.name).run m).2, ?_⟩
  have given := (c.findMacro_run r.site r.name m).1
  rw [compileMacro, Run.run_bind, ← given]
  rcases (c.findMacro r.site r.name).run m with ⟨e | d, after⟩ <;> rfl

/-- What a compiler remembers does not show. Over any session, in which the content may change, each
answer is that of a new compiler with the content as it is then. A batch has the result of each of
its requests run alone, and this is so too when the requests, each of which is a sequence of steps,
take turns in any way. -/
theorem memory_never_shows :
    (∀ events c m, k.answers events c m = k.freshAnswers events c) ∧
    (∀ c rs m, (k.compileAll c rs m).1 = rs.map fun r => ((k.compileMacro c r).run .empty).1) ∧
    (∀ c r, (k.compileMacro c r).Stepwise) ∧
    ∀ c rs ts, List.Forall₂ (fun r t => (k.compileMacro c r).Makes t) rs ts → ∀ schedule m,
      Steps.interleave schedule ts m = rs.map fun r => ((k.compileMacro c r).run .empty).1 :=
  ⟨k.answers_eq, k.compileAll_fst, k.stepwise_compileMacro,
    fun _ _ _ makes => k.interleave_compileMacro makes⟩

/-- A site with a single macro. -/
def singleMacro : Store where
  sites := ["site"]
  macros := [(("site", "card"), ⟨⟨"1", "page", "pages", "home"⟩, "card.html",
    "\x7b% macro card(a) %\x7d\x7b\x7b a \x7d\x7d\x7b% endmacro %\x7d"⟩)]
  properties := []
  viewModels := []

/-- The tree of the macro. -/
def card : Node :=
  .macroDef "card" (.parameters [.parameter (some "a") none]) [.output [.var ["a"]]] none

def bareTags : TagOptions := { TagOptions.standard with emitHeader := false }

theorem render_card : TagFile.render bareTags card = .ok "$\x7ba\x7d" := by
  rw [TagFile.render, card, TagFile.statement, TagFile.statements, TagFile.statement,
    TagFile.expression, TagFile.statements]
  · rfl
  · simp

/-- Requests for a macro that is there and for one that is not, which take turns. -/
theorem memory_never_shows_in_turns :
    let k : Compiler := ⟨[.empty, .loop], .tagFile bareTags⟩
    ∃ found missing : Steps String,
      (k.compileMacro singleMacro.content ⟨"site", "card"⟩).Makes found ∧
      (k.compileMacro singleMacro.content ⟨"site", "cart"⟩).Makes missing ∧
      Steps.interleave [1, 0, 0, 1] [found, missing] .empty =
        [.ok "$\x7ba\x7d", .error (.macroNotFound "site" "cart")] := by
  intro k
  obtain ⟨-, -, stepwise, turns⟩ := memory_never_shows k
  obtain ⟨found, hfound⟩ := stepwise singleMacro.content ⟨"site", "card"⟩
  obtain ⟨missing, hmissing⟩ := stepwise singleMacro.content ⟨"site", "cart"⟩
  refine ⟨found, missing, hfound, hmissing, ?_⟩
  rw [turns _ _ _ (.cons hfound (.cons hmissing .nil)) [1, 0, 0, 1] .empty]
  have present : singleMacro.content.macroNode "site" "card" = .ok card := by
    unfold Content.macroNode
    simp only [Template.parse_eq]
    cbv
  have absent : singleMacro.content.macroNode "site" "cart" =
      .error (.macroNotFound "site" "cart") := by cbv
  obtain ⟨after, first⟩ := k.exists_compileMacro_fst singleMacro.content ⟨"site", "card"⟩ .empty
  obtain ⟨_, second⟩ := k.exists_compileMacro_fst singleMacro.content ⟨"site", "cart"⟩ .empty
  have compiled : (k.lower (some ⟨singleMacro.content, "site"⟩) card >>= k.render).run after =
      (Run.ofExcept .render (TagFile.render bareTags card)).run after := rfl
  rw [present] at first
  rw [absent] at second
  dsimp only at first second
  rw [compiled, render_card] at first
  rw [List.map_cons, List.map_cons, first, second]
  rfl

end Compiler

end TagCompiler
