import TagCompiler.Proofs.WellBuiltPasses
/-!
# No pass meets a tree of a wrong shape

Each pass makes a well-built tree from a well-built tree. So in any sequence of passes over a
template none asks a constructor for something that it refuses. What can fail is inlining, when a
call has more arguments than the macro has parameters, and the lookup of a view model.
-/

namespace TagCompiler

open Node

/-! ### Passes -/

/-- How the lookup of a view model fails. -/
def modelFault : LookupError → CompileError
  | .unknownViewModel path => .viewModelNotFound path
  | e => .content e

theorem Content.lookUpModel_run (c : Content) (path : String) (m : Memory) :
    (c.lookUpModel path).run m =
      ((c.viewModel path).mapError modelFault,
        { m with lookups := m.lookups ++ [Lookup.viewModel path] }) := by
  unfold lookUpModel
  rw [Run.run_bind, Run.run_note, Run.andThen]
  split
  · rename_i v found
    rw [found]
    rfl
  · rename_i unknown missing
    rw [missing]
    rfl
  · rename_i e other failed
    rw [failed]
    cases e with
    | unknownViewModel unknown => exact absurd rfl (other unknown)
    | _ => rfl

/-- If view models cannot be looked up, then one of the paths leads to the failure. -/
theorem Content.exists_of_lookUpModels {c : Content} {known : ModelLoading.Models}
    {paths : List String} {m after : Memory} {e : CompileError}
    (h : (c.lookUpModels known paths).run m = (.error e, after)) :
    ∃ path ∈ paths, ∃ fault, c.viewModel path = .error fault ∧ e = modelFault fault := by
  induction paths generalizing known m with
  | nil => cases h
  | cons path paths ih =>
    rw [lookUpModels] at h
    split at h
    · obtain ⟨p, hp, failed⟩ := ih h
      exact ⟨p, List.mem_cons_of_mem _ hp, failed⟩
    · rw [Run.run_bind, lookUpModel_run] at h
      cases result : c.viewModel path with
      | error fault =>
        rw [result] at h
        cases h
        exact ⟨path, List.mem_cons_self, fault, result, rfl⟩
      | ok v =>
        rw [result] at h
        obtain ⟨p, hp, failed⟩ := ih h
        exact ⟨p, List.mem_cons_of_mem _ hp, failed⟩

/-- The ways in which a pass over a tree can fail. -/
inductive Pass.Failure (scope : Option SiteContext) (n : Node) : Pass → CompileError → Prop
  | surplus {external : Bool} (e : Inlining.Surplus) :
      Failure scope n (.inline external) (.surplus e)
  | viewModel {s : SiteContext} {path : String} {fault : LookupError} : scope = some s →
      path ∈ ModelLoading.paths n → s.content.viewModel path = .error fault →
      Failure scope n .staticModel (modelFault fault)

/-- A run gives a well-built tree or fails in one of the given ways. -/
def Run.Safe (x : Run Node) (allowed : CompileError → Prop) : Prop :=
  ∀ m, (∃ n, (x.run m).1 = .ok n ∧ n.WellBuilt) ∨ ∃ e, (x.run m).1 = .error e ∧ allowed e

theorem Run.Safe.ofExcept {ε : Type} {wrap : ε → CompileError} {x : Except ε Node}
    {allowed : CompileError → Prop}
    (h : (∃ n, x = .ok n ∧ n.WellBuilt) ∨ ∃ e, x = .error e ∧ allowed (wrap e)) :
    (Run.ofExcept wrap x).Safe allowed := by
  intro m
  rw [Run.run_ofExcept]
  rcases h with ⟨n, rfl, built⟩ | ⟨e, rfl, fails⟩
  · exact .inl ⟨n, rfl, built⟩
  · exact .inr ⟨wrap e, rfl, fails⟩

theorem Run.Safe.of_ok {x : Run Node} {allowed : CompileError → Prop} {m after : Memory} {n : Node}
    (h : x.Safe allowed) (run : x.run m = (.ok n, after)) : n.WellBuilt := by
  rcases h m with ⟨n', ok, built⟩ | ⟨e, error, -⟩
  · rw [run] at ok
    cases ok
    exact built
  · rw [run] at error
    cases error

theorem Run.Safe.of_error {x : Run Node} {allowed : CompileError → Prop} {m after : Memory}
    {e : CompileError} (h : x.Safe allowed) (run : x.run m = (.error e, after)) : allowed e := by
  rcases h m with ⟨n, ok, -⟩ | ⟨e', error, fails⟩
  · rw [run] at ok
    cases ok
  · rw [run] at error
    cases error
    exact fails

/-- Any pass over a well-built tree. -/
theorem Pass.safe_run {n : Node} (h : n.WellBuilt) (scope : Option SiteContext) (p : Pass) :
    (p.run scope n).Safe (p.Failure scope n) := by
  have pure : ∀ {m : Node}, m.WellBuilt → (Pure.pure m : Run Node).Safe (p.Failure scope n) :=
    fun built _ => .inl ⟨_, rfl, built⟩
  cases p with
  | clone => exact pure h.rebuild
  | decorate lead trail exclude => exact pure (h.renameNames _)
  | empty => exact pure h.useEmptiness
  | loop => exact pure h.useStatusObject
  | self source target => exact pure (h.renameRoots _)
  | concat => exact .ofExcept (.inl h.splitStringBuilding)
  | inline external =>
    have inlined : ∀ {lib : Library}, lib.WellBuilt →
        (Run.ofExcept .surplus (n.inline lib)).Safe (Failure scope n (.inline external)) := by
      intro lib known
      refine .ofExcept ?_
      cases result : n.inline lib with
      | ok m => exact .inl ⟨m, rfl, (Inlining.fits_of_node known h result).wellBuilt⟩
      | error e => exact .inr ⟨e, rfl, .surplus e⟩
    unfold Pass.run
    dsimp only
    split
    · rename_i s
      intro m
      rw [Run.run_bind]
      exact inlined ((Library.wellBuilt_ofTree h).complete s.content s.site _ _ m) _
    · intro m
      rw [Run.run_bind]
      exact inlined (Library.wellBuilt_ofTree h) m
  | staticModel =>
    unfold Pass.run
    dsimp only
    split
    · rename_i s
      intro m
      rw [Run.run_bind]
      rcases looked : (s.content.lookUpModels [] (ModelLoading.paths n)).run m with
        ⟨e | models, after⟩
      · obtain ⟨path, hpath, fault, failed, rfl⟩ := Content.exists_of_lookUpModels looked
        exact .inr ⟨_, rfl, .viewModel rfl hpath failed⟩
      · exact Run.Safe.ofExcept (.inl (h.loadModels models)) after
    · intro m
      rw [Run.run_bind]
      exact Run.Safe.ofExcept (.inl (h.loadModels [])) m

/-! ### Sequences of passes -/

namespace Compiler

/-- How lowering a tree can end: with a well-built tree, or where a pass over a well-built tree
fails in one of its own ways. -/
inductive EndsSafely (k : Compiler) (scope : Option SiteContext) (n : Node) (memory : Memory) : Prop
  | built {out : Node} {after : Memory} : (k.lower scope n).run memory = (.ok out, after) →
      out.WellBuilt → EndsSafely k scope n memory
  | failed (before later : List Pass) {p : Pass} {tree : Node} {e : CompileError}
      {between after : Memory} : k.passes = before ++ p :: later →
      (lower ⟨before, k.renderer⟩ scope n).run memory = (.ok tree, between) → tree.WellBuilt →
      p.Failure scope tree e → (k.lower scope n).run memory = (.error e, after) →
      EndsSafely k scope n memory

theorem lower_cons (p : Pass) (passes : List Pass) (r : Renderer) (scope : Option SiteContext)
    (n : Node) (memory : Memory) : (lower ⟨p :: passes, r⟩ scope n).run memory =
      Run.andThen (fun n => lower ⟨passes, r⟩ scope n) ((p.run scope n).run memory) := by
  rw [← Run.run_bind]
  rfl

theorem endsSafely {n : Node} (h : n.WellBuilt) (passes : List Pass) (r : Renderer)
    (scope : Option SiteContext) (memory : Memory) : EndsSafely ⟨passes, r⟩ scope n memory := by
  induction passes generalizing n memory with
  | nil => exact .built rfl h
  | cons p passes ih =>
    have safe := p.safe_run h scope
    have step := lower_cons p passes r scope n memory
    rcases first : (p.run scope n).run memory with ⟨e | tree, after⟩
    · rw [first] at step
      exact .failed [] passes rfl rfl h (safe.of_error first) step
    · rw [first] at step
      cases ih (safe.of_ok first) after with
      | built run built => exact .built (step.trans run) built
      | failed before later parts earlier built fails run =>
        have reached := lower_cons p before r scope n memory
        rw [first] at reached
        have parts : p :: passes = (p :: before) ++ _ :: later := congrArg (p :: ·) parts
        exact .failed (p :: before) later parts (reached.trans earlier) built fails (step.trans run)

/-- No sequence of passes over a template, or over a part of one, meets a tree of a wrong shape,
with any content. -/
theorem endsSafely_of_parse {source : String} {t n : Node} (h : Template.parse source = .ok t)
    (part : n ∈ t.preorder) (k : Compiler) (scope : Option SiteContext) (memory : Memory) :
    EndsSafely k scope n memory :=
  endsSafely ((Grammar.wellBuilt_of_parse h).part part) k.passes k.renderer scope memory

/-- Passes in an odd order, with names that are empty, over a macro that runs its block in an
expression. -/
theorem endsSafely_in_odd_order :
    Template.parse "\x7b% macro m(a) %\x7d\x7b% set x = x ~ caller() %\x7d\x7b% endmacro %\x7d!" =
      .ok (.list [.macroDef "m" (.parameters [.parameter (some "a") none])
        [.assign (.var ["x"]) (.expression [.var ["x"], .operator "~", .yield]) .set] none,
        .text "!"]) ∧
    EndsSafely ⟨[.concat, .inline false, .empty, .concat, .decorate "" "" [], .self "x" "",
      .staticModel, .inline true], .null⟩ none
      (.macroDef "m" (.parameters [.parameter (some "a") none])
        [.assign (.var ["x"]) (.expression [.var ["x"], .operator "~", .yield]) .set] none)
      .empty := by
  have tree : Template.parse
      "\x7b% macro m(a) %\x7d\x7b% set x = x ~ caller() %\x7d\x7b% endmacro %\x7d!" =
      .ok (.list [.macroDef "m" (.parameters [.parameter (some "a") none])
        [.assign (.var ["x"]) (.expression [.var ["x"], .operator "~", .yield]) .set] none,
        .text "!"]) := by
    rw [Template.parse_eq]
    cbv
  refine ⟨tree, endsSafely_of_parse tree ?_ _ _ _⟩
  exact preorder_subset List.mem_cons_self (mem_preorder_self _)

end Compiler
end TagCompiler
