import TagCompiler.Proofs.StatementCalls
import TagCompiler.Proofs.StringBuildingMeaning
/-!
# Runs of a template

A run starts statements one after the other. What it starts next is left open as far as it depends
on values: a run is any sequence of decisions to go on in the body at hand or to enter another one.
Only the loads of view models are fixed, since nothing comes between a load and the statement after
it.
-/

namespace TagCompiler

open Grammar Node

/-! ### Parts outside of bodies -/

namespace Node

/-- The node `k` is a part of `n`, but not in one of its bodies. -/
inductive Within (k : Node) : Node → Prop
  | self : Within k k
  | outside {m n : Node} : m ∈ n.outside → Within k m → Within k n

theorem subtrees_eq (n : Node) : n.subtrees = n.outside ++ (bodies n).flatten := by
  rw [subtrees_eq_append, elements_eq]

theorem Within.mem_preorder {k n : Node} (h : Within k n) : k ∈ n.preorder := by
  induction h with
  | self => exact mem_preorder_self k
  | outside hm _ ih => exact preorder_subset (mem_subtrees_of_mem_outside hm) ih

end Node

/-! ### Runs -/

namespace Execution

/-- How a run goes on: with the next statement, or with a body that the statement at hand runs. -/
inductive Decision where
  | next
  | enter (body : Nat)

/-- A call of `loadModel` only binds a variable, so it runs no body. -/
def isLoad : Node → Bool
  | .call name _ [] => name == "loadModel"
  | _ => false

/-- The statements of a body up to the first one that is not a load, and the others. -/
def advance : List Node → List Node × List Node
  | [] => ([], [])
  | s :: rest => if isLoad s then (s :: (advance rest).1, (advance rest).2) else ([s], rest)

/-- One decision, with the statements that are started by it. The bodies at hand have the innermost
one first, each with the statements that are left of it. At the end of a body the run goes back
to the one around it. -/
def step (bodies : List (List Node)) :
    List (List Node) → Decision → List Node × List (List Node)
  | [], .next => ([], [])
  | [] :: outer, .next => ([], outer)
  | (s :: rest) :: outer, .next => ((advance (s :: rest)).1, (advance (s :: rest)).2 :: outer)
  | stack, .enter i => ([], (bodies[i]?).toList ++ stack)

/-- The statements that are started, in this order. -/
def run (bodies : List (List Node)) : List (List Node) → List Decision → List Node
  | _, [] => []
  | stack, d :: decisions =>
    (step bodies stack d).1 ++ run bodies (step bodies stack d).2 decisions

/-- The bodies in a statement that have something to run. -/
def runnable (n : Node) : List (List Node) := (Effects.allBodies n).filter (!·.isEmpty)

/-- The statements that a template starts. Nothing is assumed about which bodies a statement runs
and how often: they may be its own, those of a macro that it calls or blocks that it was given. -/
def trace (n : Node) (decisions : List Decision) : List Node :=
  run (n.topLevel.flatMap runnable) [n.topLevel] decisions

theorem advance_append (body : List Node) : (advance body).1 ++ (advance body).2 = body := by
  induction body with
  | nil => rfl
  | cons s rest ih =>
    rw [advance]
    split
    · rw [List.cons_append, ih]
    · rfl

/-- All statements at hand satisfy `P`. -/
def All (P : Node → Prop) (stack : List (List Node)) : Prop := ∀ body ∈ stack, ∀ s ∈ body, P s

theorem step_all {P : Node → Prop} {bodies stack : List (List Node)} (hb : All P bodies)
    (hs : All P stack) (d : Decision) :
    (∀ s ∈ (step bodies stack d).1, P s) ∧ All P (step bodies stack d).2 := by
  fun_cases step bodies stack d with
  | case1 => exact ⟨by simp, hs⟩
  | case2 outer => exact ⟨by simp, (List.forall_mem_cons.mp hs).2⟩
  | case3 s rest outer =>
    obtain ⟨first, others⟩ := List.forall_mem_cons.mp hs
    rw [← advance_append (s :: rest)] at first
    obtain ⟨started, left⟩ := List.forall_mem_append.mp first
    exact ⟨started, List.forall_mem_cons.mpr ⟨left, others⟩⟩
  | case4 stack i =>
    refine ⟨by simp, List.forall_mem_append.mpr ⟨fun body entered => ?_, hs⟩⟩
    exact hb body (List.mem_of_getElem? (Option.mem_toList.mp entered))

theorem run_all {P : Node → Prop} {bodies stack : List (List Node)} (hb : All P bodies)
    (hs : All P stack) (decisions : List Decision) : ∀ s ∈ run bodies stack decisions, P s := by
  induction decisions generalizing stack with
  | nil => simp [run]
  | cons d decisions ih =>
    obtain ⟨started, left⟩ := step_all hb hs d
    exact List.forall_mem_append.mpr ⟨started, ih left⟩

theorem mem_preorder_of_mem_topLevel {n s : Node} (h : s ∈ n.topLevel) : s ∈ n.preorder := by
  unfold topLevel at h
  split at h
  · exact preorder_subset h (mem_preorder_self s)
  · obtain rfl := List.mem_singleton.mp h
    exact mem_preorder_self s

theorem mem_preorder_of_mem_runnable {n s : Node} {body : List Node} (h : body ∈ runnable n)
    (hs : s ∈ body) : s ∈ n.preorder := by
  obtain ⟨k, hk, hbody⟩ := List.mem_flatMap.mp (List.mem_filter.mp h).1
  have below := mem_subtrees_of_mem_bodies (List.mem_flatten.mpr ⟨body, hbody, hs⟩)
  exact preorder_trans hk (preorder_subset below (mem_preorder_self s))

/-- What is started is in the tree. -/
theorem mem_preorder_of_mem_trace {n s : Node} {decisions : List Decision}
    (h : s ∈ trace n decisions) : s ∈ n.preorder := by
  refine run_all (P := (· ∈ n.preorder)) ?_ ?_ decisions s h
  · intro body hbody s hs
    obtain ⟨k, hk, hbody⟩ := List.mem_flatMap.mp hbody
    exact preorder_trans (mem_preorder_of_mem_topLevel hk) (mem_preorder_of_mem_runnable hbody hs)
  · exact List.forall_mem_singleton.mpr fun s hs => mem_preorder_of_mem_topLevel hs

end Execution

end TagCompiler
