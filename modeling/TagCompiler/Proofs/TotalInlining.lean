import TagCompiler.Proofs.Recursion
import TagCompiler.Proofs.StatementCalls
/-!
# Inlining comes to an end

Inlining keeps a stack of the macros that are being expanded or gone through, and leaves a call
alone if its macro is on the stack. Written down like that, with one library for all calls, it is
a procedure that calls itself on trees that no argument of the call bounds: the substituted body of
a macro. This module says that it nevertheless comes to an end, whatever the library and the tree,
because every call either has fewer macros that are not on the stack or has a smaller tree. Its
result is that of `Node.inline`, where the library takes the part of the stack.
-/

namespace TagCompiler

/-- The macros of a library that are not on the stack. -/
def Library.outside (lib : Library) (stack : List String) : Library :=
  List.filter (fun d => !stack.contains d.name) lib

namespace Inlining

/-! ### Inlining with a stack -/

/-- What can be asked for while a tree is inlined. -/
inductive InliningTask where
  | node (stack : List String) (n : Node)
  | all (stack : List String) (ns : List Node)
  | body (stack : List String) (ns : List Node)
  /-- The list that a statement is replaced by, if it is. -/
  | expansion (stack : List String) (n : Node)

namespace InliningTask

@[reducible] def Answer : InliningTask → Type
  | .node .. => Node
  | .all .. | .body .. => List Node
  | .expansion .. => Option Node

def stack : InliningTask → List String
  | .node stack _ | .all stack _ | .body stack _ | .expansion stack _ => stack

/-- How large the tree is. -/
noncomputable def size : InliningTask → Nat
  | .node _ n | .expansion _ n => sizeOf n
  | .all _ ns | .body _ ns => sizeOf ns

end InliningTask

abbrev InliningWork := Code Surplus InliningTask InliningTask.Answer

namespace InliningWork

def ask (t : InliningTask) : InliningWork t.Answer := Code.ask t

def node (stack : List String) (n : Node) : InliningWork Node :=
  match n with
  | .parameter name (some v) => do return .parameter name (some (← ask (.node stack v)))
  | .parameters cs => do return .parameters (← ask (.all stack cs))
  | .array cs => do return .array (← ask (.all stack cs))
  | .call name p cs => do return .call name (← ask (.node stack p)) (← ask (.body stack cs))
  | .macroDef name p cs d => do
    return .macroDef name (← ask (.node (name :: stack) p)) (← ask (.body (name :: stack) cs)) d
  | .assign t v op => do return .assign (← ask (.node stack t)) (← ask (.node stack v)) op
  | .branch c ys ns => do
    return .branch (← ask (.node stack c)) (← ask (.body stack ys)) (← ask (.body stack ns))
  | .loop k x v cs => do return .loop k x (← ask (.node stack v)) (← ask (.body stack cs))
  | .condition cs => do return .condition (← ask (.all stack cs))
  | .expression cs => do return .expression (← ask (.all stack cs))
  | .group cs => do return .group (← ask (.all stack cs))
  | .filter name v p => do return .filter name (← ask (.node stack v)) (← ask (.node stack p))
  | .output cs => do return .output (← ask (.all stack cs))
  | .list cs => do return .list (← ask (.body stack cs))
  | n => return n

def all (stack : List String) (ns : List Node) : InliningWork (List Node) :=
  match ns with
  | [] => return []
  | n :: ns => do return (← ask (.node stack n)) :: (← ask (.all stack ns))

/-- An output that holds one element is looked at as that element. -/
def statementOf : Node → Node
  | .output [n] => n
  | n => n

def statement (stack : List String) (n : Node) : InliningWork Node := do
  match ← ask (.expansion stack (statementOf n)) with
  | some list => return list
  | none => ask (.node stack n)

def body (stack : List String) (ns : List Node) : InliningWork (List Node) :=
  match ns with
  | [] => return []
  | n :: ns => do return (← statement stack n) :: (← ask (.body stack ns))

/-- The value that a call gives to the parameter `p`. -/
def value (stack : List String) (d : Definition) (block : List Node) (arguments : Node)
    (place : Nat) (p : String) (default : Option Node) : InliningWork Node :=
  match value? arguments p place, default with
  | some ⟨v, _⟩, _ => ask (.node stack v)
  | none, some v => return substitute d block v
  | none, none => return .null

/-- The assignments that set the parameters of a macro. -/
def settings (stack : List String) (d : Definition) (block : List Node) (arguments : Node) :
    Nat → List Node → InliningWork (List Node)
  | _, [] => return []
  | place, .parameter (some p) default :: ps => do
    let v ← value stack d block arguments place p default
    let more ← settings stack d block arguments (place + 1) ps
    return .assign (.var [boundName d.name p]) v .set :: more
  | place, _ :: ps => settings stack d block arguments (place + 1) ps

def expansion (lib : Library) (stack : List String) (n : Node) : InliningWork (Option Node) :=
  match n with
  | .call name arguments block =>
    if stack.contains name then return none
    else
      match lib.find? name with
      | none => return none
      | some d =>
        let given := (positionals arguments).length
        if d.declared.length < given then .fail ⟨name, given, d.declared.length⟩
        else do
          let block ← ask (.body stack block)
          let settings ← settings stack d block arguments 0 d.declared
          let statements ← ask (.body (name :: stack) (d.body.map (substitute d block)))
          return some (.list (settings ++ statements))
  | _ => return none

end InliningWork

/-- How inlining answers what it is asked for, with the macros of a library. -/
def work (lib : Library) : (t : InliningTask) → InliningWork t.Answer
  | .node stack n => InliningWork.node stack n
  | .all stack ns => InliningWork.all stack ns
  | .body stack ns => InliningWork.body stack ns
  | .expansion stack n => InliningWork.expansion lib stack n

/-! ### What the library has that the stack does not -/

theorem outside_nil (lib : Library) : lib.outside [] = lib := List.filter_eq_self.mpr fun _ _ => rfl

theorem outside_cons (lib : Library) (name : String) (stack : List String) :
    lib.outside (name :: stack) = (lib.outside stack).without name := by
  unfold Library.outside Library.without
  rw [List.filter_filter]
  congr 1
  funext d
  simp [bne, Bool.beq_eq_decide_eq]

theorem find?_outside (lib : Library) (stack : List String) (name : String) :
    (lib.outside stack).find? name = if stack.contains name then none else lib.find? name := by
  unfold Library.outside Library.find?
  rw [List.find?_filter]
  split
  · rename_i on
    refine List.find?_eq_none.mpr fun d _ => ?_
    by_cases same : d.name = name <;> simp_all
  · rename_i off
    congr 1
    funext d
    by_cases same : d.name = name <;> simp_all

/-! ### The results of inlining -/

/-- The list that a statement is replaced by, if it is a call of a macro of the library. -/
def expanded (here : Library) : Node → Except Surplus (Option Node)
  | .call name arguments block =>
    match here.extract? name with
    | some e => some <$> expand here e arguments block
    | none => .ok none
  | _ => .ok none

/-- The result of each task, in which the library takes the part of the stack. -/
def result (lib : Library) : (t : InliningTask) → Except Surplus t.Answer
  | .node stack n => node (lib.outside stack) n
  | .all stack ns => all (lib.outside stack) ns
  | .body stack ns => body (lib.outside stack) ns
  | .expansion stack n => expanded (lib.outside stack) n

variable (lib : Library) (stack : List String)

theorem eval_node (n : Node) :
    (InliningWork.node stack n).eval (result lib) = node (lib.outside stack) n := by
  cases n with
  | macroDef name p cs d =>
    rw [node, ← outside_cons]
    rfl
  | parameter name value => cases value <;> (rw [node.eq_def]; rfl)
  | _ => rw [node.eq_def]; rfl

theorem eval_all (ns : List Node) :
    (InliningWork.all stack ns).eval (result lib) = all (lib.outside stack) ns := by
  cases ns <;> (rw [all]; rfl)

theorem expanded_of_not_isCall {n : Node} (h : Meaning.isCall n = false) (here : Library) :
    expanded here (InliningWork.statementOf n) = .ok none := by
  unfold InliningWork.statementOf
  split
  · rename_i m
    cases m with
    | call => cases h
    | _ => rfl
  · cases n with
    | call => cases h
    | _ => rfl

theorem eval_statement (n : Node) :
    (InliningWork.statement stack n).eval (result lib) = statement (lib.outside stack) n := by
  have step : (InliningWork.statement stack n).eval (result lib) =
      expanded (lib.outside stack) (InliningWork.statementOf n) >>= fun found =>
        found.elim (node (lib.outside stack) n) .ok := by
    refine bind_congr fun found => ?_
    cases found with
    | none => exact Code.eval_ask (InliningTask.node stack n)
    | some list => rfl
  rw [step]
  by_cases call : Meaning.isCall n = true
  · obtain ⟨name, arguments, block, same⟩ : ∃ name arguments block,
        n = .call name arguments block ∨ n = .output [.call name arguments block] := by
      unfold Meaning.isCall at call
      split at call
      · exact ⟨_, _, _, .inl rfl⟩
      · exact ⟨_, _, _, .inr rfl⟩
      · cases call
    have opened : InliningWork.statementOf n = .call name arguments block := by
      rcases same with rfl | rfl <;> rfl
    cases found : (lib.outside stack).extract? name with
    | none =>
      have kept : statement (lib.outside stack) n = node (lib.outside stack) n := by
        rcases same with rfl | rfl <;> rw [statement, found]
      rw [opened, kept, expanded, found]
      rfl
    | some e =>
      have gone :
          statement (lib.outside stack) n = expand (lib.outside stack) e arguments block := by
        rcases same with rfl | rfl <;> rw [statement, found]
      rw [opened, gone, expanded, found]
      dsimp only
      cases expand (lib.outside stack) e arguments block <;> rfl
  · rw [Bool.not_eq_true] at call
    rw [expanded_of_not_isCall call, Meaning.statement_eq_node call]
    rfl

theorem eval_body (ns : List Node) :
    (InliningWork.body stack ns).eval (result lib) = body (lib.outside stack) ns := by
  cases ns with
  | nil =>
    rw [body]
    rfl
  | cons n ns =>
    rw [body, InliningWork.body, Code.eval_bind, eval_statement]
    rfl

theorem eval_settings (d : Definition) (block : List Node) (arguments : Node) (place : Nat)
    (ps : List Node) : (InliningWork.settings stack d block arguments place ps).eval (result lib) =
      bindings (lib.outside stack) d block arguments place ps := by
  induction ps generalizing place with
  | nil =>
    rw [bindings]
    rfl
  | cons q ps ih =>
    rw [bindings.eq_def]
    cases q with
    | parameter name default =>
      cases name with
      | none => exact ih (place + 1)
      | some p =>
        have rest : ∀ v : Node, Code.eval (result lib) (do
            let more ← InliningWork.settings stack d block arguments (place + 1) ps
            return .assign (.var [boundName d.name p]) v .set :: more) = (do
            let more ← bindings (lib.outside stack) d block arguments (place + 1) ps
            return .assign (.var [boundName d.name p]) v .set :: more) := by
          intro v
          rw [Code.eval_bind, ih]
          rfl
        rw [InliningWork.settings, Code.eval_bind]
        unfold InliningWork.value
        dsimp only
        rcases value? arguments p place with _ | ⟨v, smaller⟩
        · cases default with
          | none => exact rest .null
          | some v => exact rest (substitute d block v)
        · show (Code.ask (InliningTask.node stack v)).eval (result lib) >>= _ =
            node (lib.outside stack) v >>= _
          rw [Code.eval_ask]
          exact bind_congr rest
    | _ => exact ih (place + 1)

theorem eval_expansion (n : Node) :
    (InliningWork.expansion lib stack n).eval (result lib) = expanded (lib.outside stack) n := by
  cases n with
  | call name arguments block =>
    rw [expanded]
    unfold InliningWork.expansion
    dsimp only
    cases found : (lib.outside stack).find? name with
    | none =>
      rw [extract?_of_absent found]
      rw [find?_outside] at found
      split at found
      · rw [if_pos ‹_›]
        rfl
      · rw [if_neg ‹_›, found]
        rfl
    | some d =>
      rw [Meaning.extract?_of_find? found]
      have called : d.name = name := by simpa using List.find?_some found
      rw [find?_outside] at found
      split at found
      · cases found
      · rw [if_neg ‹_›, found]
        dsimp only
        rw [expand]
        dsimp only
        by_cases surplus : d.declared.length < (positionals arguments).length
        · rw [if_pos surplus, if_pos surplus, called]
          rfl
        · rw [if_neg surplus, if_neg surplus, map_bind]
          refine bind_congr fun content => ?_
          rw [map_bind, ← eval_settings]
          show (InliningWork.settings stack d content arguments 0 d.declared >>= _).eval _ = _
          rw [Code.eval_bind]
          refine bind_congr fun settings => ?_
          rw [← outside_cons, map_bind]
          rfl
  | _ => rfl

theorem eval_work (t : InliningTask) : (work lib t).eval (result lib) = result lib t := by
  cases t with
  | node stack n => exact eval_node lib stack n
  | all stack ns => exact eval_all lib stack ns
  | body stack ns => exact eval_body lib stack ns
  | expansion stack n => exact eval_expansion lib stack n

/-! ### Descent -/

/-- Fewer macros are left to expand, or no more than before and the tree is smaller. -/
def Below (lib : Library) (s t : InliningTask) : Prop :=
  (lib.outside s.stack).length < (lib.outside t.stack).length ∨
    (lib.outside s.stack).length ≤ (lib.outside t.stack).length ∧ s.size < t.size

theorem wellFounded_below : WellFounded (Below lib) := by
  let measure (t : InliningTask) : Nat × Nat := ((lib.outside t.stack).length, t.size)
  have lex : WellFounded (InvImage (Prod.Lex (· < ·) (· < ·)) measure) :=
    InvImage.wf measure (WellFounded.prod_lex Nat.lt_wfRel.wf Nat.lt_wfRel.wf)
  refine Subrelation.wf ?_ lex
  rintro s t (fewer | ⟨noMore, smaller⟩)
  · exact .left _ _ fewer
  · rcases Nat.lt_or_eq_of_le noMore with fewer | same
    · exact .left _ _ fewer
    · exact Prod.lex_def.mpr (.inr ⟨same, smaller⟩)

variable {lib stack}

theorem below_of_size {s t : InliningTask} (same : s.stack = t.stack) (smaller : s.size < t.size) :
    Below lib s t := by
  refine .inr ⟨?_, smaller⟩
  rw [same]

/-- Going through a definition, which takes its macro out of the library. -/
theorem below_of_definition {s t : InliningTask} {name : String}
    (pushed : s.stack = name :: t.stack) (smaller : s.size < t.size) : Below lib s t := by
  refine .inr ⟨?_, smaller⟩
  rw [pushed, outside_cons]
  exact Library.length_without_le _ _

/-- Expanding a macro that is not on the stack. -/
theorem below_of_expansion {s t : InliningTask} {name : String} {d : Definition}
    (pushed : s.stack = name :: t.stack) (found : (lib.outside t.stack).find? name = some d) :
    Below lib s t := by
  left
  rw [pushed, outside_cons]
  exact Library.length_without_lt found

/-- The code asks only for what is below `t`. Nothing needs to be known of the answers. -/
abbrev AsksBelow {α : Type} (lib : Library) (t : InliningTask) (w : InliningWork α) : Prop :=
  w.Proceeds (fun _ _ => True) (fun s => Below lib s t) fun _ => True

theorem node_asksBelow (n : Node) : AsksBelow lib (.node stack n) (InliningWork.node stack n) := by
  have part : ∀ m, sizeOf m < sizeOf n → Below lib (.node stack m) (.node stack n) :=
    fun m h => below_of_size rfl h
  have list : ∀ ns, sizeOf ns < sizeOf n → Below lib (.all stack ns) (.node stack n) :=
    fun m h => below_of_size rfl h
  have inner : ∀ ns, sizeOf ns < sizeOf n → Below lib (.body stack ns) (.node stack n) :=
    fun m h => below_of_size rfl h
  cases n with
  | parameter name value =>
    cases value with
    | none => trivial
    | some v => exact ⟨part v (by simp +arith), fun _ _ => trivial⟩
  | parameters cs | array cs | condition cs | expression cs | group cs | output cs =>
    exact ⟨list cs (by simp +arith), fun _ _ => trivial⟩
  | list cs => exact ⟨inner cs (by simp +arith), fun _ _ => trivial⟩
  | call name p cs =>
    refine ⟨part p (by simp +arith), fun _ _ => ?_⟩
    exact ⟨inner cs (by simp +arith), fun _ _ => trivial⟩
  | macroDef name p cs d =>
    refine ⟨below_of_definition rfl (by simp +arith [InliningTask.size]), fun _ _ => ?_⟩
    exact ⟨below_of_definition rfl (by simp +arith [InliningTask.size]), fun _ _ => trivial⟩
  | assign t v op =>
    refine ⟨part t (by simp +arith), fun _ _ => ?_⟩
    exact ⟨part v (by simp +arith), fun _ _ => trivial⟩
  | branch c ys ns =>
    refine ⟨part c (by simp +arith), fun _ _ => ⟨inner ys (by simp +arith), fun _ _ => ?_⟩⟩
    exact ⟨inner ns (by simp +arith), fun _ _ => trivial⟩
  | loop k x v cs =>
    refine ⟨part v (by simp +arith), fun _ _ => ?_⟩
    exact ⟨inner cs (by simp +arith), fun _ _ => trivial⟩
  | filter name v p =>
    refine ⟨part v (by simp +arith), fun _ _ => ?_⟩
    exact ⟨part p (by simp +arith), fun _ _ => trivial⟩
  | _ => trivial

theorem all_asksBelow (ns : List Node) :
    AsksBelow lib (.all stack ns) (InliningWork.all stack ns) := by
  cases ns with
  | nil => trivial
  | cons n ns =>
    refine ⟨below_of_size rfl (by simp +arith [InliningTask.size]), fun _ _ => ?_⟩
    exact ⟨below_of_size rfl (by simp +arith [InliningTask.size]), fun _ _ => trivial⟩

theorem sizeOf_statementOf_le (n : Node) : sizeOf (InliningWork.statementOf n) ≤ sizeOf n := by
  unfold InliningWork.statementOf
  split
  · simp +arith
  · exact Nat.le_refl _

theorem body_asksBelow (ns : List Node) :
    AsksBelow lib (.body stack ns) (InliningWork.body stack ns) := by
  cases ns with
  | nil => trivial
  | cons n ns =>
    have front : ∀ m : Node, sizeOf m ≤ sizeOf n → sizeOf m < sizeOf (n :: ns) := by
      intro m h
      rw [List.cons.sizeOf_spec]
      omega
    refine Code.Proceeds.bind ⟨below_of_size rfl (front _ (sizeOf_statementOf_le n)), ?_⟩
    have rest : Below lib (.body stack ns) (.body stack (n :: ns)) :=
      below_of_size rfl (by simp +arith [InliningTask.size])
    rintro (_ | list) -
    · refine ⟨below_of_size rfl (front n (Nat.le_refl _)), fun _ _ => ?_⟩
      exact ⟨rest, fun _ _ => trivial⟩
    · exact ⟨rest, fun _ _ => trivial⟩

/-- Setting parameters asks for values that are parts of the arguments. -/
theorem settings_descend (d : Definition) (block : List Node) (arguments : Node) {t : InliningTask}
    (here : t.stack = stack) (larger : sizeOf arguments < t.size) (place : Nat) (ps : List Node) :
    AsksBelow lib t (InliningWork.settings stack d block arguments place ps) := by
  induction ps generalizing place with
  | nil => trivial
  | cons q ps ih =>
    cases q with
    | parameter name default =>
      cases name with
      | none => exact ih (place + 1)
      | some p =>
        have more : ∀ v : Node, AsksBelow lib t (do
            let more ← InliningWork.settings stack d block arguments (place + 1) ps
            return .assign (.var [boundName d.name p]) v .set :: more) :=
          fun v => ((ih (place + 1)).mono fun _ _ => trivial).bind
        rw [InliningWork.settings]
        unfold InliningWork.value
        rcases value? arguments p place with _ | ⟨v, smaller⟩
        · cases default with
          | none => exact more .null
          | some v => exact more (substitute d block v)
        · exact ⟨below_of_size here.symm (Nat.lt_trans smaller larger), fun v _ => more v⟩
    | _ => exact ih (place + 1)

theorem expansion_asksBelow (n : Node) :
    AsksBelow lib (.expansion stack n) (InliningWork.expansion lib stack n) := by
  cases n with
  | call name arguments block =>
    unfold InliningWork.expansion
    dsimp only
    by_cases on : stack.contains name = true
    · rw [if_pos on]
      trivial
    · rw [if_neg on]
      cases found : lib.find? name with
      | none => trivial
      | some d =>
        have free : (lib.outside stack).find? name = some d := by
          rw [find?_outside, if_neg on, found]
        dsimp only
        split
        · trivial
        · refine ⟨below_of_size rfl (by simp +arith [InliningTask.size]), fun content _ => ?_⟩
          have set : AsksBelow lib (.expansion stack (.call name arguments block))
              (InliningWork.settings stack d content arguments 0 d.declared) :=
            settings_descend d content arguments rfl (by simp +arith [InliningTask.size]) 0
              d.declared
          exact (set.mono fun _ _ => ⟨below_of_expansion rfl free, fun _ _ => trivial⟩).bind
  | _ => trivial

theorem work_asksBelow (t : InliningTask) : AsksBelow lib t (work lib t) := by
  cases t with
  | node stack n => exact node_asksBelow n
  | all stack ns => exact all_asksBelow ns
  | body stack ns => exact body_asksBelow ns
  | expansion stack n => exact expansion_asksBelow n

/-- Whatever the library, inlining with a stack comes to an end on every tree and every body, and
on every statement that it tries to expand: each call that it makes of itself is below the one that
makes it, there is no infinite chain of such calls, and there is exactly one result. On the empty
stack it is that of `Node.inline`. -/
theorem inlining_ends (lib : Library) :
    (∀ s t, (work lib t).Asks (work lib) s → Below lib s t) ∧
    WellFounded (fun s t => (work lib t).Asks (work lib) s) ∧
    (∀ t, ∃! r, (work lib t).Ends (work lib) r) ∧
    (∀ stack n r, (work lib (.node stack n)).Ends (work lib) r ↔ r = node (lib.outside stack) n) ∧
    (∀ stack ns r,
      (work lib (.body stack ns)).Ends (work lib) r ↔ r = body (lib.outside stack) ns) ∧
    ∀ n r, (work lib (.node [] n)).Ends (work lib) r ↔ r = n.inline lib := by
  have ends := Code.ends_iff (wellFounded_below lib) work_asksBelow (eval_work lib)
  refine ⟨fun s t => ?_, ?_, fun t => ?_, fun stack n => ends (.node stack n),
    fun stack ns => ends (.body stack ns), fun n r => ?_⟩
  · exact Code.lower_of_asks (wellFounded_below lib) work_asksBelow
  · exact Code.wellFounded_asks (wellFounded_below lib) work_asksBelow
  · exact ⟨result lib t, (ends t _).mpr rfl, fun r => (ends t r).mp⟩
  · rw [ends, result, outside_nil]
    rfl

/-- A macro that calls itself around its own block. -/
theorem self_calling_macro_ends :
    Below [⟨"m", .parameters [], [.call "m" (.parameters []) [.yield]]⟩]
      (.body ["m"] [.call "m" (.parameters []) [.list [.text "x"]]])
      (.expansion [] (.call "m" (.parameters []) [.text "x"])) ∧
    (work [⟨"m", .parameters [], [.call "m" (.parameters []) [.yield]]⟩]
      (.node [] (.list [.call "m" (.parameters []) [.text "x"]]))).Ends
        (work [⟨"m", .parameters [], [.call "m" (.parameters []) [.yield]]⟩])
        (.ok (.list [.list [.call "m" (.parameters []) [.list [.text "x"]]]])) := by
  obtain ⟨below, -, -, -, bodies, trees⟩ :=
    inlining_ends [⟨"m", .parameters [], [.call "m" (.parameters []) [.yield]]⟩]
  constructor
  · have block := (bodies [] [.text "x"] (.ok [.text "x"])).mpr (by cbv)
    exact below _ _ (.later block (.now _ _))
  · exact (trees _ _).mpr (by cbv)

end Inlining
end TagCompiler
