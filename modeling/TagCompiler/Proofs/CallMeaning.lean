import Mathlib.Logic.Relation
import TagCompiler.Lowering.Inlining
import TagCompiler.Proofs.Subtrees
/-!
# What a template with macro calls prints

Two meanings of trees made of text, outputs, assignments, macros and their calls. In the first,
`Runs`, every run of a macro has a scope of its own, and a block runs in the scope where it was
written. In the second, `exec`, there is one scope for all; it knows no calls. Values are strings,
null and variables; branchings, loops and expressions have no meaning here.

A run also leaves a log behind, from which one can tell who read and who wrote a variable.
-/

namespace TagCompiler.Meaning

/-! ### Values and scopes -/

/-- A string, or null. -/
abbrev Datum := Option String

/-- The variables that are set. -/
abbrev Scope := String → Option Datum

def Scope.set (scope : Scope) (x : String) (v : Datum) : Scope :=
  fun y => if y = x then some v else scope y

/-- Null prints nothing. -/
def shown (v : Datum) : String := v.getD ""

/-- An unset variable is null. -/
def valueOf (scope : Scope) : Node → Datum
  | .literal (.string s) .string => some s
  | .var [x] => (scope x).join
  | _ => none

/-- The nodes that `valueOf` knows. -/
inductive IsAtom : Node → Prop
  | string (s : String) : IsAtom (.string s)
  | var (x : String) : IsAtom (.var [x])
  | null : IsAtom .null

/-! ### One scope for all -/

mutual

/-- The scope after a statement, and what the statement prints. -/
def exec : Node → Scope → Scope × String
  | .text s, scope => (scope, s)
  | .output [e], scope => (scope, shown (valueOf scope e))
  | .assign (.var [x]) e .set, scope => (scope.set x (valueOf scope e), "")
  | .list ns, scope => execAll ns scope
  | _, scope => (scope, "")

def execAll : List Node → Scope → Scope × String
  | [], scope => (scope, "")
  | n :: ns, scope =>
    let first := exec n scope
    let rest := execAll ns first.1
    (rest.1, first.2 ++ rest.2)

end

theorem execAll_append (ms ns : List Node) (scope : Scope) :
    execAll (ms ++ ns) scope = ((execAll ns (execAll ms scope).1).1,
      (execAll ms scope).2 ++ (execAll ns (execAll ms scope).1).2) := by
  induction ms generalizing scope with
  | nil => simp [execAll]
  | cons m ms ih => simp [execAll, ih, String.append_assoc]

/-! ### A scope for each run -/

/-- What happened, with the macro to which the reading or writing code belongs and the number of
the run. -/
inductive Event where
  | printed (s : String)
  | read (owner : Definition) (run : Nat) (x : String)
  | wrote (owner : Definition) (run : Nat) (x : String)

/-- The log has the latest event first. -/
structure State where
  page : Scope
  runs : String → Nat → Scope
  count : Nat
  log : List Event

/-- Where code is written: on the page, or in a macro, which then runs with a number and a block
that was written somewhere else. -/
inductive Site where
  | page
  | run (owner : Definition) (number : Nat) (block : List Node) (outer : Site)

namespace State

def start (page : Scope) : State := ⟨page, fun _ _ _ => none, 0, []⟩

def look (st : State) : Site → Scope
  | .page => st.page
  | .run d k _ _ => fun x => (st.runs d.name k x).or (st.page x)

def note (st : State) (e : Event) : State := { st with log := e :: st.log }

def print (st : State) (s : String) : State := st.note (.printed s)

/-- Notes that code at a site reads what `e` stands for. -/
def reading (st : State) (site : Site) (e : Node) : State :=
  match site, e with
  | .run d k _ _, .var [x] => st.note (.read d k x)
  | _, _ => st

def write (st : State) (site : Site) (x : String) (v : Datum) : State :=
  match site with
  | .page => { st with page := st.page.set x v }
  | .run d k _ _ => State.note { st with
      runs := fun m j => if m = d.name ∧ j = k then (st.runs m j).set x v else st.runs m j }
      (.wrote d k x)

/-- Gives `x` at the site `target` the value of `e` at the site `source`. -/
def assign (st : State) (target : Site) (x : String) (source : Site) (e : Node) : State :=
  (st.reading source e).write target x (valueOf (st.look source) e)

/-- A new run, with nothing in its scope. -/
def enter (st : State) (d : Definition) : State :=
  { st with
    runs := fun m j => if m = d.name ∧ j = st.count then fun _ => none else st.runs m j
    count := st.count + 1 }

end State

def valueOfParameter? : Node → Option Node
  | .parameter _ v => v
  | _ => none

/-- What is passed for the parameter `x` at the given place: the argument of that name, or else the
positional one at that place. -/
def argument? (args : List Node) (x : String) (place : Nat) : Option Node :=
  ((args.find? (Node.isNamed x)).or (args.filter Inlining.isPositional)[place]?).bind
    valueOfParameter?

/-- Sets the parameters of a run one after the other. Arguments are taken from the scope of the
caller, defaults from that of the run. -/
def State.bind (callee caller : Site) (args : List Node) : Nat → List Node → State → State
  | _, [], st => st
  | place, .parameter (some x) default :: ps, st =>
    State.bind callee caller args (place + 1) ps
      (match argument? args x place with
      | some e => st.assign callee x caller e
      | none => st.assign callee x callee (default.getD .null))
  | place, _ :: ps, st => State.bind callee caller args (place + 1) ps st

/-- Running statements at a site leads from one state to another. -/
inductive Runs (lib : Library) : Site → List Node → State → State → Prop
  | nil {site : Site} {st : State} : Runs lib site [] st st
  | text {site : Site} {s : String} {ns : List Node} {st st' : State} :
      Runs lib site ns (st.print s) st' → Runs lib site (.text s :: ns) st st'
  | output {site : Site} {e : Node} {ns : List Node} {st st' : State} : IsAtom e →
      Runs lib site ns ((st.reading site e).print (shown (valueOf (st.look site) e))) st' →
      Runs lib site (.output [e] :: ns) st st'
  | assign {site : Site} {x : String} {e : Node} {ns : List Node} {st st' : State} :
      Runs lib site ns (st.assign site x site e) st' →
      Runs lib site (.assign (.var [x]) e .set :: ns) st st'
  | macroDef {site : Site} {m : String} {p : Node} {body : List Node} {doc : Option String}
      {ns : List Node} {st st' : State} : Runs lib site ns st st' →
      Runs lib site (.macroDef m p body doc :: ns) st st'
  | call {site : Site} {m : String} {d : Definition} {args block ns : List Node}
      {st st₁ st' : State} : lib.find? m = some d →
      Runs lib (.run d st.count block site) d.body
        (State.bind (.run d st.count block site) site args 0 d.declared (st.enter d)) st₁ →
      Runs lib site ns st₁ st' → Runs lib site (.call m (.parameters args) block :: ns) st st'
  | outputCall {site : Site} {m : String} {d : Definition} {args ns : List Node}
      {st st₁ st' : State} : lib.find? m = some d →
      Runs lib (.run d st.count [] site) d.body
        (State.bind (.run d st.count [] site) site args 0 d.declared (st.enter d)) st₁ →
      Runs lib site ns st₁ st' →
      Runs lib site (.output [.call m (.parameters args) []] :: ns) st st'
  | noBlock {ns : List Node} {st st' : State} : Runs lib .page ns st st' →
      Runs lib .page (.yield :: ns) st st'
  | yield {d : Definition} {k : Nat} {block : List Node} {outer : Site} {ns : List Node}
      {st st₁ st' : State} : Runs lib outer block st st₁ →
      Runs lib (.run d k block outer) ns st₁ st' →
      Runs lib (.run d k block outer) (.yield :: ns) st st'

namespace Runs

variable {lib : Library} {site : Site} {st st₁ st₂ : State}

theorem append {ms ns : List Node} (h : Runs lib site ms st st₁) (next : Runs lib site ns st₁ st₂) :
    Runs lib site (ms ++ ns) st st₂ := by
  induction h with
  | nil => exact next
  | text _ ih => exact .text (ih next)
  | output he _ ih => exact .output he (ih next)
  | assign _ ih => exact .assign (ih next)
  | macroDef _ ih => exact .macroDef (ih next)
  | call found body _ _ ih => exact .call found body (ih next)
  | outputCall found body _ _ ih => exact .outputCall found body (ih next)
  | noBlock _ ih => exact .noBlock (ih next)
  | yield block _ _ ih => exact .yield block (ih next)

/-- From one state, statements lead to one state only. -/
theorem unique {ns : List Node} (h : Runs lib site ns st st₁) (other : Runs lib site ns st st₂) :
    st₁ = st₂ := by
  induction h generalizing st₂ with
  | nil =>
    cases other
    rfl
  | text _ ih =>
    cases other with
    | text rest => exact ih rest
  | output he _ ih =>
    cases other with
    | output _ rest => exact ih rest
    | outputCall => cases he
  | assign _ ih =>
    cases other with
    | assign rest => exact ih rest
  | macroDef _ ih =>
    cases other with
    | macroDef rest => exact ih rest
  | call found _ _ ihBody ih =>
    cases other with
    | call found' body rest =>
      obtain rfl := Option.some.inj (found.symm.trans found')
      obtain rfl := ihBody body
      exact ih rest
  | outputCall found _ _ ihBody ih =>
    cases other with
    | output he => cases he
    | outputCall found' body rest =>
      obtain rfl := Option.some.inj (found.symm.trans found')
      obtain rfl := ihBody body
      exact ih rest
  | noBlock _ ih =>
    cases other with
    | noBlock rest => exact ih rest
  | yield _ _ ihBlock ih =>
    cases other with
    | yield block rest =>
      obtain rfl := ihBlock block
      exact ih rest

end Runs

/-! ### The log -/

/-- All that was printed. -/
def printedText : List Event → String
  | [] => ""
  | .printed s :: earlier => printedText earlier ++ s
  | _ :: earlier => printedText earlier

/-- The number of the run of the macro `m` that wrote its variable `x` last. -/
def lastWriter (m x : String) : List Event → Option Nat
  | [] => none
  | .wrote d k y :: earlier => if d.name = m ∧ y = x then some k else lastWriter m x earlier
  | _ :: earlier => lastWriter m x earlier

/-- Whenever code of a macro reads one of the macro's own names, the run that reads it is the one
that wrote it last. -/
def Undisturbed : List Event → Prop
  | [] => True
  | .read d k x :: earlier =>
    (x ∈ Inlining.locals d → lastWriter d.name x earlier = some k) ∧ Undisturbed earlier
  | _ :: earlier => Undisturbed earlier

instance decidableUndisturbed : (log : List Event) → Decidable (Undisturbed log)
  | [] => .isTrue trivial
  | .printed _ :: earlier => decidableUndisturbed earlier
  | .wrote _ _ _ :: earlier => decidableUndisturbed earlier
  | .read d k x :: earlier =>
    have := decidableUndisturbed earlier
    inferInstanceAs (Decidable
      ((x ∈ Inlining.locals d → lastWriter d.name x earlier = some k) ∧ Undisturbed earlier))

theorem Undisturbed.tail {e : Event} {earlier : List Event} (h : Undisturbed (e :: earlier)) :
    Undisturbed earlier := by
  cases e with
  | printed s => exact h
  | read d k x => exact h.2
  | wrote d k x => exact h

theorem Undisturbed.of_suffix {earlier log : List Event} (suffix : earlier <:+ log)
    (h : Undisturbed log) : Undisturbed earlier := by
  obtain ⟨later, rfl⟩ := suffix
  induction later with
  | nil => exact h
  | cons e later ih => exact ih h.tail

/-- One state comes after another in a run. -/
structure State.Before (st st' : State) : Prop where
  count : st.count ≤ st'.count
  log : st.log <:+ st'.log

namespace State.Before

variable {st st₁ st₂ : State}

theorem refl (st : State) : st.Before st := ⟨Nat.le_refl _, List.suffix_rfl⟩

theorem trans (h : st.Before st₁) (next : st₁.Before st₂) : st.Before st₂ :=
  ⟨Nat.le_trans h.count next.count, h.log.trans next.log⟩

theorem note (st : State) (e : Event) : st.Before (st.note e) :=
  ⟨Nat.le_refl _, List.suffix_cons e st.log⟩

theorem reading (st : State) (site : Site) (e : Node) : st.Before (st.reading site e) := by
  unfold State.reading
  split
  · exact note st _
  · exact refl st

theorem write (st : State) (site : Site) (x : String) (v : Datum) :
    st.Before (st.write site x v) := by
  cases site with
  | page => exact ⟨Nat.le_refl _, List.suffix_rfl⟩
  | run d k block outer => exact ⟨Nat.le_refl _, List.suffix_cons _ _⟩

theorem assign (st : State) (target : Site) (x : String) (source : Site) (e : Node) :
    st.Before (st.assign target x source e) :=
  (reading st source e).trans (write _ target x _)

theorem enter (st : State) (d : Definition) : st.Before (st.enter d) :=
  ⟨Nat.le_succ _, List.suffix_rfl⟩

theorem bind (callee caller : Site) (args : List Node) (place : Nat) (ps : List Node) (st : State) :
    st.Before (State.bind callee caller args place ps st) := by
  fun_induction State.bind callee caller args place ps st with
  | case1 => exact refl _
  | case2 place x default ps st ih =>
    refine trans ?_ ih
    split
    · exact assign _ _ _ _ _
    · exact assign _ _ _ _ _
  | case3 place p ps st _ ih => exact ih

end State.Before

theorem Runs.before {lib : Library} {site : Site} {ns : List Node} {st st' : State}
    (h : Runs lib site ns st st') : st.Before st' := by
  induction h with
  | nil => exact .refl _
  | text _ ih => exact (State.Before.note _ _).trans ih
  | output _ _ ih => exact ((State.Before.reading _ _ _).trans (.note _ _)).trans ih
  | assign _ ih => exact (State.Before.assign _ _ _ _ _).trans ih
  | macroDef _ ih => exact ih
  | call _ _ _ ihBody ih =>
    exact (((State.Before.enter _ _).trans (.bind _ _ _ _ _ _)).trans ihBody).trans ih
  | outputCall _ _ _ ihBody ih =>
    exact (((State.Before.enter _ _).trans (.bind _ _ _ _ _ _)).trans ihBody).trans ih
  | noBlock _ ih => exact ih
  | yield _ _ ihBlock ih => exact ihBlock.trans ih

/-! ### Templates made of calls -/

/-- A name without an underscore, and without a dot, which would become one. -/
def IsPlain (x : String) : Prop := '_' ∉ x.toList ∧ '.' ∉ x.toList

inductive IsValue : Node → Prop
  | string (s : String) : IsValue (.string s)
  | var {x : String} : IsPlain x → IsValue (.var [x])
  | null : IsValue .null

inductive IsPassed : Node → Prop
  | positional {e : Node} : IsValue e → IsPassed (.positional e)
  | named {x : String} {e : Node} : IsValue e → IsPassed (.named x e)

inductive IsDeclared : Node → Prop
  | bare {x : String} : IsPlain x → IsDeclared (.parameter (some x) none)
  | defaulted {x : String} {e : Node} : IsPlain x → IsValue e → IsDeclared (.named x e)

/-- Statements that call only macros of the library, with no more arguments than there are
parameters. -/
inductive IsCode (lib : Library) : Node → Prop
  | text (s : String) : IsCode lib (.text s)
  | output {e : Node} : IsValue e → IsCode lib (.output [e])
  | assign {x : String} {e : Node} : IsPlain x → IsValue e → IsCode lib (.assign (.var [x]) e .set)
  | macroDef {m : String} {params body : List Node} {doc : Option String} : IsPlain m →
      (∀ p ∈ params, IsDeclared p) → (∀ n ∈ body, IsCode lib n) →
      IsCode lib (.macroDef m (.parameters params) body doc)
  | call {m : String} {d : Definition} {args block : List Node} : lib.find? m = some d →
      (∀ a ∈ args, IsPassed a) → args.length ≤ d.declared.length → (∀ n ∈ block, IsCode lib n) →
      IsCode lib (.call m (.parameters args) block)
  | outputCall {m : String} {d : Definition} {args : List Node} : lib.find? m = some d →
      (∀ a ∈ args, IsPassed a) → args.length ≤ d.declared.length →
      IsCode lib (.output [.call m (.parameters args) []])
  | yield : IsCode lib .yield

def callee? : Node → Option String
  | .call m _ _ => some m
  | _ => none

/-- The names that a tree calls. -/
def callees (n : Node) : List String := n.preorder.filterMap callee?

/-- Somewhere in a definition of `m` is a call of `c`. -/
def Calls (lib : Library) (m c : String) : Prop :=
  ∃ d ∈ lib, d.name = m ∧ ∃ n ∈ d.body, c ∈ callees n

/-- Calls that only go down lead nowhere back. -/
theorem acyclic_of_rank {lib : Library} (rank : String → Nat)
    (h : ∀ d ∈ lib, ∀ n ∈ d.body, ∀ c ∈ callees n, rank c < rank d.name) (m : String) :
    ¬ Relation.TransGen (Calls lib) m m := by
  have down : ∀ {a b}, Relation.TransGen (Calls lib) a b → rank b < rank a := by
    intro a b path
    induction path with
    | single calls =>
      obtain ⟨d, hd, rfl, n, hn, hc⟩ := calls
      exact h d hd n hn _ hc
    | tail _ calls ih =>
      obtain ⟨d, hd, rfl, n, hn, hc⟩ := calls
      exact Nat.lt_trans (h d hd n hn _ hc) ih
  exact fun cycle => Nat.lt_irrefl _ (down cycle)

/-- The statements of the tree of a template. -/
def statements? : Node → Option (List Node)
  | .list ns => some ns
  | .macroDef m p body doc => some [.macroDef m p body doc]
  | _ => none

/-- The tree of a template that is made of calls, with its statements. No macro calls itself, not
even through others. -/
structure IsCallTemplate (t : Node) (ns : List Node) : Prop where
  root : statements? t = some ns
  code : ∀ n ∈ ns, IsCode (.ofTree t) n
  acyclic : ∀ m, ¬ Relation.TransGen (Calls (.ofTree t)) m m

/-- A macro that is itself made of calls. -/
structure IsDefined (lib : Library) (d : Definition) : Prop where
  plain : IsPlain d.name
  declared : ∀ p ∈ d.declared, IsDeclared p
  code : ∀ n ∈ d.body, IsCode lib n

theorem IsValue.preorder {e : Node} (h : IsValue e) : e.preorder = [e] := by
  cases h <;> rfl

theorem IsValue.isAtom {e : Node} (h : IsValue e) : IsAtom e := by
  cases h with
  | string s => exact .string s
  | var => exact .var _
  | null => exact .null

theorem IsValue.ofNode? {e k : Node} (h : IsValue e) (hk : k ∈ e.preorder) :
    Definition.ofNode? k = none := by
  rw [h.preorder, List.mem_singleton] at hk
  subst hk
  cases h <;> rfl

/-- In a parameter list of values no macro is defined. -/
theorem ofNode?_of_mem_parameters {ps : List Node} {k : Node}
    (h : ∀ p ∈ ps, IsPassed p ∨ IsDeclared p) (hk : k ∈ (Node.parameters ps).preorder) :
    Definition.ofNode? k = none := by
  have single : ∀ {name : Option String} {e : Node}, IsValue e →
      k ∈ (Node.parameter name (some e)).preorder → Definition.ofNode? k = none := by
    intro name e he hk
    rcases List.mem_cons.mp hk with rfl | hk
    · rfl
    · exact he.ofNode? hk
  rcases Node.mem_preorder.mp hk with rfl | ⟨p, hp, hk⟩
  · rfl
  · rcases h p hp with passed | declared
    · cases passed with
      | positional he => exact single he hk
      | named he => exact single he hk
    · cases declared with
      | bare =>
        rw [List.mem_singleton.mp hk]
        rfl
      | defaulted _ he => exact single he hk

theorem IsCode.isDefined {lib : Library} {n k : Node} {d : Definition} (h : IsCode lib n)
    (hk : k ∈ n.preorder) (hd : Definition.ofNode? k = some d) : IsDefined lib d := by
  have absent : ∀ {j}, Definition.ofNode? j = none → k = j → False := by
    rintro j none rfl
    rw [none] at hd
    cases hd
  induction h with
  | text => exact (absent rfl (List.mem_singleton.mp hk)).elim
  | output he =>
    rcases Node.mem_preorder.mp hk with root | ⟨e, below, hk⟩
    · exact (absent rfl root).elim
    · rw [List.mem_singleton.mp below] at hk
      exact (absent (he.ofNode? hk) rfl).elim
  | assign _ he =>
    rcases Node.mem_preorder.mp hk with root | ⟨e, below, hk⟩
    · exact (absent rfl root).elim
    · rcases List.mem_cons.mp below with rfl | below
      · exact (absent rfl (List.mem_singleton.mp hk)).elim
      · rw [List.mem_singleton.mp below] at hk
        exact (absent (he.ofNode? hk) rfl).elim
  | macroDef plain hp hb ih =>
    rcases Node.mem_preorder.mp hk with rfl | ⟨e, below, hk⟩
    · cases hd
      exact ⟨plain, hp, hb⟩
    · rcases List.mem_cons.mp below with rfl | below
      · exact (absent (ofNode?_of_mem_parameters (fun p h => .inr (hp p h)) hk) rfl).elim
      · exact ih e below hk
  | call _ ha _ _ ih =>
    rcases Node.mem_preorder.mp hk with root | ⟨e, below, hk⟩
    · exact (absent rfl root).elim
    · rcases List.mem_cons.mp below with rfl | below
      · exact (absent (ofNode?_of_mem_parameters (fun a h => .inl (ha a h)) hk) rfl).elim
      · exact ih e below hk
  | outputCall _ ha _ =>
    rcases Node.mem_preorder.mp hk with root | ⟨e, below, hk⟩
    · exact (absent rfl root).elim
    · rw [List.mem_singleton.mp below] at hk
      rcases Node.mem_preorder.mp hk with root | ⟨e, below, hk⟩
      · exact (absent rfl root).elim
      · rw [List.mem_singleton.mp below] at hk
        exact (absent (ofNode?_of_mem_parameters (fun a h => .inl (ha a h)) hk) rfl).elim
  | yield => exact (absent rfl (List.mem_singleton.mp hk)).elim

end TagCompiler.Meaning
