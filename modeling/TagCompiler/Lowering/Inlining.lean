import TagCompiler.Lowering.BoundName
import TagCompiler.Lowering.Rename
/-!
Macro calls replaced by the bodies of the macros.

A call that stands as a statement, or as all of an output, becomes a list: first each parameter is
set, then follows the body of the macro, with its local names made unique and the block of the call
in place of its yields.

Macros are taken from a library of those that may still be expanded. While one is being expanded,
or its definition gone through, it is not in the library any more; a call that would run in circles
thus stays a call. Either the library gets shorter or the tree smaller, so inlining ends.
-/

namespace TagCompiler

/-- A macro that can be expanded. -/
structure Definition where
  name : String
  parameters : Node
  body : List Node

/-- The macros that may be expanded. Of several with one name the first counts. -/
abbrev Library := List Definition

namespace Definition

def ofNode? : Node → Option Definition
  | .macroDef name parameters body _ => some ⟨name, parameters, body⟩
  | _ => none

/-- The parameters that the macro declares. -/
def declared (d : Definition) : List Node := d.parameters.parameterList

end Definition

namespace Library

/-- All macros defined in a tree. -/
def ofTree (n : Node) : Library := n.preorder.filterMap Definition.ofNode?

def find? (lib : Library) (name : String) : Option Definition := List.find? (·.name == name) lib

def contains (lib : Library) (name : String) : Bool := (lib.find? name).isSome

/-- The library without the macros called `name`. -/
def without (lib : Library) (name : String) : Library := List.filter (·.name != name) lib

theorem length_without_le (lib : Library) (name : String) :
    (lib.without name).length ≤ lib.length := List.length_filter_le _ _

/-- A macro of a library and the library that is left without it. -/
structure Extracted (lib : Library) where
  definition : Definition
  rest : Library
  shorter : rest.length < lib.length

theorem length_without_lt {lib : Library} {name : String} {d : Definition}
    (h : lib.find? name = some d) : (lib.without name).length < lib.length := by
  refine List.length_filter_lt_length_iff_exists.mpr ⟨d, List.mem_of_find?_eq_some h, ?_⟩
  simpa [bne] using List.find?_some h

def extract? (lib : Library) (name : String) : Option (Extracted lib) :=
  match h : lib.find? name with
  | some d => some ⟨d, lib.without name, length_without_lt h⟩
  | none => none

end Library

namespace Inlining

/-- A call passes more positional arguments than the macro has parameters. -/
structure Surplus where
  callee : String
  given : Nat
  declared : Nat
  deriving DecidableEq

def Surplus.reason (e : Surplus) : String :=
  toString e.given ++ " positional arguments given, '" ++ e.callee ++ "' declares " ++
    toString e.declared

/-! ### Local names -/

/-- The names that a node binds: the target of an assignment, or the names of a loop. -/
def boundBy : Node → List String
  | .assign target _ _ => target.rootName?.toList
  | .loop key item _ _ => key.toList ++ [item]
  | _ => []

def parameterName? : Node → Option String
  | .parameter name _ => name
  | _ => none

/-- The local names of a macro: its parameters, and what its body assigns or loops over. -/
def locals (d : Definition) : List String :=
  d.declared.filterMap parameterName? ++ (Node.preorderAll d.body).flatMap boundBy

/-- Gives each local name of a macro its own variable. -/
def freshNames (d : Definition) : Renaming :=
  fun n => if (locals d).contains n then some (boundName d.name n) else none

/-- Renames variables and the names bound by loops, and runs `block` in place of each yield. -/
def substitution (r : Renaming) (block : List Node) : Rebuilder Id :=
  { Rebuilder.keep with
    node := fun n rebuilt =>
      match n, rebuilt with
      | .var p, _ => .var (r.path p)
      | .yield, _ => .list block
      | _, .loop k x v cs => .loop (k.map r.apply) (r.apply x) v cs
      | _, rebuilt => rebuilt }

/-- Code of the macro `d` as it stands in an expansion with the given block. -/
def substitute (d : Definition) (block : List Node) (n : Node) : Node :=
  Id.run ((substitution (freshNames d) block).run n)

/-! ### Arguments -/

def isPositional : Node → Bool
  | .parameter none _ => true
  | _ => false

/-- The positional arguments of a call. -/
def positionals (arguments : Node) : List Node := arguments.parameterList.filter isPositional

theorem sizeOf_lt_of_mem_parameterList {p : Node} :
    ∀ {n : Node}, p ∈ n.parameterList → sizeOf p < sizeOf n
  | .parameters cs, h => by
    have := List.sizeOf_lt_of_mem h
    simp only [Node.parameterList] at *
    simp only [Node.parameters.sizeOf_spec]
    omega
  | .call _ q _, h => by
    have := sizeOf_lt_of_mem_parameterList (n := q) h
    simp only [Node.call.sizeOf_spec]
    omega
  | .macroDef _ q _ _, h => by
    have := sizeOf_lt_of_mem_parameterList (n := q) h
    simp only [Node.macroDef.sizeOf_spec]
    omega
  | .filter _ _ q, h => by
    have := sizeOf_lt_of_mem_parameterList (n := q) h
    simp only [Node.filter.sizeOf_spec]
    omega

theorem mem_parameterList_of_parameterNamed? {name : String} {p : Node} :
    ∀ {n : Node}, n.parameterNamed? name = some p → p ∈ n.parameterList
  | .parameters _, h => List.mem_of_find?_eq_some h
  | .call _ q _, h => mem_parameterList_of_parameterNamed? (n := q) h
  | .macroDef _ q _ _, h => mem_parameterList_of_parameterNamed? (n := q) h

/-- What a call passes for a parameter: the argument of that name, or the positional one at its
place. -/
def passed? (arguments : Node) (parameter : String) (place : Nat) : Option Node :=
  (arguments.parameterNamed? parameter).or (positionals arguments)[place]?

theorem mem_parameterList_of_passed? {arguments p : Node} {parameter : String} {place : Nat}
    (h : passed? arguments parameter place = some p) : p ∈ arguments.parameterList := by
  unfold passed? at h
  rw [Option.or_eq_some_iff] at h
  rcases h with h | ⟨_, h⟩
  · exact mem_parameterList_of_parameterNamed? h
  · exact (List.mem_filter.mp (List.mem_of_getElem? h)).1

/-- The value that a call passes for a parameter, which is a part of the arguments. -/
def value? (arguments : Node) (parameter : String) (place : Nat) :
    Option { v : Node // sizeOf v < sizeOf arguments } :=
  match h : passed? arguments parameter place with
  | some (.parameter _ (some v)) => some ⟨v, by
      have := sizeOf_lt_of_mem_parameterList (mem_parameterList_of_passed? h)
      simp only [Node.parameter.sizeOf_spec, Option.some.sizeOf_spec] at this
      omega⟩
  | _ => none

/-! ### Expansion -/

mutual

def node (lib : Library) (n : Node) : Except Surplus Node :=
  match n with
  | .parameter name (some v) => do return .parameter name (some (← node lib v))
  | .parameters cs => do return .parameters (← all lib cs)
  | .array cs => do return .array (← all lib cs)
  | .call name p cs => do return .call name (← node lib p) (← body lib cs)
  | .macroDef name p cs d => do
    have := lib.length_without_le name
    let lib := lib.without name
    return .macroDef name (← node lib p) (← body lib cs) d
  | .assign t v op => do return .assign (← node lib t) (← node lib v) op
  | .branch c ys ns => do return .branch (← node lib c) (← body lib ys) (← body lib ns)
  | .loop k x v cs => do return .loop k x (← node lib v) (← body lib cs)
  | .condition cs => do return .condition (← all lib cs)
  | .expression cs => do return .expression (← all lib cs)
  | .group cs => do return .group (← all lib cs)
  | .filter name v p => do return .filter name (← node lib v) (← node lib p)
  | .output cs => do return .output (← all lib cs)
  | .list cs => do return .list (← body lib cs)
  | n => .ok n
termination_by (lib.length, sizeOf n, 0)
decreasing_by all_goals grind

def all (lib : Library) (ns : List Node) : Except Surplus (List Node) :=
  match ns with
  | [] => .ok []
  | n :: ns => do return (← node lib n) :: (← all lib ns)
termination_by (lib.length, sizeOf ns, 0)

def body (lib : Library) (ns : List Node) : Except Surplus (List Node) :=
  match ns with
  | [] => .ok []
  | n :: ns => do return (← statement lib n) :: (← body lib ns)
termination_by (lib.length, sizeOf ns, 0)

/-- A statement, which is expanded if it is nothing but the call of a macro of the library. -/
def statement (lib : Library) (n : Node) : Except Surplus Node :=
  match n with
  | .call name arguments block =>
    match lib.extract? name with
    | some e => expand lib e arguments block
    | none => node lib (.call name arguments block)
  | .output [.call name arguments block] =>
    match lib.extract? name with
    | some e => expand lib e arguments block
    | none => node lib (.output [.call name arguments block])
  | n => node lib n
termination_by (lib.length, sizeOf n, 1)
decreasing_by all_goals grind

/-- The list that a call of the macro `e` becomes. -/
def expand (lib : Library) (e : lib.Extracted) (arguments : Node) (block : List Node) :
    Except Surplus Node := do
  let d := e.definition
  let given := (positionals arguments).length
  if d.declared.length < given then throw ⟨d.name, given, d.declared.length⟩
  let block ← body lib block
  let settings ← bindings lib d block arguments 0 d.declared
  have := e.shorter
  let statements ← body e.rest (d.body.map (substitute d block))
  return .list (settings ++ statements)
termination_by (lib.length, sizeOf arguments + sizeOf block + 1, 0)
decreasing_by all_goals grind

/-- The assignments that set the parameters `ps` of the macro `d`, of which the first stands at
`place` among all. A parameter that is not passed has its default, or else null. -/
def bindings (lib : Library) (d : Definition) (block : List Node) (arguments : Node) (place : Nat)
    (ps : List Node) : Except Surplus (List Node) :=
  match ps with
  | [] => .ok []
  | .parameter (some p) default :: ps => do
    let value ←
      match value? arguments p place, default with
      | some ⟨v, _⟩, _ => node lib v
      | none, some v => pure (substitute d block v)
      | none, none => pure .null
    let set : Node := .assign (.var [boundName d.name p]) value .set
    return set :: (← bindings lib d block arguments (place + 1) ps)
  | _ :: ps => bindings lib d block arguments (place + 1) ps
termination_by (lib.length, sizeOf arguments, ps.length)

end

end Inlining

/-- Inlines the macros of a library. -/
def Node.inline (lib : Library) (n : Node) : Except Inlining.Surplus Node := Inlining.node lib n

end TagCompiler
