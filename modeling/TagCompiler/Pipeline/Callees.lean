import TagCompiler.Pipeline.SiteMacro
import TagCompiler.Text.NameSet
/-!
The macros that a tree needs for its expansion.

A library starts with the macros of the tree itself. Completing it looks up the macros that are
called, then those that they call, and so on. Each name is tried once, and only finitely many names
can be found, so this ends.
-/

namespace TagCompiler

/-- The names of the macros that a tree calls. The call that loads a model is not one of them. -/
def Node.callees (n : Node) : List String :=
  n.preorder.filterMap fun
    | .call name _ _ => if name = "loadModel" then none else some name
    | _ => none

/-- How many of the `names` have not been tried. -/
def untried (names tried : List String) : Nat := names.countP (!tried.contains ·)

theorem untried_cons_le (names tried : List String) (n : String) :
    untried names (n :: tried) ≤ untried names tried :=
  List.countP_mono_left fun x _ h => by simp_all

theorem untried_cons_lt {names tried : List String} {n : String} (hn : n ∈ names)
    (ht : tried.contains n = false) : untried names (n :: tried) < untried names tried := by
  unfold untried
  induction names with
  | nil => simp at hn
  | cons m names ih =>
    have le := untried_cons_le names tried n
    unfold untried at le
    grind

/-- Adds the macros of a site that are called: the least of the `wanted` names is looked up unless
it is in the library or was tried before, and what it calls is wanted too. One that cannot be had
is left out. -/
def Library.complete (lib : Library) (c : Content) (site : String) (tried : List String)
    (wanted : NameSet) (m : Memory) : Library × Memory :=
  match wanted with
  | [] => (lib, m)
  | name :: wanted =>
    if lib.contains name then lib.complete c site tried wanted m
    else if ht : tried.contains name then lib.complete c site tried wanted m
    else
      match (c.findMacro site name).run m with
      | (.error _, m) => lib.complete c site (name :: tried) wanted m
      | (.ok d, m) =>
        have := untried_cons_lt d.known (by simpa using ht)
        Library.complete (lib ++ (Definition.ofNode? d.node).toList) c site (name :: tried)
          (NameSet.addAll d.node.callees wanted) m
termination_by (untried c.macroNames tried, wanted.length)
decreasing_by
  · exact Prod.Lex.right _ (Nat.lt_succ_self _)
  · exact Prod.Lex.right _ (Nat.lt_succ_self _)
  · exact Prod.Lex.right' _ (untried_cons_le ..) (Nat.lt_succ_self _)
  · exact Prod.Lex.left _ _ ‹_›

/-- The library for a tree, with the macros it calls. -/
def Library.complementing (c : Content) (site : String) (n : Node) : Run Library :=
  modifyGet ((Library.ofTree n).complete c site [] (NameSet.ofNames n.callees))

end TagCompiler
