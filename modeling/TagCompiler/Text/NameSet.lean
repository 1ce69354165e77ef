/-!
Sets of names, as lists in ascending order without repetition.
-/

namespace TagCompiler

abbrev NameSet := List String

namespace NameSet

/-- Adds a name to a set. -/
def add (n : String) : NameSet → NameSet
  | [] => [n]
  | m :: s => if n = m then m :: s else if n < m then n :: m :: s else m :: add n s

/-- Adds names to a set. -/
def addAll (ns : List String) (s : NameSet) : NameSet := ns.foldl (fun s n => add n s) s

def ofNames (ns : List String) : NameSet := addAll ns []

theorem mem_add {n x : String} {s : NameSet} : x ∈ add n s ↔ x = n ∨ x ∈ s := by
  induction s with
  | nil => simp [add]
  | cons m s ih =>
    unfold add
    split
    · rename_i h
      subst h
      simp
    · split
      · simp
      · simp only [List.mem_cons, ih]
        grind

theorem mem_addAll {x : String} {ns : List String} {s : NameSet} :
    x ∈ addAll ns s ↔ x ∈ ns ∨ x ∈ s := by
  unfold addAll
  induction ns generalizing s with
  | nil => simp
  | cons n ns ih =>
    rw [List.foldl_cons, ih, mem_add]
    simp only [List.mem_cons]
    grind

theorem mem_ofNames {x : String} {ns : List String} : x ∈ ofNames ns ↔ x ∈ ns := by
  simp [ofNames, mem_addAll]

end NameSet
end TagCompiler
