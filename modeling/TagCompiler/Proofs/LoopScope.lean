import TagCompiler.Proofs.InliningSteps
/-!
# Where the loop variable is renamed

The properties of the loop variable go by other names in a tag file. They are renamed at all places
below a loop and nowhere else, and nothing else in the tree is changed. A place below a loop is in
its body, where the loop variable stands for the loop, or in its source. The source of an outermost
loop is outside of every loop, and yet a variable called `loop` is renamed there.
-/

namespace TagCompiler

open Node

/-! ### Places in a tree -/

/-- The node at a place, which says for each step down the tree to which subtree it goes. -/
def Node.nodeAt? : Node → List Nat → Option Node
  | n, [] => some n
  | n, i :: place => n.subtrees[i]?.bind fun k => nodeAt? k place

namespace LoopVariable

/-! ### The pass, node by node -/

def isLoop : Node → Bool
  | .loop .. => true
  | _ => false

/-- The tree with the properties of the loop variable renamed, as part of a loop or not. -/
def renamed (inside : Bool) (n : Node) : Node := (rebuilder.run n).run inside

theorem renamed_var (inside : Bool) (p : List String) :
    renamed inside (.var p) = .var (if inside then path p else p) := by
  cases inside <;> rfl

theorem renamed_eq_replace (inside : Bool) {n : Node} (other : ∀ p, n ≠ .var p) :
    renamed inside n = n.replace (n.outside.map (renamed (inside || isLoop n)))
      (n.elements.map (renamed (inside || isLoop n))) := by
  rw [renamed, rebuilder.run_eq_node_inside fun _ _ => rfl]
  cases n with
  | var p => exact absurd rfl (other p)
  | loop key item v cs =>
    simp only [isLoop, Bool.or_true]
    rfl
  | parameter name value =>
    simp only [isLoop, Bool.or_false]
    cases value <;> rfl
  | _ =>
    simp only [isLoop, Bool.or_false]
    rfl

theorem subtrees_renamed (inside : Bool) (n : Node) :
    (renamed inside n).subtrees = n.subtrees.map (renamed (inside || isLoop n)) := by
  by_cases leaf : ∃ p, n = .var p
  · obtain ⟨p, rfl⟩ := leaf
    rw [renamed_var]
    rfl
  · have other : ∀ p, n ≠ .var p := fun p same => leaf ⟨p, same⟩
    have fit : n.Fit (n.outside.map (renamed (inside || isLoop n)))
        (n.elements.map (renamed (inside || isLoop n))) := ⟨List.length_map .., List.length_map ..⟩
    rw [renamed_eq_replace inside other, fit.subtrees_replace, ← List.map_append,
      ← subtrees_eq_append]

/-! ### Places below a loop -/

/-- There is a loop at the place. -/
def HasLoopAt (t : Node) (place : List Nat) : Prop :=
  ∃ key item source body, t.nodeAt? place = some (.loop key item source body)

/-- The place is in the body of a loop of the tree. -/
def InBody (t : Node) (place : List Nat) : Prop :=
  ∃ outer i inner, place = outer ++ (i + 1) :: inner ∧ HasLoopAt t outer

/-- The place is in the source of a loop of the tree. -/
def InSource (t : Node) (place : List Nat) : Prop :=
  ∃ outer inner, place = outer ++ 0 :: inner ∧ HasLoopAt t outer

theorem hasLoopAt_nil {n : Node} : HasLoopAt n [] ↔ isLoop n = true := by
  cases n with
  | loop key item source body => exact iff_of_true ⟨key, item, source, body, rfl⟩ rfl
  | _ => simp [HasLoopAt, nodeAt?, isLoop]

theorem hasLoopAt_cons {n k : Node} {i : Nat} (h : n.subtrees[i]? = some k) (place : List Nat) :
    HasLoopAt n (i :: place) ↔ HasLoopAt k place := by
  rw [HasLoopAt, nodeAt?, h]
  rfl

theorem belowLoop_iff {t : Node} {place : List Nat} : InBody t place ∨ InSource t place ↔
    ∃ outer i inner, place = outer ++ i :: inner ∧ HasLoopAt t outer := by
  constructor
  · rintro (⟨outer, i, inner, below⟩ | ⟨outer, inner, below⟩)
    · exact ⟨outer, i + 1, inner, below⟩
    · exact ⟨outer, 0, inner, below⟩
  · rintro ⟨outer, i, inner, below⟩
    cases i with
    | zero => exact .inr ⟨outer, inner, below⟩
    | succ i => exact .inl ⟨outer, i, inner, below⟩

theorem not_belowLoop_nil (n : Node) : ¬(InBody n [] ∨ InSource n []) := by
  rw [belowLoop_iff]
  rintro ⟨outer, i, inner, same, -⟩
  simp at same

theorem belowLoop_cons {n k : Node} {i : Nat} (h : n.subtrees[i]? = some k) (place : List Nat) :
    InBody n (i :: place) ∨ InSource n (i :: place) ↔
      isLoop n = true ∨ InBody k place ∨ InSource k place := by
  rw [belowLoop_iff, belowLoop_iff, ← hasLoopAt_nil]
  constructor
  · rintro ⟨outer, j, inner, same, loop⟩
    cases outer with
    | nil => exact .inl loop
    | cons first outer =>
      obtain ⟨rfl, rfl⟩ := List.cons.inj same
      exact .inr ⟨outer, j, inner, rfl, (hasLoopAt_cons h outer).mp loop⟩
  · rintro (loop | ⟨outer, j, inner, rfl, loop⟩)
    · exact ⟨[], i, place, rfl, loop⟩
    · exact ⟨i :: outer, j, inner, rfl, (hasLoopAt_cons h outer).mpr loop⟩

/-! ### What becomes of the nodes -/

/-- What becomes of a node: the count from one and the count from zero get their other names below a
loop. Other variables are kept, and other nodes are, with as many subtrees as before. -/
inductive Renamed (below : Prop) : Node → Node → Prop
  | index {rest : List String} : below →
      Renamed below (.var ("loop" :: "index" :: rest)) (.var ("loop" :: "count" :: rest))
  | index0 {rest : List String} : below →
      Renamed below (.var ("loop" :: "index0" :: rest)) (.var ("loop" :: "index" :: rest))
  | var {p : List String} : (below → ∀ rest, p ≠ "loop" :: "index" :: rest ∧
      p ≠ "loop" :: "index0" :: rest) → Renamed below (.var p) (.var p)
  | other {n : Node} {outs stats : List Node} : (∀ p, n ≠ .var p) → n.Fit outs stats →
      Renamed below n (n.replace outs stats)

theorem renamed_path {below : Prop} (h : below) (p : List String) :
    Renamed below (.var p) (.var (path p)) := by
  fun_cases path p with
  | case1 status rest =>
    fun_cases property status with
    | case1 => exact .index h
    | case2 => exact .index0 h
    | case3 status notIndex notIndex0 =>
      refine .var fun _ more => ⟨fun same => ?_, fun same => ?_⟩
      · exact notIndex (List.cons.inj (List.cons.inj same).2).1
      · exact notIndex0 (List.cons.inj (List.cons.inj same).2).1
  | case2 p other => exact .var fun _ rest => ⟨other _ _, other _ _⟩

theorem renamed_renamed (inside : Bool) (n : Node) :
    Renamed (inside = true) n (renamed inside n) := by
  by_cases leaf : ∃ p, n = .var p
  · obtain ⟨p, rfl⟩ := leaf
    rw [renamed_var]
    cases inside with
    | true => exact renamed_path rfl p
    | false => exact .var fun below => by cases below
  · have other : ∀ p, n ≠ .var p := fun p same => leaf ⟨p, same⟩
    rw [renamed_eq_replace inside other]
    exact .other other ⟨List.length_map .., List.length_map ..⟩

theorem rel_nodeAt?_renamed (inside : Bool) (n : Node) (place : List Nat) :
    Option.Rel (Renamed (inside = true ∨ InBody n place ∨ InSource n place)) (n.nodeAt? place)
      ((renamed inside n).nodeAt? place) := by
  induction place generalizing n inside with
  | nil =>
    have here := renamed_renamed inside n
    rw [← or_iff_left (a := inside = true) (not_belowLoop_nil n)] at here
    exact .some here
  | cons i place ih =>
    rw [nodeAt?, nodeAt?, subtrees_renamed, List.getElem?_map]
    cases found : n.subtrees[i]? with
    | none => exact .none
    | some k =>
      -- The step from a loop to any of its subtrees, its source too, goes inside.
      have below := ih (inside || isLoop n) k
      rw [belowLoop_cons found, ← or_assoc, ← Bool.or_eq_true]
      exact below

/-- The pass renames the two counts exactly at the places below a loop, be it in its body or in its
source. All other nodes stay as they are, each at its place. -/
theorem counts_renamed_below_loops (t : Node) (scope : Option SiteContext) (before : Memory) :
    ∃ out, (Pass.loop.run scope t).run before = (.ok out, before) ∧
      ∀ place, Option.Rel (Renamed (InBody t place ∨ InSource t place)) (t.nodeAt? place)
        (out.nodeAt? place) := by
  refine ⟨renamed false t, rfl, fun place => ?_⟩
  have related := rel_nodeAt?_renamed false t place
  simpa only [Bool.false_eq_true, false_or] using related

/-- A variable in the source of an outermost loop is in the body of no loop and is renamed. -/
theorem count_renamed_in_outermost_source :
    Template.parse "\x7b% for i in loop.index %\x7d\x7b% endfor %\x7d" =
      .ok (.list [.loop none "i" (.var ["loop", "index"]) []]) ∧
    ∃ out, (Pass.loop.run none (.list [.loop none "i" (.var ["loop", "index"]) []])).run .empty =
        (.ok out, .empty) ∧
      (Node.list [.loop none "i" (.var ["loop", "index"]) []]).nodeAt? [0, 0] =
        some (.var ["loop", "index"]) ∧
      out.nodeAt? [0, 0] = some (.var ["loop", "count"]) ∧
      ¬InBody (.list [.loop none "i" (.var ["loop", "index"]) []]) [0, 0] := by
  refine ⟨?_, _, rfl, rfl, rfl, ?_⟩
  · rw [Template.parse_eq]
    cbv
  · rintro ⟨outer, i, inner, same, -⟩
    have listed : i + 1 ∈ [0, 0] := by simp [same]
    simp at listed

end LoopVariable
end TagCompiler
