import TagCompiler.Proofs.Relabelling
/-!
# Variables and the loops that bind them

A loop binds one or two names in its body. A variable stands for what the innermost loop around it
binds under its first name. Decoration renames variables and loops alike, so that each variable is
bound where it was, unless a decorated name meets one that is excluded. Renaming the self reference
changes variables only. A loop that binds the name of the self reference loses the variables it has
bound.
-/

namespace TagCompiler

namespace Node

/-! ### Names and their loops -/

/-- The names that the node binds in its body. -/
def boundNames : Node → List String
  | .loop key item _ _ => key.toList ++ [item]
  | _ => []

/-- The first names of variables and the names bound by loops, in the whole tree. -/
def names (t : Node) : List String :=
  t.preorder.flatMap fun n => n.rootName?.toList ++ n.boundNames

/-- The first name of the variable at the place. -/
def rootAt? (t : Node) (place : List Nat) : Option String := (t.nodeAt? place).bind rootName?

/-- The places of the loops that have `place` in their body and bind `name`, the outermost first.
The source of a loop, its first subtree, is not in the body. -/
def binders (t : Node) (name : String) (place : List Nat) : List (List Nat) :=
  place.inits.filter fun outer =>
    place[outer.length]?.any (0 < ·) && (t.nodeAt? outer).any (name ∈ ·.boundNames)

/-- The place of the loop that binds the variable at `place`, which is the innermost one of those
that bind its first name. -/
def resolve? (t : Node) (place : List Nat) : Option (List Nat) :=
  (t.rootAt? place).bind fun name => (t.binders name place).getLast?

theorem mem_preorder_of_nodeAt? {t n : Node} {place : List Nat} (h : t.nodeAt? place = some n) :
    n ∈ t.preorder := by
  induction place generalizing t with
  | nil =>
    cases h
    exact mem_preorder_self n
  | cons i place ih =>
    obtain ⟨k, hk, below⟩ := Option.bind_eq_some_iff.mp h
    exact preorder_subset (List.mem_of_getElem? hk) (ih below)

theorem mem_names_of_rootAt? {t : Node} {place : List Nat} {name : String}
    (h : t.rootAt? place = some name) : name ∈ t.names := by
  obtain ⟨n, stands, root⟩ := Option.bind_eq_some_iff.mp h
  refine List.mem_flatMap.mpr ⟨n, mem_preorder_of_nodeAt? stands, ?_⟩
  exact List.mem_append_left _ (Option.mem_toList.mpr root)

theorem mem_names_of_boundNames {t n : Node} {place : List Nat} {name : String}
    (h : t.nodeAt? place = some n) (bound : name ∈ n.boundNames) : name ∈ t.names :=
  List.mem_flatMap.mpr ⟨n, mem_preorder_of_nodeAt? h, List.mem_append_right _ bound⟩

/-- A name that does not occur in a tree is bound by no loop. -/
theorem binders_of_not_mem_names {t : Node} {name : String} (h : name ∉ t.names)
    (place : List Nat) : t.binders name place = [] := by
  refine List.filter_eq_nil_iff.mpr fun outer _ binds => ?_
  obtain ⟨-, found⟩ := Bool.and_eq_true_iff.mp binds
  obtain ⟨n, stands, bound⟩ := (Option.any_eq_true _ _).mp found
  exact h (mem_names_of_boundNames stands (of_decide_eq_true bound))

end Node

open Node

/-! ### Renamed variables and loops -/

namespace Relabels

variable {root bound : String → String} {f : Node → Node}

theorem rootName? (h : Relabels root bound f) (n : Node) :
    (f n).rootName? = n.rootName?.map root := by
  rw [h n]
  cases n with
  | var path => cases path <;> rfl
  | parameter name value => cases value <;> rfl
  | _ => rfl

theorem boundNames (h : Relabels root bound f) (n : Node) :
    (f n).boundNames = n.boundNames.map bound := by
  rw [h n]
  cases n with
  | var path => cases path <;> rfl
  | parameter name value => cases value <;> rfl
  | loop key item source body => cases key <;> rfl
  | _ => rfl

theorem rootAt? (h : Relabels root bound f) (t : Node) (place : List Nat) :
    (f t).rootAt? place = (t.rootAt? place).map root := by
  unfold Node.rootAt?
  rw [h.nodeAt?]
  cases t.nodeAt? place with
  | none => rfl
  | some n => exact h.rootName? n

/-- The same loops bind `name` before and `name'` after, if no other name of a loop is changed to
`name'` and `name` is. -/
theorem binders (h : Relabels root bound f) {t : Node} {name name' : String}
    (only : ∀ x ∈ t.names, bound x = name' ↔ x = name) (place : List Nat) :
    (f t).binders name' place = t.binders name place := by
  refine List.filter_congr fun outer _ => congrArg (_ && ·) ?_
  rw [h.nodeAt?]
  cases stands : t.nodeAt? outer with
  | none => rfl
  | some n =>
    have same : name' ∈ (f n).boundNames ↔ name ∈ n.boundNames := by
      rw [h.boundNames, List.mem_map]
      constructor
      · rintro ⟨x, hx, renamed⟩
        exact (only x (mem_names_of_boundNames stands hx)).mp renamed ▸ hx
      · intro bound
        exact ⟨name, bound, (only name (mem_names_of_boundNames stands bound)).mpr rfl⟩
    exact decide_eq_decide.mpr same

/-- A variable stays with its loop, if those names of loops are changed to the new name of the
variable that were its name before. -/
theorem resolve?_eq (h : Relabels root bound f) {t : Node} {place : List Nat}
    (only : ∀ name, t.rootAt? place = some name → ∀ x ∈ t.names, bound x = root name ↔ x = name) :
    (f t).resolve? place = t.resolve? place := by
  rw [resolve?, resolve?, h.rootAt?]
  cases stands : t.rootAt? place with
  | none => rfl
  | some name => exact congrArg List.getLast? (h.binders (only name stands) place)

end Relabels

/-! ### Decoration -/

/-- The name with `lead` before and `trail` after it, unless it is excluded. -/
def decorated (lead trail : String) (exclude : List String) (name : String) : String :=
  if name ∈ exclude then name else lead ++ name ++ trail

theorem apply_decoration (lead trail : String) (exclude : List String) :
    (Renaming.decoration lead trail exclude).apply = decorated lead trail exclude := by
  funext name
  simp only [Renaming.apply, Renaming.decoration, decorated, List.contains_iff_mem]
  split <;> rfl

theorem decorated_inj {lead trail : String} {exclude : List String} {x y : String}
    (left : x ∈ exclude → y ∉ exclude → x ≠ lead ++ y ++ trail)
    (right : y ∈ exclude → x ∉ exclude → y ≠ lead ++ x ++ trail) :
    decorated lead trail exclude x = decorated lead trail exclude y ↔ x = y := by
  refine ⟨fun same => ?_, congrArg _⟩
  unfold decorated at same
  split at same
  · rename_i hx
    split at same
    · exact same
    · rename_i hy
      exact absurd same (left hx hy)
  · rename_i hx
    split at same
    · rename_i hy
      exact absurd same.symm (right hy hx)
    · simpa [← String.toList_inj] using same

/-- Decoration renames consistently: the tree keeps its shape, every variable is bound by the loop
at the same place as before, and two variables have the same first name exactly if they had before.
Nothing else changes. -/
theorem decoration_keeps_bindings (t : Node) (lead trail : String) (exclude : List String)
    (apart : ∀ kept ∈ t.names, ∀ other ∈ t.names, kept ∈ exclude → other ∉ exclude →
      kept ≠ lead ++ other ++ trail) (scope : Option SiteContext) (before : Memory) :
    ∃ out, ((Pass.decorate lead trail exclude).run scope t).run before = (.ok out, before) ∧
      (∀ place, (out.nodeAt? place).map own = (t.nodeAt? place).map fun n =>
        n.own.relabel (decorated lead trail exclude) (decorated lead trail exclude)) ∧
      (∀ place, out.resolve? place = t.resolve? place) ∧
      ∀ place place', out.rootAt? place = out.rootAt? place' ↔
        t.rootAt? place = t.rootAt? place' := by
  have renames := relabels_renameNames (.decoration lead trail exclude)
  rw [apply_decoration] at renames
  have injective : ∀ x ∈ t.names, ∀ y ∈ t.names,
      decorated lead trail exclude x = decorated lead trail exclude y ↔ x = y :=
    fun x hx y hy => decorated_inj (apart x hx y hy) (apart y hy x hx)
  refine ⟨_, rfl, renames.own_nodeAt? t, fun place => ?_, fun place place' => ?_⟩
  · refine renames.resolve?_eq fun name stands x hx => ?_
    exact injective x hx name (mem_names_of_rootAt? stands)
  · rw [renames.rootAt?, renames.rootAt?]
    cases first : t.rootAt? place with
    | none => cases t.rootAt? place' <;> simp
    | some x =>
      cases second : t.rootAt? place' with
      | none => simp
      | some y =>
        have same := injective x (mem_names_of_rootAt? first) y (mem_names_of_rootAt? second)
        simpa using same

namespace NestedLoops

/-- Two loops, of which the inner one binds `k` again. Their sources have the names they bind. -/
def tree : Node :=
  .list [.loop (some "k") "v" (.var ["v"]) [.output [.var ["v", "x"]],
    .loop none "k" (.var ["k"]) [.output [.var ["k"]], .output [.var ["loop", "index"]]]]]

/-- The variable `k` in the inner loop is bound by it, and in its source by the outer loop. -/
theorem decoration_keeps_inner_binding :
    (∀ kept ∈ tree.names, ∀ other ∈ tree.names, kept ∈ ["loop"] → other ∉ ["loop"] →
      kept ≠ "_" ++ other ++ "") ∧
    ∃ out, ((Pass.decorate "_" "" ["loop"]).run none tree).run .empty = (.ok out, .empty) ∧
      out.rootAt? [0, 2, 1, 0] = some "_k" ∧ out.resolve? [0, 2, 1, 0] = some [0, 2] ∧
      out.resolve? [0, 2, 0] = some [0] ∧ out.resolve? [0, 0] = none := by
  have apart : ∀ kept ∈ tree.names, ∀ other ∈ tree.names, kept ∈ ["loop"] → other ∉ ["loop"] →
      kept ≠ "_" ++ other ++ "" := by decide
  obtain ⟨out, run, -, same, -⟩ := decoration_keeps_bindings tree "_" "" ["loop"] apart none .empty
  refine ⟨apart, out, run, ?_, ?_, ?_, ?_⟩
  · cases run
    rfl
  · rw [same]
    decide
  · rw [same]
    decide
  · rw [same]
    decide

end NestedLoops

/-! ### The self reference -/

theorem apply_single (source target : String) :
    (Renaming.single source target).apply = fun x => if x = source then target else x := by
  funext x
  simp only [Renaming.apply, Renaming.single]
  split <;> rfl

/-- Renaming the self reference to a name that does not occur: variables of other names are bound by
the loop at the same place as before, and those that had the name of the self reference are bound by
no loop, whether or not they were before. -/
theorem self_bound_by_no_loop (t : Node) (source target : String) (fresh : target ∉ t.names)
    (scope : Option SiteContext) (before : Memory) :
    ∃ out, ((Pass.self source target).run scope t).run before = (.ok out, before) ∧
      (∀ place, (out.nodeAt? place).map own = (t.nodeAt? place).map fun n =>
        n.own.relabel (fun x => if x = source then target else x) id) ∧
      ∀ place, out.resolve? place =
        if t.rootAt? place = some source then none else t.resolve? place := by
  have renames := relabels_renameRoots (.single source target)
  rw [apply_single] at renames
  refine ⟨_, rfl, renames.own_nodeAt? t, fun place => ?_⟩
  split
  · rename_i reference
    have unbound : (t.renameRoots (.single source target)).binders target place = [] :=
      (renames.binders (fun _ _ => Iff.rfl) place).trans (binders_of_not_mem_names fresh place)
    rw [resolve?, renames.rootAt?, reference]
    simp [unbound]
  · rename_i other
    refine renames.resolve?_eq fun name stands x _ => ?_
    have kept : name ≠ source := fun same => other (same ▸ stands)
    rw [if_neg kept]
    exact Iff.rfl

namespace NestedLoops

/-- Of the variables in the inner loop, the one that is called like the self reference is lost. -/
theorem self_lost_by_inner_loop : "q" ∉ tree.names ∧
    ∃ out, ((Pass.self "k" "q").run none tree).run .empty = (.ok out, .empty) ∧
      tree.resolve? [0, 2, 1, 0] = some [0, 2] ∧ out.resolve? [0, 2, 1, 0] = none ∧
      out.resolve? [0, 1, 0] = some [0] := by
  have fresh : "q" ∉ tree.names := by decide
  obtain ⟨out, run, -, same⟩ := self_bound_by_no_loop tree "k" "q" fresh none .empty
  refine ⟨fresh, out, run, by decide, ?_, ?_⟩
  · rw [same]
    decide
  · rw [same]
    decide

end NestedLoops

/-- A loop over items that are called like the self reference. -/
def loopOfSelf : Node := .list [.loop none "this" (.var ["items"]) [.output [.var ["this"]]]]

/-- The variable in the body stands for an item before the pass and for none after it. -/
theorem self_unbound_in_own_loop :
    Template.parse "\x7b% for this in items %\x7d\x7b\x7b this \x7d\x7d\x7b% endfor %\x7d" =
      .ok loopOfSelf ∧
    "self" ∉ loopOfSelf.names ∧
    ∃ out, ((Pass.self "this" "self").run none loopOfSelf).run .empty = (.ok out, .empty) ∧
      loopOfSelf.resolve? [0, 1, 0] = some [0] ∧ out.rootAt? [0, 1, 0] = some "self" ∧
      out.resolve? [0, 1, 0] = none := by
  refine ⟨?_, by decide, _, rfl, by decide, rfl, by decide⟩
  rw [Template.parse_eq]
  cbv

end TagCompiler
