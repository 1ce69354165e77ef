import TagCompiler.Proofs.FilledPlaces
import TagCompiler.Proofs.LoopScope
/-!
# Renaming what the nodes of a tree say themselves

The passes that rename variables rebuild the whole tree. Each of them changes the first names of
variable paths, some also the names that loops bind. All else that a node says itself stays, and so
do its subtrees, each in its place. Two such renamings one after the other are one again, and the
renaming that changes no name changes no tree.
-/

namespace TagCompiler

namespace Node

/-! ### What a node says itself -/

/-- The node by itself: a yield stands for each of its subtrees, so that only their number shows. -/
def own (n : Node) : Node :=
  n.replace (n.outside.map fun _ => .yield) (n.elements.map fun _ => .yield)

/-- Changes the first name of a variable by `root` and the names that a loop binds by `bound`. -/
def relabel (root bound : String → String) : Node → Node
  | .var (first :: rest) => .var (root first :: rest)
  | .loop key item source body => .loop (key.map bound) (bound item) source body
  | n => n

variable {root bound root' bound' : String → String}

theorem relabel_id (n : Node) : n.relabel id id = n := by
  cases n with
  | var path => cases path <;> rfl
  | loop key item source body => cases key <;> rfl
  | _ => rfl

theorem relabel_relabel (n : Node) : (n.relabel root bound).relabel root' bound' =
    n.relabel (root' ∘ root) (bound' ∘ bound) := by
  cases n with
  | var path => cases path <;> rfl
  | loop key item source body => cases key <;> rfl
  | _ => rfl

theorem outside_relabel (n : Node) : (n.relabel root bound).outside = n.outside := by
  cases n with
  | var path => cases path <;> rfl
  | _ => rfl

theorem elements_relabel (n : Node) : (n.relabel root bound).elements = n.elements := by
  cases n with
  | var path => cases path <;> rfl
  | _ => rfl

theorem Fit.relabel {n : Node} {outs stats : List Node} (h : n.Fit outs stats) :
    (n.relabel root bound).Fit outs stats :=
  ⟨h.outs.trans (congrArg List.length n.outside_relabel.symm),
    h.stats.trans (congrArg List.length n.elements_relabel.symm)⟩

theorem relabel_replace (n : Node) (outs stats : List Node) :
    (n.replace outs stats).relabel root bound = (n.relabel root bound).replace outs stats := by
  cases n with
  | var path => cases path <;> rfl
  | parameter name value => cases value <;> rfl
  | _ => rfl

theorem fit_map (n : Node) (f g : Node → Node) : n.Fit (n.outside.map f) (n.elements.map g) :=
  ⟨List.length_map .., List.length_map ..⟩

theorem Fit.own_replace {n : Node} {outs stats : List Node} (h : n.Fit outs stats) :
    (n.replace outs stats).own = n.own := by
  unfold own
  rw [h.replace_replace, h.outside_replace, h.elements_replace, List.map_const', List.map_const',
    List.map_const', List.map_const', h.outs, h.stats]

end Node

open Node

/-! ### Functions that rename -/

/-- The function relabels each node of a tree and rebuilds it from its subtrees. -/
def Relabels (root bound : String → String) (f : Node → Node) : Prop :=
  ∀ n, f n = (n.relabel root bound).replace (n.outside.map f) (n.elements.map f)

namespace Relabels

variable {root bound root' bound' : String → String} {f g : Node → Node}

theorem subtrees (h : Relabels root bound f) (n : Node) : (f n).subtrees = n.subtrees.map f := by
  rw [h n, (n.fit_map f f).relabel.subtrees_replace, ← List.map_append, ← subtrees_eq_append]

theorem own (h : Relabels root bound f) (n : Node) : (f n).own = n.own.relabel root bound := by
  rw [h n, (n.fit_map f f).relabel.own_replace]
  unfold Node.own
  rw [relabel_replace, outside_relabel, elements_relabel]

/-- The nodes of the new tree, in order, are what becomes of the nodes of the old one. -/
theorem preorder (h : Relabels root bound f) (n : Node) : (f n).preorder = n.preorder.map f := by
  induction n using induction_on_subtrees with
  | step n ih =>
    rw [Node.preorder_eq_cons, Node.preorder_eq_cons n, h.subtrees, List.map_cons,
      List.map_flatMap, List.flatMap_map]
    exact congrArg (f n :: ·) (List.flatMap_congr ih)

theorem nodeAt? (h : Relabels root bound f) (n : Node) (place : List Nat) :
    (f n).nodeAt? place = (n.nodeAt? place).map f := by
  induction place generalizing n with
  | nil => rfl
  | cons i place ih =>
    rw [Node.nodeAt?, Node.nodeAt?, h.subtrees, List.getElem?_map]
    cases n.subtrees[i]? with
    | none => rfl
    | some k => exact ih k

/-- At each place stands the node that stood there, relabelled. -/
theorem own_nodeAt? (h : Relabels root bound f) (n : Node) (place : List Nat) :
    ((f n).nodeAt? place).map Node.own =
      (n.nodeAt? place).map fun k => k.own.relabel root bound := by
  rw [h.nodeAt?, Option.map_map]
  exact congrArg (Option.map · _) (funext h.own)

/-- What is renamed how determines the function. -/
theorem unique (hf : Relabels root bound f) (hg : Relabels root bound g) (n : Node) :
    f n = g n := by
  induction n using induction_on_subtrees with
  | step n ih =>
    have outs : n.outside.map f = n.outside.map g :=
      List.map_congr_left fun k hk => ih k (mem_subtrees_of_mem_outside hk)
    have stats : n.elements.map f = n.elements.map g :=
      List.map_congr_left fun k hk => ih k (mem_subtrees_of_mem_elements hk)
    rw [hf n, hg n, outs, stats]

theorem comp (hf : Relabels root bound f) (hg : Relabels root' bound' g) :
    Relabels (root' ∘ root) (bound' ∘ bound) (g ∘ f) := by
  intro n
  have fit : (n.relabel root bound).Fit (n.outside.map f) (n.elements.map f) :=
    (n.fit_map f f).relabel
  rw [Function.comp_apply, hg (f n), hf n, fit.outside_replace, fit.elements_replace,
    relabel_replace, fit.relabel.replace_replace, relabel_relabel, List.map_map, List.map_map]

theorem refl : Relabels id id id := by
  intro n
  rw [relabel_id, List.map_id, List.map_id, replace_self]
  rfl

end Relabels

/-! ### The passes -/

theorem relabels_renameNames (r : Renaming) :
    Relabels r.apply r.apply (Node.renameNames r) := by
  intro n
  rw [Inlining.renameNames_eq_replace]
  cases n with
  | var path => cases path <;> rfl
  | _ => rfl

theorem relabels_renameRoots (r : Renaming) : Relabels r.apply id (Node.renameRoots r) := by
  intro n
  refine ((Rebuilder.renameRoots r).run_eq_node (fun _ => rfl) n).trans ?_
  cases n with
  | var path => cases path <;> rfl
  | parameter name value => cases value <;> rfl
  | loop key item source body => cases key <;> rfl
  | _ => rfl

theorem relabels_rebuild : Relabels id id Node.rebuild := by
  intro n
  rw [relabel_id]
  exact Rebuilder.keep.run_eq_node (fun _ => rfl) n

/-- Renames by the first renaming and then by the second one. -/
def Renaming.andThen (r₁ r₂ : Renaming) : Renaming :=
  fun n => (r₁ n).elim (r₂ n) fun m => some (r₂.apply m)

theorem Renaming.apply_andThen (r₁ r₂ : Renaming) :
    (r₁.andThen r₂).apply = r₂.apply ∘ r₁.apply := by
  funext n
  unfold Renaming.apply Renaming.andThen
  cases found : r₁ n with
  | none => simp [found]
  | some m => simp [found, Renaming.apply]

/-- Renaming visits the nodes of a tree in their order and keeps what each of them says, but for the
first names of variables, which are renamed. It composes, and without a name to change it is the
identity, as is the pass that copies a tree. -/
theorem renaming_rebuilds_faithfully (t : Node) (r r₁ r₂ : Renaming) (scope : Option SiteContext)
    (before : Memory) :
    (t.renameRoots r).preorder.map own = t.preorder.map (fun n => n.own.relabel r.apply id) ∧
      (t.renameRoots r₁).renameRoots r₂ = t.renameRoots (r₁.andThen r₂) ∧
      t.renameRoots (fun _ => none) = t ∧
      (Pass.clone.run scope t).run before = (.ok t, before) := by
  refine ⟨?_, ?_, ?_, ?_⟩
  · rw [(relabels_renameRoots r).preorder, List.map_map]
    exact List.map_congr_left fun n _ => (relabels_renameRoots r).own n
  · have both := (relabels_renameRoots r₁).comp (relabels_renameRoots r₂)
    rw [← Renaming.apply_andThen] at both
    exact both.unique (relabels_renameRoots (r₁.andThen r₂)) t
  · exact (relabels_renameRoots fun _ => none).unique .refl t
  · have copied : t.rebuild = t := relabels_rebuild.unique .refl t
    show (Except.ok t.rebuild, before) = _
    rw [copied]

end TagCompiler
