import TagCompiler.Proofs.WellBuiltPasses
/-!
# Where the strings of lowered code come from

Code hands a string on as the value of an argument, in an assignment or as a member of a chain. No
pass makes up such a string: what holds of all strings that a tree and the macros at hand carry
holds of those in the result as well.

Two exceptions are part of the statements. A load is told the name of its variable by an argument
called `var`, so neither arguments of that name nor the variables that hold them count. And a test
for truth compares with the text `false`, so chains do not count any more once such tests may stand
in the tree.
-/

namespace TagCompiler

namespace Node

/-- The text of a string literal. -/
def stringText? : Node → Option String
  | .literal (.string s) _ => some s
  | _ => none

theorem exists_of_stringText? {n : Node} {s : String} (h : n.stringText? = some s) :
    ∃ kind, n = .literal (.string s) kind := by
  unfold stringText? at h
  split at h
  · cases h
    exact ⟨_, rfl⟩
  · cases h

/-- Whether this is a variable that is named like those for the parameter `var` of a macro. -/
def holdsName (n : Node) : Bool := n.rootName?.any fun x => "_var".toList.isSuffixOf x.toList

theorem holdsName_var {x : String} {rest : List String} :
    (var (x :: rest)).holdsName = true ↔ "_var".toList <:+ x.toList := by
  simp only [holdsName, rootName?, List.head?_cons, Option.any_some, List.isSuffixOf_iff_suffix]

/-- The strings that the node itself hands on fulfil `P`. -/
def OwnCarries (chains : Prop) (P : String → Prop) : Node → Prop
  | .parameter name (some v) => name ≠ some "var" → ∀ s, v.stringText? = some s → P s
  | .assign target v _ => target.holdsName = false → ∀ s, v.stringText? = some s → P s
  | .expression chain => chains → ∀ v ∈ chain, ∀ s, v.stringText? = some s → P s
  | _ => True

/-- All strings that the tree carries fulfil `P`. -/
def Carries (chains : Prop) (P : String → Prop) (n : Node) : Prop :=
  ∀ k ∈ n.preorder, k.OwnCarries chains P

variable {chains : Prop} {P Q : String → Prop} {n m : Node}

theorem carries_iff : n.Carries chains P ↔
    n.OwnCarries chains P ∧ ∀ k ∈ n.subtrees, k.Carries chains P := forall_preorder_iff

theorem Carries.own (h : n.Carries chains P) : n.OwnCarries chains P := (carries_iff.mp h).1

theorem Carries.subtree (h : n.Carries chains P) {k : Node} (hk : k ∈ n.subtrees) :
    k.Carries chains P := (carries_iff.mp h).2 k hk

theorem Carries.part (h : n.Carries chains P) {k : Node} (hk : k ∈ n.preorder) :
    k.Carries chains P := fun j hj => h j (preorder_trans hk hj)

theorem OwnCarries.imp {fewer : Prop} (h : n.OwnCarries chains P) (sub : fewer → chains)
    (weaker : ∀ s, P s → Q s) : n.OwnCarries fewer Q := by
  cases n with
  | parameter name value =>
    cases value with
    | none => trivial
    | some v => exact fun other s hs => weaker s (h other s hs)
  | assign target v => exact fun other s hs => weaker s (h other s hs)
  | expression chain => exact fun counts v hv s hs => weaker s (h (sub counts) v hv s hs)
  | _ => trivial

theorem Carries.imp (h : n.Carries chains P) (weaker : ∀ s, P s → Q s) : n.Carries chains Q :=
  fun k hk => (h k hk).imp id weaker

theorem Carries.unchained (h : n.Carries chains P) : n.Carries False P :=
  fun k hk => (h k hk).imp False.elim fun _ hs => hs

theorem ownCarries_of_subtrees (h : ∀ v ∈ n.subtrees, ∀ s, v.stringText? = some s → P s) :
    n.OwnCarries chains P := by
  cases n with
  | parameter name value =>
    cases value with
    | none => trivial
    | some v => exact fun _ => h v (by simp [subtrees])
  | assign target v => exact fun _ => h v (by simp [subtrees])
  | expression chain => exact fun _ => h
  | _ => trivial

/-- Only literals of the tree can be carried. -/
theorem carries_of_literals (h : ∀ s kind, .literal (.string s) kind ∈ n.preorder → P s) :
    n.Carries chains P := by
  intro k hk
  refine ownCarries_of_subtrees fun v hv s hs => ?_
  obtain ⟨kind, rfl⟩ := exists_of_stringText? hs
  exact h s kind (preorder_trans hk (preorder_subset hv (mem_preorder_self _)))

theorem carries_leaf (h : n.isLeaf = true) : n.Carries chains P := by
  refine carries_iff.mpr ⟨ownCarries_of_subtrees ?_, ?_⟩ <;> simp [subtrees_of_isLeaf h]

@[simp] theorem carries_operator {s : String} : (operator s).Carries chains P := carries_leaf rfl

@[simp] theorem carries_connective {s : String} : (connective s).Carries chains P :=
  carries_leaf rfl

@[simp] theorem carries_literal {v : Value} {kind : LiteralKind} :
    (literal v kind).Carries chains P := carries_leaf rfl

@[simp] theorem carries_var {p : List String} : (var p).Carries chains P := carries_leaf rfl

@[simp] theorem carries_list {cs : List Node} :
    (list cs).Carries chains P ↔ ∀ c ∈ cs, c.Carries chains P :=
  carries_iff.trans (and_iff_right trivial)

theorem carries_loop {key : Option String} {item : String} {source : Node} {cs : List Node} :
    (loop key item source cs).Carries chains P ↔ ∀ c ∈ source :: cs, c.Carries chains P :=
  carries_iff.trans (and_iff_right trivial)

theorem carries_branch {c : Node} {ys ns : List Node} :
    (branch c ys ns).Carries chains P ↔ ∀ k ∈ c :: (ys ++ ns), k.Carries chains P :=
  carries_iff.trans (and_iff_right trivial)

@[simp] theorem carries_group {cs : List Node} :
    (group cs).Carries chains P ↔ ∀ c ∈ cs, c.Carries chains P :=
  carries_iff.trans (and_iff_right trivial)

@[simp] theorem carries_condition {cs : List Node} :
    (condition cs).Carries chains P ↔ ∀ c ∈ cs, c.Carries chains P :=
  carries_iff.trans (and_iff_right trivial)

@[simp] theorem carries_filter {name : String} {v p : Node} :
    (filter name v p).Carries chains P ↔ v.Carries chains P ∧ p.Carries chains P :=
  carries_iff.trans ((and_iff_right trivial).trans (by simp [subtrees]))

@[simp] theorem carries_parameters {cs : List Node} :
    (parameters cs).Carries chains P ↔ ∀ c ∈ cs, c.Carries chains P :=
  carries_iff.trans (and_iff_right trivial)

@[simp] theorem carries_unchained {cs : List Node} :
    (expression cs).Carries False P ↔ ∀ c ∈ cs, c.Carries False P :=
  carries_iff.trans (and_iff_right False.elim)

/-- What becomes of a node is a string only if the node is the same string, and it holds a name if
the node does. -/
structure Keeps (n m : Node) : Prop where
  string : ∀ s, m.stringText? = some s → n.stringText? = some s
  name : n.holdsName = true → m.holdsName = true

theorem Keeps.refl (n : Node) : Keeps n n := ⟨fun _ => id, id⟩

/-- A node that is neither a string nor a variable can become another such node. -/
theorem Keeps.of_plain (old : n.holdsName = false) (new : m.stringText? = none) : Keeps n m := by
  constructor
  · intro s hs
    cases new.symm.trans hs
  · intro holds
    cases old.symm.trans holds

end Node

open Node

variable {chains : Prop} {P : String → Prop}

/-! ### Rebuilding -/

namespace Rebuilt

variable {R : Node → Node → Prop} {S : Node → List Node → Prop} {n m : Node}

theorem keeps (h : Rebuilt R S n m) : Keeps n m := by
  cases h with
  | leaf => exact .refl n
  | _ => exact .of_plain rfl rfl

theorem ownCarries (h : Rebuilt R S n m) (own : n.OwnCarries chains P)
    (related : ∀ k ∈ n.subtrees, ∀ k', R k k' → Keeps k k') : m.OwnCarries chains P := by
  cases h with
  | leaf => exact own
  | parameter hv =>
    exact fun other s hs => own other s ((related _ (by simp [subtrees]) _ hv).string s hs)
  | @assign t t' v v' op ht hv =>
    have target := related t List.mem_cons_self t' ht
    have value := related v (by simp [subtrees]) v' hv
    intro other s hs
    refine own ?_ s (value.string s hs)
    cases holds : t.holdsName with
    | false => rfl
    | true => exact (target.name holds).symm.trans other
  | @expression cs cs' parts =>
    intro counts v hv s hs
    obtain ⟨k, hk, became⟩ := exists_of_mem_right parts hv
    exact own counts k hk s ((related k hk v became).string s hs)
  | _ => trivial

theorem carries (h : Rebuilt R S n m) (own : n.OwnCarries chains P)
    (node : ∀ k ∈ n.subtrees, ∀ k', R k k' → Keeps k k' ∧ k'.Carries chains P)
    (statement : ∀ k ∈ n.subtrees, ∀ ks, S k ks → ∀ k' ∈ ks, k'.Carries chains P) :
    m.Carries chains P := by
  refine carries_iff.mpr
    ⟨h.ownCarries own fun k hk k' hk' => (node k hk k' hk').1, fun k' hk' => ?_⟩
  obtain ⟨k, hk, became | ⟨ks, became, inside⟩⟩ := h.exists_of_mem_subtrees hk'
  · exact (node k hk k' became).2
  · exact statement k hk ks became k' inside

end Rebuilt

namespace Rebuilder

variable {f : Type → Type} [Monad f]

/-- A rebuilder that makes up no string, with `P` for the strings that are carried. -/
abbrev KeepsStrings (w : Rebuilder f) (o : Outcome f) (chains : Prop) (P : String → Prop) : Prop :=
  w.Establishes o (Carries chains P) (fun n m => Keeps n m ∧ m.Carries chains P)
    fun _ ms => ∀ m ∈ ms, m.Carries chains P

theorem keepsStrings_of_node {w : Rebuilder f} {o : Outcome f} (same : w.statement = keep.statement)
    (node : ∀ {n x}, o.Ensures x (fun m => Keeps n m ∧ m.Carries chains P) →
      o.Ensures (w.node n x) fun m => Keeps n m ∧ m.Carries chains P) :
    w.KeepsStrings o chains P where
  below h _ hk := h.subtree hk
  node before hx := by
    refine node (o.mono hx fun m rebuilt => ⟨rebuilt.keeps, ?_⟩)
    exact rebuilt.carries before.own (fun _ _ _ h => h) fun _ _ _ h => h
  statement _ hx := by
    rw [same]
    exact o.bind hx fun _ h => o.pure (by simpa using h.2)

theorem keeps_var {p q : List String}
    (h : (Node.var p).holdsName = true → (Node.var q).holdsName = true) :
    Keeps (.var p) (.var q) ∧ (Node.var q).Carries chains P :=
  ⟨⟨fun _ => id, h⟩, carries_var⟩

theorem holdsName_path {r : Renaming}
    (keeps : ∀ x, "_var".toList <:+ x.toList → "_var".toList <:+ (r.apply x).toList)
    {p : List String} (h : (Node.var p).holdsName = true) : (Node.var (r.path p)).holdsName = true := by
  cases p with
  | nil => exact h
  | cons x rest => exact holdsName_var.mpr (keeps x (holdsName_var.mp h))

theorem keepsStrings_renameRoots {r : Renaming}
    (keeps : ∀ x, "_var".toList <:+ x.toList → "_var".toList <:+ (r.apply x).toList) :
    (renameRoots r).KeepsStrings .id chains P := by
  refine keepsStrings_of_node rfl fun {n x} h => ?_
  cases n with
  | var p => exact keeps_var (holdsName_path keeps)
  | _ => exact h

theorem keepsStrings_substitution {r : Renaming}
    (keeps : ∀ x, "_var".toList <:+ x.toList → "_var".toList <:+ (r.apply x).toList)
    {block : List Node} (given : ∀ b ∈ block, b.Carries chains P) :
    (Inlining.substitution r block).KeepsStrings .id chains P := by
  refine keepsStrings_of_node rfl fun {n} {x : Node} (h : Keeps n x ∧ x.Carries chains P) => ?_
  show Keeps n ((Inlining.substitution r block).node n x) ∧
    Carries chains P ((Inlining.substitution r block).node n x)
  unfold Inlining.substitution
  dsimp only
  split
  · exact keeps_var (holdsName_path keeps)
  · exact ⟨.of_plain rfl rfl, carries_list.mpr given⟩
  · exact ⟨⟨h.1.string, h.1.name⟩, carries_loop.mpr (carries_loop.mp h.2)⟩
  · exact h

theorem keepsStrings_useStatusObject :
    LoopVariable.rebuilder.KeepsStrings (.reader Bool) chains P := by
  refine keepsStrings_of_node rfl fun {n x} h inside => ?_
  cases n with
  | var p =>
    cases inside
    · exact keeps_var id
    · refine keeps_var fun holds => ?_
      unfold LoopVariable.path
      split
      · exact holds
      · exact holds
  | loop => exact h true
  | _ => exact h inside

theorem keepsStrings_speller : StringBuilding.speller.KeepsStrings .id chains P := by
  refine keepsStrings_of_node rfl fun {n x} h => ?_
  show Keeps n (StringBuilding.speller.node n x) ∧
    Carries chains P (StringBuilding.speller.node n x)
  unfold StringBuilding.speller
  dsimp only
  split
  · exact ⟨.of_plain rfl rfl, carries_operator⟩
  · exact h

end Rebuilder

/-! ### Emptiness tests -/

namespace Emptiness

theorem carries_emptyTest {subject : Node} (h : subject.Carries False P) :
    (emptyTest subject).Carries False P := by
  simp [emptyTest, h]

theorem carries_filledTest {subject : Node} (h : subject.Carries False P) :
    (filledTest subject).Carries False P := by
  simp [filledTest, h]

theorem carries_asText {subject : Node} (h : subject.Carries False P) :
    (asText subject).Carries False P := by
  simp [asText, h]

theorem componentwise_carries : Componentwise (Carries False P) where
  var p h := by
    simp [affirmed, denied, Node.string, carries_filledTest h, carries_emptyTest h,
      carries_asText h]
  expression _ := carries_unchained.mp
  condition _ := carries_condition
  group _ := carries_group

theorem keepsStrings : rebuilder.KeepsStrings .id False P := by
  refine Rebuilder.keepsStrings_of_node rfl
    fun {n} {x : Node} (h : Keeps n x ∧ x.Carries False P) => ?_
  show Keeps n (rebuilder.node n x) ∧ Carries False P (rebuilder.node n x)
  obtain ⟨keeps, carries⟩ := h
  -- only a node that holds no name can have become a chain or a branching
  have plain : x.holdsName = false → n.holdsName = false := by
    intro other
    cases holds : n.holdsName with
    | false => rfl
    | true => exact (keeps.name holds).symm.trans other
  cases x with
  | expression chain =>
    show Keeps n ((test? chain).getD (.expression chain)) ∧
      Carries False P ((test? chain).getD (.expression chain))
    cases test : test? chain with
    | none => exact ⟨keeps, carries⟩
    | some made =>
      obtain ⟨subject, inside, made⟩ := exists_of_test? test
      have member := carries_unchained.mp carries subject inside
      rcases made with rfl | rfl
      · exact ⟨.of_plain (plain rfl) rfl, carries_filledTest member⟩
      · exact ⟨.of_plain (plain rfl) rfl, carries_emptyTest member⟩
  | branch c ys ns =>
    obtain ⟨hc, bodies⟩ := List.forall_mem_cons.mp (carries_branch.mp carries)
    refine ⟨.of_plain (plain rfl) rfl, carries_branch.mpr ?_⟩
    exact List.forall_mem_cons.mpr ⟨componentwise_carries.truth c hc, bodies⟩
  | _ => exact ⟨keeps, carries⟩

end Emptiness

/-! ### String building -/

namespace StringBuilding

theorem carries_pieces {n : Node} (h : n.Carries True P) : ∀ p ∈ pieces n, p.Carries True P := by
  intro p hp
  cases isPiece_of_mem_pieces hp with
  | whole => exact h
  | @term target t chain op same ht =>
    subst same
    have parts := (carries_iff.mp h).2
    have members := parts (.expression chain) (by simp [subtrees])
    refine carries_iff.mpr ⟨fun _ => members.own trivial t ht, ?_⟩
    simpa [subtrees] using ⟨parts target (by simp [subtrees]), members.subtree ht⟩
  | @joined target chain joined same origin =>
    subst same
    have parts := (carries_iff.mp h).2
    have members := parts (.expression chain) (by simp [subtrees])
    have value : (expression joined).Carries True P := by
      refine carries_iff.mpr ⟨fun _ m hm s hs => ?_, fun m hm => ?_⟩
      · rcases origin m hm with rfl | hm
        · cases hs
        · exact members.own trivial m hm s hs
      · rcases origin m hm with rfl | hm
        · exact carries_operator
        · exact members.subtree hm
    refine carries_iff.mpr ⟨fun _ s hs => ?_, ?_⟩
    · cases hs
    · simpa [subtrees] using ⟨parts target (by simp [subtrees]), value⟩

theorem establishes_strings : splitter.Establishes (.except ShapeFault)
    (fun n => n.WellBuilt ∧ n.Carries True P)
    (fun n m => Fits n m ∧ Keeps n m ∧ m.Carries True P)
    fun _ ms => BuiltBody ms ∧ ∀ m ∈ ms, m.Carries True P :=
  establishes_of_pieces (fun h _ hk => h.subtree hk)
    (fun h rebuilt => ⟨rebuilt.keeps, rebuilt.carries h.own (fun _ _ _ h => h) fun _ _ _ h => h⟩)
    fun _ h => carries_pieces h.2

end StringBuilding

/-! ### Whole trees -/

namespace Node.Carries

variable {n m : Node}

theorem renameRoots {r : Renaming} (h : n.Carries chains P)
    (keeps : ∀ x, "_var".toList <:+ x.toList → "_var".toList <:+ (r.apply x).toList) :
    (n.renameRoots r).Carries chains P :=
  ((Rebuilder.keepsStrings_renameRoots keeps).run n h).2

theorem useStatusObject (h : n.Carries chains P) : n.useStatusObject.Carries chains P :=
  (Rebuilder.keepsStrings_useStatusObject.run n h false).2

theorem useEmptiness (h : n.Carries False P) : n.useEmptiness.Carries False P :=
  (Emptiness.keepsStrings.run n h).2

theorem splitStringBuilding (h : n.Carries True P) (built : n.WellBuilt)
    (split : n.splitStringBuilding = .ok m) : m.Carries True P := by
  obtain ⟨k, run, -, -, carries⟩ := StringBuilding.establishes_strings.run n ⟨built, h⟩
  rw [Node.splitStringBuilding, run] at split
  cases split
  exact (Rebuilder.keepsStrings_speller.run k carries).2

end Node.Carries

/-! ### Inlining -/

/-- All strings that the macros of the library carry fulfil `P`. -/
def Library.Carries (P : String → Prop) (lib : Library) : Prop :=
  ∀ d ∈ lib, d.parameters.Carries True P ∧ ∀ b ∈ d.body, b.Carries True P

theorem Definition.carries_of_ofNode? {n : Node} {d : Definition} (h : n.Carries True P)
    (made : ofNode? n = some d) : d.parameters.Carries True P ∧ ∀ b ∈ d.body, b.Carries True P := by
  cases n with
  | macroDef name p body doc =>
    cases made
    exact ⟨h.subtree List.mem_cons_self, fun k hk => h.subtree (List.mem_cons_of_mem _ hk)⟩
  | _ => cases made

namespace Inlining

theorem suffix_boundName (owner x : String) : x.toList <:+ (boundName owner x).toList :=
  ⟨(underscored owner ++ "_").toList, by simp [boundName]⟩

theorem suffix_freshNames (d : Definition) (x : String) (h : "_var".toList <:+ x.toList) :
    "_var".toList <:+ ((freshNames d).apply x).toList := by
  unfold Renaming.apply freshNames
  split
  · exact h.trans (suffix_boundName d.name x)
  · exact h

theorem holdsName_boundName (owner : String) :
    (Node.var [boundName owner "var"]).holdsName = true := by
  refine holdsName_var.mpr ⟨(underscored owner).toList, ?_⟩
  simp [boundName]

theorem keeps_substitute (d : Definition) {block : List Node} {n : Node} (h : n.Carries chains P)
    (given : ∀ b ∈ block, b.Carries chains P) :
    Keeps n (substitute d block n) ∧ (substitute d block n).Carries chains P :=
  (Rebuilder.keepsStrings_substitution (suffix_freshNames d) given).run n h

theorem Carries.inside {lib : Library} (h : lib.Carries P) (n : Node) :
    (inside lib n).Carries P := fun d hd => h d (inside_subset lib n hd)

theorem inductive_carries (P : String → Prop) : Inductive
    (fun lib n => ∀ m, lib.Carries P → n.Carries True P → node lib n = .ok m →
      Keeps n m ∧ m.Carries True P)
    fun lib n => ∀ m, lib.Carries P → n.Carries True P → statement lib n = .ok m →
      m.Carries True P where
  parts {lib n} outside elements m known code h := by
    have known := Carries.inside known n
    have rebuilt : Rebuilt (fun k k' => Keeps k k' ∧ k'.Carries True P)
        (fun _ ks => ∀ k' ∈ ks, k'.Carries True P) n m := by
      refine (rebuilt_of_node h).imp (fun k hk k' inlined => ?_) fun k hk ks => ?_
      · exact outside k hk k' known (code.subtree (mem_subtrees_of_mem_outside hk)) inlined
      · rintro ⟨k', stated, rfl⟩
        have code := code.subtree (mem_subtrees_of_mem_elements hk)
        simpa using elements k hk k' known code stated
    exact ⟨rebuilt.keeps, rebuilt.carries code.own (fun _ _ _ h => h) fun _ _ _ h => h⟩
  kept {lib n} absent own m known code h := by
    rw [statement_of_absent absent] at h
    exact (own m known code h).2
  expanded {lib n arguments c block d} called found ofBlock ofArgument ofCode m known code h := by
    obtain ⟨content, settings, statements, rfl, expands⟩ := called.exists_expands found h
    have definition := known d (List.mem_of_find?_eq_some found)
    have call := code.part called.mem_preorder
    have given : ∀ b ∈ content, b.Carries True P := by
      intro k' hk'
      obtain ⟨k, hk, stated⟩ := mem_of_body expands.inner k' hk'
      exact ofBlock k hk k' known (call.subtree (List.mem_cons_of_mem _ hk)) stated
    refine carries_list.mpr (List.forall_mem_append.mpr ⟨fun k' hk' => ?_, fun k' hk' => ?_⟩)
    · obtain ⟨x, v, rfl, setting⟩ := mem_of_bindings expands.bound k' hk'
      -- an argument called `var` can only be bound to the variable for that parameter
      have counts : (Node.var [boundName d.name x]).holdsName = false → x ≠ "var" := by
        rintro other rfl
        cases (holdsName_boundName d.name).symm.trans other
      suffices value : (x ≠ "var" → ∀ s, v.stringText? = some s → P s) ∧ v.Carries True P by
        refine carries_iff.mpr ⟨fun other => value.1 (counts other), ?_⟩
        simpa [subtrees] using value.2
      cases setting with
      | @passed name w _ _ argument named inlined =>
        have passed := (call.subtree List.mem_cons_self).part (preorder_of_parameterList argument)
        have value := ofArgument w (preorder_of_given argument) v known
          (passed.subtree (by simp [subtrees])) inlined
        refine ⟨fun other s hs => passed.own ?_ s (value.1.string s hs), value.2⟩
        rcases named with rfl | rfl
        · exact fun same => other (Option.some.inj same)
        · exact Option.some_ne_none _ ∘ Eq.symm
      | @default w declared =>
        have parameter := definition.1.part (preorder_of_parameterList declared)
        have value := keeps_substitute d (parameter.subtree (k := w) (by simp [subtrees])) given
        refine ⟨fun other s hs => parameter.own ?_ s (value.1.string s hs), value.2⟩
        exact fun same => other (Option.some.inj same)
      | null =>
        refine ⟨fun _ s hs => ?_, carries_literal⟩
        cases hs
    · obtain ⟨k, hk, stated⟩ := mem_of_body expands.code k' hk'
      obtain ⟨b, hb, rfl⟩ := List.mem_map.mp hk
      have rest : (lib.without c).Carries P := fun d hd => known d (without_subset lib c hd)
      exact ofCode _ k' rest (keeps_substitute d (definition.2 b hb) given).2 stated

theorem keeps_of_node {lib : Library} {n m : Node} (known : lib.Carries P) (code : n.Carries True P)
    (h : node lib n = .ok m) : Keeps n m ∧ m.Carries True P :=
  (inductive_carries P).node lib n m known code h

end Inlining
end TagCompiler
