import TagCompiler.Proofs.Rebuilding
import TagCompiler.Proofs.StatementCalls
/-!
# Inlining, subtree by subtree

A node is put together from its subtrees, of which some are the statements of its bodies. Inlining
replaces each subtree by what becomes of it and keeps the rest of the node, so that two runs of it
can be compared subtree by subtree. In particular it says which code inlining leaves as it is: that
in which no statement calls a macro that is in the library there.

What holds of all code that is inlined is shown by one induction, `Inductive`: over the subtrees of a
node, and at a call over its block, its arguments and the code of the macro, which is inlined with
one macro less.
-/

namespace TagCompiler

open Grammar

namespace Inlining

open Node

/-! ### Nodes -/

/-- The macros that may be expanded inside a node. -/
def inside (lib : Library) : Node → Library
  | .macroDef name _ _ _ => lib.without name
  | _ => lib

theorem length_inside_le (lib : Library) (n : Node) : (inside lib n).length ≤ lib.length := by
  cases n with
  | macroDef name => exact lib.length_without_le name
  | _ => exact Nat.le_refl _

theorem without_subset (lib : Library) (m : String) : lib.without m ⊆ lib :=
  List.filter_subset_self _

theorem inside_subset (lib : Library) (n : Node) : inside lib n ⊆ lib := by
  cases n with
  | macroDef name => exact without_subset lib name
  | _ => exact List.Subset.refl lib

theorem inside_replace (lib : Library) (n : Node) (outs stats : List Node) :
    inside lib (n.replace outs stats) = inside lib n := by
  cases n with
  | parameter name value => cases value <;> rfl
  | _ => rfl

theorem forall₂_of_all {lib : Library} {ns ms : List Node} (h : all lib ns = .ok ms) :
    List.Forall₂ (fun k k' => node lib k = .ok k') ns ms := by
  induction ns generalizing ms with
  | nil =>
    rw [all] at h
    cases h
    exact .nil
  | cons n ns ih =>
    rw [all] at h
    obtain ⟨m, hm, h⟩ := ok_of_bind h
    obtain ⟨ms, hms, h⟩ := ok_of_bind h
    cases h
    exact .cons hm (ih hms)

/-- A statement becomes one statement. -/
def BecomesStatement (lib : Library) (n : Node) (ms : List Node) : Prop :=
  ∃ m, statement lib n = .ok m ∧ ms = [m]

theorem bodyRebuilt_of_body {lib : Library} {ns ms : List Node} (h : body lib ns = .ok ms) :
    BodyRebuilt (BecomesStatement lib) ns ms := by
  induction ns generalizing ms with
  | nil =>
    rw [body] at h
    cases h
    exact .nil
  | cons n ns ih =>
    rw [body] at h
    obtain ⟨m, hm, h⟩ := ok_of_bind h
    obtain ⟨ms, hms, h⟩ := ok_of_bind h
    cases h
    exact .cons ⟨m, hm, rfl⟩ (ih hms)

theorem all_eq_ok_iff {lib : Library} {ns ms : List Node} :
    all lib ns = .ok ms ↔ List.Forall₂ (fun n m => node lib n = .ok m) ns ms := by
  refine ⟨forall₂_of_all, fun h => ?_⟩
  induction h with
  | nil => rw [all]
  | cons first _ ih =>
    rw [all, first, ih]
    rfl

theorem forall₂_of_bodyRebuilt {lib : Library} {ns ms : List Node}
    (h : BodyRebuilt (BecomesStatement lib) ns ms) :
    List.Forall₂ (fun n m => statement lib n = .ok m) ns ms := by
  induction h with
  | nil => exact .nil
  | cons first _ ih =>
    obtain ⟨m, stated, rfl⟩ := first
    exact .cons stated ih

theorem body_eq_ok_iff {lib : Library} {ns ms : List Node} :
    body lib ns = .ok ms ↔ List.Forall₂ (fun n m => statement lib n = .ok m) ns ms := by
  refine ⟨fun h => forall₂_of_bodyRebuilt (bodyRebuilt_of_body h), fun h => ?_⟩
  induction h with
  | nil => rw [body]
  | cons first _ ih =>
    rw [body, first, ih]
    rfl

theorem mem_of_body {lib : Library} {ns ms : List Node} (h : body lib ns = .ok ms) :
    ∀ m ∈ ms, ∃ n ∈ ns, statement lib n = .ok m :=
  fun _ hm => exists_of_mem_right (body_eq_ok_iff.mp h) hm

/-- Inlining puts a node together from what becomes of its subtrees. -/
theorem rebuilt_of_node {lib : Library} {n m : Node} (h : node lib n = .ok m) :
    Rebuilt (fun k k' => node (inside lib n) k = .ok k') (BecomesStatement (inside lib n)) n m := by
  cases n with
  | parameter name value =>
    cases value with
    | none =>
      rw [node.eq_def] at h
      cases h
      exact .leaf rfl
    | some v =>
      rw [node] at h
      obtain ⟨v', hv, h⟩ := ok_of_bind h
      cases h
      exact .parameter hv
  | parameters cs =>
    rw [node] at h
    obtain ⟨cs', hcs, h⟩ := ok_of_bind h
    cases h
    exact .parameters (forall₂_of_all hcs)
  | array cs =>
    rw [node] at h
    obtain ⟨cs', hcs, h⟩ := ok_of_bind h
    cases h
    exact .array (forall₂_of_all hcs)
  | condition cs =>
    rw [node] at h
    obtain ⟨cs', hcs, h⟩ := ok_of_bind h
    cases h
    exact .condition (forall₂_of_all hcs)
  | expression cs =>
    rw [node] at h
    obtain ⟨cs', hcs, h⟩ := ok_of_bind h
    cases h
    exact .expression (forall₂_of_all hcs)
  | group cs =>
    rw [node] at h
    obtain ⟨cs', hcs, h⟩ := ok_of_bind h
    cases h
    exact .group (forall₂_of_all hcs)
  | output cs =>
    rw [node] at h
    obtain ⟨cs', hcs, h⟩ := ok_of_bind h
    cases h
    exact .output (forall₂_of_all hcs)
  | call name p cs =>
    rw [node] at h
    obtain ⟨p', hp, h⟩ := ok_of_bind h
    obtain ⟨cs', hcs, h⟩ := ok_of_bind h
    cases h
    exact .call hp (bodyRebuilt_of_body hcs)
  | macroDef name p cs d =>
    rw [node] at h
    obtain ⟨p', hp, h⟩ := ok_of_bind h
    obtain ⟨cs', hcs, h⟩ := ok_of_bind h
    cases h
    exact .macroDef hp (bodyRebuilt_of_body hcs)
  | loop k x v cs =>
    rw [node] at h
    obtain ⟨v', hv, h⟩ := ok_of_bind h
    obtain ⟨cs', hcs, h⟩ := ok_of_bind h
    cases h
    exact .loop hv (bodyRebuilt_of_body hcs)
  | assign t v op =>
    rw [node] at h
    obtain ⟨t', ht, h⟩ := ok_of_bind h
    obtain ⟨v', hv, h⟩ := ok_of_bind h
    cases h
    exact .assign ht hv
  | filter name v p =>
    rw [node] at h
    obtain ⟨v', hv, h⟩ := ok_of_bind h
    obtain ⟨p', hp, h⟩ := ok_of_bind h
    cases h
    exact .filter hv hp
  | branch c ys ns =>
    rw [node] at h
    obtain ⟨c', hc, h⟩ := ok_of_bind h
    obtain ⟨ys', hys, h⟩ := ok_of_bind h
    obtain ⟨ns', hns, h⟩ := ok_of_bind h
    cases h
    exact .branch hc (bodyRebuilt_of_body hys) (bodyRebuilt_of_body hns)
  | list cs =>
    rw [node] at h
    obtain ⟨cs', hcs, h⟩ := ok_of_bind h
    cases h
    exact .list (bodyRebuilt_of_body hcs)
  | data | literal | text | var | operator | connective | yield =>
    rw [node.eq_def] at h
    cases h
    exact .leaf rfl

theorem macroName?_of_node {lib : Library} {n m : Node} (h : node lib n = .ok m) :
    m.macroName? = n.macroName? := by
  cases rebuilt_of_node h <;> rfl

theorem call_of_node {lib : Library} {n p : Node} {c : String} {cs : List Node}
    (h : node lib n = .ok (.call c p cs)) : ∃ q ds, n = .call c q ds := by
  cases rebuilt_of_node h with
  | leaf leaf => cases leaf
  | call => exact ⟨_, _, rfl⟩

/-- The subtrees of a node become those of the other one. -/
structure Becomes (lib : Library) (n : Node) (outs stats : List Node) : Prop where
  outs : List.Forall₂ (fun k k' => node (inside lib n) k = .ok k') n.outside outs
  stats : List.Forall₂ (fun k k' => statement (inside lib n) k = .ok k') n.elements stats

theorem Becomes.fit {lib : Library} {n : Node} {outs stats : List Node}
    (h : Becomes lib n outs stats) : n.Fit outs stats :=
  ⟨h.outs.length_eq.symm, h.stats.length_eq.symm⟩

theorem becomes_of_node {lib : Library} {n m : Node} (h : node lib n = .ok m) :
    ∃ outs stats, Becomes lib n outs stats ∧ m = n.replace outs stats := by
  refine ⟨m.outside, m.elements, ?_⟩
  cases rebuilt_of_node h with
  | leaf leaf =>
    have none : n.outside ++ n.elements = [] :=
      n.subtrees_eq_append ▸ Node.subtrees_of_isLeaf leaf
    obtain ⟨noPart, noElement⟩ := List.append_eq_nil_iff.mp none
    refine ⟨⟨?_, ?_⟩, n.replace_self.symm⟩
    · rw [noPart]
      exact .nil
    · rw [noElement]
      exact .nil
  | parameter hv => exact ⟨⟨.cons hv .nil, .nil⟩, rfl⟩
  | parameters parts | array parts | condition parts | expression parts | group parts
  | output parts => exact ⟨⟨parts, .nil⟩, rfl⟩
  | call hp body | macroDef hp body | loop hp body =>
    exact ⟨⟨.cons hp .nil, forall₂_of_bodyRebuilt body⟩, rfl⟩
  | assign ht hv | filter ht hv => exact ⟨⟨.cons ht (.cons hv .nil), .nil⟩, rfl⟩
  | branch hc yes no =>
    have yes := forall₂_of_bodyRebuilt yes
    have stats := List.rel_append yes (forall₂_of_bodyRebuilt no)
    exact ⟨⟨.cons hc .nil, stats⟩, by simp [replace, outside, elements, yes.length_eq]⟩
  | list body => exact ⟨⟨.nil, forall₂_of_bodyRebuilt body⟩, rfl⟩

theorem Becomes.node_eq {lib : Library} {n : Node} {outs stats : List Node}
    (h : Becomes lib n outs stats) : node lib n = .ok (n.replace outs stats) := by
  obtain ⟨ho, hs⟩ := h
  cases n
  all_goals simp only [inside, outside, elements, Node.subtrees, Node.children] at ho hs
  case parameter name value =>
    cases value with
    | none =>
      rw [node.eq_def]
      rfl
    | some v =>
      obtain _ | ⟨hv, ⟨⟩⟩ := ho
      rw [node, hv]
      rfl
  case parameters | array | condition | expression | group | output =>
    rw [node, all_eq_ok_iff.mpr ho]
    rfl
  case call | macroDef | loop =>
    obtain _ | ⟨hp, ⟨⟩⟩ := ho
    rw [node, hp, body_eq_ok_iff.mpr hs]
    rfl
  case assign | filter =>
    obtain _ | ⟨ht, _ | ⟨hv, ⟨⟩⟩⟩ := ho
    rw [node, ht, hv]
    rfl
  case branch c ys ns =>
    obtain _ | ⟨hc, ⟨⟩⟩ := ho
    have yes := List.forall₂_take ys.length hs
    have no := List.forall₂_drop ys.length hs
    rw [List.take_left] at yes
    rw [List.drop_left] at no
    rw [node, hc, body_eq_ok_iff.mpr yes, body_eq_ok_iff.mpr no]
    rfl
  case list =>
    rw [node, body_eq_ok_iff.mpr hs]
    rfl
  all_goals
    rw [node.eq_def]
    rfl

/-! ### Statements and expansions -/

/-- A statement that is nothing but a call. -/
inductive IsCallOf (c : String) (arguments : Node) (block : List Node) : Node → Prop
  | call : IsCallOf c arguments block (.call c arguments block)
  | output : IsCallOf c arguments block (.output [.call c arguments block])

theorem IsCallOf.statementCallee? {c : String} {arguments n : Node} {block : List Node}
    (h : IsCallOf c arguments block n) : n.statementCallee? = some c := by
  cases h <;> rfl

theorem IsCallOf.mem_preorder {c : String} {arguments n : Node} {block : List Node}
    (h : IsCallOf c arguments block n) : .call c arguments block ∈ n.preorder := by
  cases h with
  | call => exact mem_preorder_self _
  | output => exact preorder_subset (List.mem_singleton_self _) (mem_preorder_self _)

theorem exists_isCallOf {n : Node} {c : String} (h : n.statementCallee? = some c) :
    ∃ arguments block, IsCallOf c arguments block n := by
  unfold Node.statementCallee? at h
  split at h
  · cases h
    exact ⟨_, _, .call⟩
  · cases h
    exact ⟨_, _, .output⟩
  · cases h

/-- A node that becomes a call was one. -/
theorem statementCallee?_of_node {lib : Library} {n m : Node} {c : String}
    (h : node lib n = .ok m) (called : m.statementCallee? = some c) :
    n.statementCallee? = some c := by
  obtain ⟨arguments, block, isCall⟩ := exists_isCallOf called
  cases isCall with
  | call =>
    obtain ⟨q, ds, rfl⟩ := call_of_node h
    rfl
  | output =>
    cases rebuilt_of_node h with
    | leaf leaf => cases leaf
    | output parts =>
      obtain _ | ⟨part, ⟨⟩⟩ := parts
      obtain ⟨q, ds, rfl⟩ := call_of_node part
      rfl

theorem IsCallOf.statement_eq {lib : Library} {c : String} {arguments n : Node} {block : List Node}
    {d : Definition} (h : IsCallOf c arguments block n) (found : lib.find? c = some d) :
    statement lib n =
      expand lib ⟨d, lib.without c, Library.length_without_lt found⟩ arguments block := by
  cases h with
  | call => rw [statement, Meaning.extract?_of_find? found]
  | output => rw [statement, Meaning.extract?_of_find? found]

theorem statement_list (lib : Library) (cs : List Node) :
    statement lib (.list cs) = node lib (.list cs) :=
  statement_of_absent fun _ called => by cases called

/-- The parts of the list that a call of the macro `d` becomes. -/
structure Expands (lib rest : Library) (d : Definition) (arguments : Node) (block : List Node)
    (content settings statements : List Node) : Prop where
  few : (positionals arguments).length ≤ d.declared.length
  inner : body lib block = .ok content
  bound : bindings lib d content arguments 0 d.declared = .ok settings
  code : body rest (d.body.map (substitute d content)) = .ok statements

theorem expand_eq_ok_iff {lib : Library} {e : lib.Extracted} {arguments m : Node}
    {block : List Node} : expand lib e arguments block = .ok m ↔
      ∃ content settings statements, m = .list (settings ++ statements) ∧
        Expands lib e.rest e.definition arguments block content settings statements := by
  rw [expand]
  dsimp only
  constructor
  · intro h
    split at h
    · cases h
    · rename_i few
      obtain ⟨content, hc, h⟩ := ok_of_bind h
      obtain ⟨settings, hs, h⟩ := ok_of_bind h
      obtain ⟨statements, hb, h⟩ := ok_of_bind h
      cases h
      exact ⟨content, settings, statements, rfl, Nat.not_lt.mp few, hc, hs, hb⟩
  · rintro ⟨content, settings, statements, rfl, few, hc, hs, hb⟩
    rw [if_neg (Nat.not_lt.mpr few)]
    show (body lib block >>= _) = _
    rw [hc]
    show (bindings lib e.definition content arguments 0 e.definition.declared >>= _) = _
    rw [hs]
    show (body e.rest (e.definition.body.map (substitute e.definition content)) >>= _) = _
    rw [hb]
    rfl

/-- What an expanded call becomes. -/
theorem IsCallOf.exists_expands {lib : Library} {c : String} {arguments n m : Node}
    {block : List Node} {d : Definition} (h : IsCallOf c arguments block n)
    (found : lib.find? c = some d) (stated : statement lib n = .ok m) :
    ∃ content settings statements, m = .list (settings ++ statements) ∧
      Expands lib (lib.without c) d arguments block content settings statements := by
  rw [h.statement_eq found] at stated
  exact expand_eq_ok_iff.mp stated

/-- A statement is a call that can be expanded, or it is inlined like any other node. -/
theorem absent_or_exists_isCallOf (lib : Library) (n : Node) :
    (∀ c, n.statementCallee? = some c → lib.find? c = none) ∨
      ∃ c arguments block d, IsCallOf c arguments block n ∧ lib.find? c = some d := by
  by_cases known : ∃ c d, n.statementCallee? = some c ∧ lib.find? c = some d
  · obtain ⟨c, d, callee, found⟩ := known
    obtain ⟨arguments, block, called⟩ := exists_isCallOf callee
    exact .inr ⟨c, arguments, block, d, called, found⟩
  · exact .inl fun c callee =>
      Option.eq_none_iff_forall_ne_some.mpr fun d found => known ⟨c, d, callee, found⟩

/-- The value that a parameter is set to. -/
def settingValue (lib : Library) (d : Definition) (block : List Node) (arguments : Node)
    (place : Nat) (x : String) (default : Option Node) : Except Surplus Node :=
  match value? arguments x place, default with
  | some v, _ => node lib v.1
  | none, some w => .ok (substitute d block w)
  | none, none => .ok .null

theorem bindings_named (lib : Library) (d : Definition) (block : List Node) (arguments : Node)
    (place : Nat) (x : String) (default : Option Node) (ps : List Node) :
    bindings lib d block arguments place (.parameter (some x) default :: ps) =
      settingValue lib d block arguments place x default >>= fun v =>
        bindings lib d block arguments (place + 1) ps >>= fun more =>
          .ok (.assign (.var [boundName d.name x]) v .set :: more) := by
  rw [bindings.eq_def, settingValue.eq_def]
  dsimp only
  rcases value? arguments x place with _ | ⟨v, small⟩
  · cases default <;> rfl
  · rfl

theorem bindings_unnamed {p : Node} (unnamed : parameterName? p = none) (lib : Library)
    (d : Definition) (block : List Node) (arguments : Node) (place : Nat) (ps : List Node) :
    bindings lib d block arguments place (p :: ps) =
      bindings lib d block arguments (place + 1) ps := by
  rw [bindings.eq_def]
  split
  · rename_i nil
    cases nil
  · rename_i x default qs heq
    obtain ⟨rfl, rfl⟩ := List.cons.inj heq
    cases unnamed
  · rename_i other qs notNamed heq
    obtain ⟨rfl, rfl⟩ := List.cons.inj heq
    rfl

/-! ### Induction -/

/-- `N` of a node is shown from its parts. `S` of a statement is shown from `N` of the node if it is
no call that can be expanded, and otherwise from all that the expansion inlines. -/
structure Inductive (N S : Library → Node → Prop) : Prop where
  parts : ∀ {lib : Library} {n : Node}, (∀ k ∈ n.outside, N (inside lib n) k) →
    (∀ k ∈ n.elements, S (inside lib n) k) → N lib n
  kept : ∀ {lib : Library} {n : Node}, (∀ c, n.statementCallee? = some c → lib.find? c = none) →
    N lib n → S lib n
  expanded : ∀ {lib : Library} {n arguments : Node} {c : String} {block : List Node}
    {d : Definition}, IsCallOf c arguments block n → lib.find? c = some d → (∀ k ∈ block, S lib k) →
    (∀ v ∈ arguments.preorder, N lib v) → (∀ k, S (lib.without c) k) → S lib n

namespace Inductive

variable {N S : Library → Node → Prop}

mutual

theorem node (h : Inductive N S) (lib : Library) (n : Node) : N lib n := by
  have shorter := length_inside_le lib n
  refine h.parts (fun k hk => ?_) fun k hk => ?_
  · have smaller := sizeOf_lt_of_mem_subtrees (mem_subtrees_of_mem_outside hk)
    exact h.node (inside lib n) k
  · have smaller := sizeOf_lt_of_mem_subtrees (mem_subtrees_of_mem_elements hk)
    exact h.statement (inside lib n) k
termination_by (lib.length, sizeOf n, 0)
decreasing_by all_goals exact Prod.Lex.right' _ shorter (.left _ _ smaller)

theorem statement (h : Inductive N S) (lib : Library) (n : Node) : S lib n := by
  rcases absent_or_exists_isCallOf lib n with absent | ⟨c, arguments, block, d, called, found⟩
  · exact h.kept absent (h.node lib n)
  · have callSize := sizeOf_le_of_mem_preorder called.mem_preorder
    have shorter := Library.length_without_lt found
    refine h.expanded called found (fun k hk => ?_) (fun v hv => ?_) fun k => ?_
    · have inCall : k ∈ (Node.call c arguments block).subtrees := List.mem_cons_of_mem _ hk
      have smaller := Nat.lt_of_lt_of_le (sizeOf_lt_of_mem_subtrees inCall) callSize
      exact h.statement lib k
    · have inCall : arguments ∈ (Node.call c arguments block).subtrees := List.mem_cons_self
      have smaller := Nat.lt_of_le_of_lt (sizeOf_le_of_mem_preorder hv)
        (Nat.lt_of_lt_of_le (sizeOf_lt_of_mem_subtrees inCall) callSize)
      exact h.node lib v
    · exact h.statement (lib.without c) k
termination_by (lib.length, sizeOf n, 1)
decreasing_by
  · exact .right _ (.right _ Nat.one_pos)
  · exact .right _ (.left _ _ smaller)
  · exact .right _ (.left _ _ smaller)
  · exact .left _ _ shorter

end

end Inductive

/-! ### Code that stays as it is -/

/-- No statement of the code calls a macro that is in the library at its place. -/
inductive Inert : Library → Node → Prop
  | intro {lib : Library} {n : Node} (statements : ∀ k ∈ n.elements, ∀ c,
      k.statementCallee? = some c → (inside lib n).find? c = none)
      (subtrees : ∀ k ∈ n.subtrees, Inert (inside lib n) k) : Inert lib n

theorem statement_eq_self_iff {lib : Library} {n : Node} : statement lib n = .ok n ↔
    (∀ c, n.statementCallee? = some c → lib.find? c = none) ∧ node lib n = .ok n := by
  constructor
  · intro h
    rcases absent_or_exists_isCallOf lib n with absent | ⟨c, arguments, block, d, called, found⟩
    · exact ⟨absent, statement_of_absent absent ▸ h⟩
    · -- An expansion is a list, and a list is no call.
      obtain ⟨content, settings, statements, rfl, -⟩ := called.exists_expands found h
      cases called
  · rintro ⟨absent, inlined⟩
    rw [statement_of_absent absent, inlined]

theorem node_eq_self_iff {lib : Library} {n : Node} : node lib n = .ok n ↔ Inert lib n := by
  induction n using induction_on_subtrees generalizing lib with
  | step n ih =>
    have outside : ∀ k ∈ n.outside, k ∈ n.subtrees := fun k => mem_subtrees_of_mem_outside
    have elements : ∀ k ∈ n.elements, k ∈ n.subtrees := fun k => mem_subtrees_of_mem_elements
    constructor
    · intro h
      obtain ⟨outs, stats, becomes, same⟩ := becomes_of_node h
      have outs_eq : outs = n.outside :=
        becomes.fit.outside_replace ▸ congrArg Node.outside same.symm
      have stats_eq : stats = n.elements :=
        becomes.fit.elements_replace ▸ congrArg Node.elements same.symm
      have parts := List.forall₂_same.mp (outs_eq ▸ becomes.outs)
      have stated := List.forall₂_same.mp (stats_eq ▸ becomes.stats)
      refine ⟨fun k hk => (statement_eq_self_iff.mp (stated k hk)).1, fun k hk => ?_⟩
      rw [subtrees_eq_append] at hk
      rcases List.mem_append.mp hk with hk | hk
      · exact (ih k (outside k hk)).mp (parts k hk)
      · exact (ih k (elements k hk)).mp (statement_eq_self_iff.mp (stated k hk)).2
    · rintro ⟨uncalled, inert⟩
      have becomes : Becomes lib n n.outside n.elements := by
        refine ⟨List.forall₂_same.mpr fun k hk => ?_, List.forall₂_same.mpr fun k hk => ?_⟩
        · exact (ih k (outside k hk)).mpr (inert k (outside k hk))
        · have part := (ih k (elements k hk)).mpr (inert k (elements k hk))
          exact statement_eq_self_iff.mpr ⟨uncalled k hk, part⟩
      rw [becomes.node_eq, replace_self]

theorem inside_mono {lib part : Library} (sub : part ⊆ lib) (n : Node) :
    inside part n ⊆ inside lib n := by
  cases n with
  | macroDef name => exact List.filter_subset _ sub
  | _ => exact sub

theorem find?_eq_none_of_subset {lib part : Library} {c : String} (sub : part ⊆ lib)
    (absent : lib.find? c = none) : part.find? c = none :=
  List.find?_eq_none.mpr fun d hd => List.find?_eq_none.mp absent d (sub hd)

theorem Inert.mono {lib part : Library} {n : Node} (h : Inert lib n) (sub : part ⊆ lib) :
    Inert part n := by
  induction h generalizing part with
  | @intro lib n statements _ ih =>
    have sub := inside_mono sub n
    refine ⟨fun k hk c called => find?_eq_none_of_subset sub (statements k hk c called), ?_⟩
    exact fun k hk => ih k hk sub

end Inlining
end TagCompiler
