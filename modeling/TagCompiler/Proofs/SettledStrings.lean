import TagCompiler.Proofs.InliningSteps
import TagCompiler.Proofs.StringBuildingMeaning
/-!
# String building is settled after one pass

Splitting an assignment makes new assignments, whose values could be chains that build a string
again. They are not: a term of a chain is at most a negation, and the sign for concatenation does
not join the terms of a string for the pass. So after one run no statement can be split and no `~`
is left, and such a tree is kept as it is.
-/

namespace TagCompiler

open Grammar Node Effects

/-! ### Trees that are kept -/

theorem BodyRebuilt.eq_flatMap {f : Node → List Node} {ns ms : List Node}
    (h : BodyRebuilt (fun n made => made = f n) ns ms) : ms = ns.flatMap f := by
  induction h with
  | nil => rfl
  | cons first _ ih => rw [first, ih, List.flatMap_cons]

theorem flatMap_eq_self {f : Node → List Node} {ns : List Node} (kept : ∀ n ∈ ns, f n = [n]) :
    ns.flatMap f = ns := by
  induction ns with
  | nil => rfl
  | cons n ns ih =>
    obtain ⟨own, others⟩ := List.forall_mem_cons.mp kept
    rw [List.flatMap_cons, own, ih others, List.singleton_append]

/-- A node is kept if its subtrees are, and the statements of its bodies stay single. -/
theorem Rebuilt.eq_self {f : Node → List Node} {n m : Node} (kept : ∀ s ∈ n.elements, f s = [s])
    (h : Rebuilt Eq (fun s made => made = f s) n m) : n = m := by
  have body : ∀ {ns ms : List Node}, BodyRebuilt (fun s made => made = f s) ns ms →
      (∀ s ∈ ns, f s = [s]) → ns = ms := fun made single =>
    (made.eq_flatMap.trans (flatMap_eq_self single)).symm
  have parts : ∀ {ns ms : List Node}, List.Forall₂ Eq ns ms → ns = ms := fun same => by
    rwa [List.forall₂_eq_eq_eq] at same
  cases h with
  | leaf => rfl
  | parameter hv => rw [hv]
  | parameters same | array same | condition same | expression same | group same | output same =>
    rw [parts same]
  | call hp made | macroDef hp made | loop hp made => rw [hp, body made kept]
  | list made => rw [body made kept]
  | assign ht hv | filter ht hv => rw [ht, hv]
  | branch hc yes no =>
    obtain ⟨hys, hns⟩ := List.forall_mem_append.mp kept
    rw [hc, body yes hys, body no hns]

theorem Rebuilt.exists_of_mem_elements {R : Node → Node → Prop} {S : Node → List Node → Prop}
    {n m s : Node} (h : Rebuilt R S n m) (hs : s ∈ m.elements) :
    ∃ j ∈ n.elements, ∃ made, S j made ∧ s ∈ made := by
  cases h with
  | leaf leaf =>
    have inside := mem_subtrees_of_mem_elements hs
    rw [subtrees_of_isLeaf leaf] at inside
    cases inside
  | call _ made | macroDef _ made | loop _ made | list made => exact made.exists_of_mem hs
  | branch _ yes no =>
    rcases List.mem_append.mp hs with hs | hs
    · obtain ⟨j, hj, found⟩ := yes.exists_of_mem hs
      exact ⟨j, List.mem_append_left _ hj, found⟩
    · obtain ⟨j, hj, found⟩ := no.exists_of_mem hs
      exact ⟨j, List.mem_append_right _ hj, found⟩
  | parameter | parameters | array | assign | condition | expression | group | filter | output =>
    cases hs

theorem forall_of_rebuilt {Own : Node → Prop} {R : Node → Node → Prop} {S : Node → List Node → Prop}
    {n m : Node} (h : Rebuilt R S n m) (own : Own m)
    (node : ∀ k k', R k k' → ∀ j ∈ k'.preorder, Own j)
    (statement : ∀ s made, S s made → ∀ p ∈ made, ∀ j ∈ p.preorder, Own j) :
    ∀ j ∈ m.preorder, Own j := by
  refine forall_preorder_iff.mpr ⟨own, fun k hk => ?_⟩
  obtain ⟨j, -, related | ⟨made, related, hk⟩⟩ := h.exists_of_mem_subtrees hk
  · exact node j k related
  · exact statement j made related k hk

namespace StringBuilding

/-- Whether this is a chain that builds a string. -/
def isBuilding : Node → Bool
  | .expression chain => builds chain
  | _ => false

/-- Whether this is a statement to split. -/
def splits : Node → Bool
  | .assign _ value .set => isBuilding value
  | _ => false

theorem pieces_eq_self {n : Node} (h : splits n = false) : pieces n = [n] := by
  unfold pieces
  split
  · rename_i target chain
    have whole : builds chain = false := h
    rw [whole]
    rfl
  · rfl

/-- No statement of a body in the tree is to be split. -/
def Unsplit (n : Node) : Prop := ∀ k ∈ n.preorder, ∀ s ∈ k.elements, splits s = false

theorem unsplit_iff {n : Node} :
    Unsplit n ↔ (∀ s ∈ n.elements, splits s = false) ∧ ∀ k ∈ n.subtrees, Unsplit k :=
  forall_preorder_iff

theorem establishes_pieces : splitter.Establishes (.except ShapeFault)
    (fun n => n.WellBuilt ∧ Unsplit n) (fun n m => Fits n m ∧ n = m)
    fun n ms => BuiltBody ms ∧ ms = pieces n :=
  establishes_of_pieces (fun unsplit => (unsplit_iff.mp unsplit).2)
    (fun unsplit made => made.eq_self fun s hs => pieces_eq_self ((unsplit_iff.mp unsplit).1 s hs))
    fun _ same => congrArg pieces same.symm

theorem speller_node_of_ne {n : Node} (other : n ≠ .operator "~") (x : Id Node) :
    speller.node n x = x := by
  unfold speller
  dsimp only
  split
  · exact absurd rfl other
  · rfl

theorem establishes_spelled : speller.Establishes .id Spelled Eq fun n ms => ms = [n] where
  below h := (forall_preorder_iff.mp h).2
  node {n} {x : Node} spelled made := by
    show n = speller.node n x
    rw [speller_node_of_ne (spelled n n.mem_preorder_self)]
    exact made.eq_self fun _ _ => rfl
  statement _ same := Outcome.id.bind same fun m same => congrArg (fun n => [n]) same.symm

end StringBuilding

/-- A tree in which nothing is to be split or spelled is kept. -/
theorem splitStringBuilding_eq_self {n : Node} (built : n.WellBuilt)
    (unsplit : StringBuilding.Unsplit n) (spelled : Spelled n) : n.splitStringBuilding = .ok n := by
  obtain ⟨m, run, -, same⟩ := StringBuilding.establishes_pieces.run n ⟨built, unsplit⟩
  have kept : n = Id.run (StringBuilding.speller.run n) :=
    StringBuilding.establishes_spelled.run n spelled
  rw [Node.splitStringBuilding, run, ← same]
  exact congrArg Except.ok kept.symm

/-- A body of one statement in which nothing is to be split or spelled becomes the pieces of the
statement. -/
theorem splitStringBuilding_singleton {n : Node} (built : n.WellBuilt)
    (unsplit : StringBuilding.Unsplit n)
    (spelled : ∀ p ∈ StringBuilding.pieces n, Spelled p) :
    (Node.list [n]).splitStringBuilding = .ok (.list (StringBuilding.pieces n)) := by
  obtain ⟨ms, run, made⟩ := StringBuilding.establishes_pieces.runBody [n]
    (List.forall_mem_singleton.mpr ⟨built, unsplit⟩)
  have made : ms = StringBuilding.pieces n := by
    rw [(made.imp fun _ _ _ h => h.2).eq_flatMap, List.flatMap_singleton]
  have split : StringBuilding.splitter.run (.list [n]) = .ok (.list ms) := by
    rw [Rebuilder.run, run]
    rfl
  have all : Spelled (.list ms) :=
    forall_preorder_iff.mpr ⟨by simp, made ▸ spelled⟩
  have kept : Node.list ms = Id.run (StringBuilding.speller.run (.list ms)) :=
    StringBuilding.establishes_spelled.run _ all
  rw [Node.splitStringBuilding, split, ← made]
  exact congrArg Except.ok kept.symm

/-! ### Chains and what becomes of them -/

namespace StringBuilding

/-- What becomes of a node: it is a string literal or a `+` if the node was, and it is a `~`, or
builds a string, or is to be split only if the node was. -/
structure Follows (n m : Node) : Prop where
  literal : isStringLiteral m = isStringLiteral n
  plus : isPlus m = isPlus n
  tilde : isTilde m = true → isTilde n = true
  building : isBuilding m = true → isBuilding n = true
  splitting : splits m = true → splits n = true

theorem Follows.refl (n : Node) : Follows n n := ⟨rfl, rfl, id, id, id⟩

theorem forall₂_terms {R : Node → Node → Prop} : {cs ds : List Node} → List.Forall₂ R cs ds →
    List.Forall₂ R (terms cs) (terms ds) ∧ List.Forall₂ R (joiners cs) (joiners ds)
  | _, _, .nil => ⟨.nil, .nil⟩
  | _, _, .cons h .nil => ⟨.cons h .nil, .nil⟩
  | _, _, .cons h (.cons h' rest) =>
    ⟨.cons h (forall₂_terms rest).1, .cons h' (forall₂_terms rest).2⟩

theorem builds_iff {chain : List Node} : builds chain = true ↔
    (∀ j ∈ joiners chain, isPlus j = true ∨ isTilde j = true) ∧ 1 < (terms chain).length ∧
      ((∃ t ∈ terms chain, isStringLiteral t = true) ∨ ∃ j ∈ joiners chain, isTilde j = true) := by
  simp only [builds, Bool.and_eq_true, Bool.or_eq_true, List.all_eq_true, List.any_eq_true,
    decide_eq_true_eq, and_assoc]

theorem builds_of_follows {cs ds : List Node} (h : List.Forall₂ Follows cs ds)
    (building : builds ds = true) : builds cs = true := by
  obtain ⟨joined, several, string⟩ := builds_iff.mp building
  obtain ⟨sameTerms, sameJoiners⟩ := forall₂_terms h
  refine builds_iff.mpr ⟨fun j hj => ?_, ?_, ?_⟩
  · obtain ⟨j', hj', follows⟩ := exists_of_mem_right sameJoiners.flip hj
    exact (joined j' hj').imp follows.plus.symm.trans follows.tilde
  · rwa [sameTerms.length_eq]
  · rcases string with ⟨t', ht', literal⟩ | ⟨j', hj', tilde⟩
    · obtain ⟨t, ht, follows⟩ := exists_of_mem_right sameTerms ht'
      exact .inl ⟨t, ht, follows.literal.symm.trans literal⟩
    · obtain ⟨j, hj, follows⟩ := exists_of_mem_right sameJoiners hj'
      exact .inr ⟨j, hj, follows.tilde tilde⟩

theorem Follows.of_rebuilt {n m : Node} {S : Node → List Node → Prop}
    (h : Rebuilt Follows S n m) : Follows n m := by
  cases h with
  | leaf => exact .refl n
  | expression parts => exact ⟨rfl, rfl, id, builds_of_follows parts, id⟩
  | @assign _ _ _ _ op ht hv =>
    refine ⟨rfl, rfl, id, id, fun split => ?_⟩
    cases op with
    | set => exact hv.building split
    | append => cases split
  | parameter | parameters | array | call | macroDef | branch | loop | condition | group | filter
  | output | list => exact ⟨rfl, rfl, id, id, id⟩

/-! ### Splitting -/

/-- No term of the chain is itself a chain that builds a string. -/
def OwnFlat : Node → Prop
  | .expression chain => ∀ c ∈ chain, isBuilding c = false
  | _ => True

def Flat (n : Node) : Prop := ∀ k ∈ n.preorder, OwnFlat k

theorem flat_iff {n : Node} : Flat n ↔ OwnFlat n ∧ ∀ k ∈ n.subtrees, Flat k := forall_preorder_iff

theorem isBuilding_of_isOperand {n : Node} (h : IsOperand .parsed n) : isBuilding n = false := by
  cases h with
  | @negated e operand =>
    have joiner : (isPlus e || isTilde e) = false := by
      have sign := not_isSign_of_isOperand operand
      cases e with
      | operator => cases sign
      | _ => rfl
    simp [isBuilding, builds, joiners, joiner]
  | term h =>
    cases h with
    | primary h =>
      cases h with
      | literal h => cases h <;> rfl
      | var | yield | call | group | array | map => rfl
    | filtered => rfl

theorem isBuilding_of_mem_isOperated {more : List Node} (h : IsOperated .parsed more) :
    ∀ c ∈ more, isBuilding c = false := by
  cases h with
  | nil => simp
  | cons _ operand rest =>
    have others := isBuilding_of_mem_isOperated rest
    simpa [isBuilding_of_isOperand operand] using ⟨rfl, others⟩

theorem ownFlat_of_isPart {n : Node} (h : IsPart n) : OwnFlat n := by
  cases n with
  | expression chain =>
    cases h with
    | condition h =>
      cases h with
      | expression h =>
        cases h with
        | operand h =>
          cases h with
          | negated operand =>
            simpa [OwnFlat] using ⟨rfl, isBuilding_of_isOperand operand⟩
          | term h =>
            cases h with
            | primary h =>
              cases h with
              | literal h => cases h
        | chain operand rest =>
          have others := isBuilding_of_mem_isOperated rest
          exact List.forall_mem_cons.mpr ⟨isBuilding_of_isOperand operand, others⟩
    | parameter h =>
      obtain ⟨_, _, same, -⟩ := h
      cases same
    | statement h => cases h
  | _ => trivial

theorem flat_of_parse {source : String} {t : Node} (h : Template.parse source = .ok t) : Flat t :=
  fun _ hk => ownFlat_of_isPart ((isPart_of_parse h).of_mem_preorder hk)

theorem builds_intersperse {first : Node} {rest : List Node} (several : rest ≠ []) :
    builds ((first :: rest).intersperse (.operator concatSign)) = false := by
  obtain ⟨second, more, rfl⟩ := List.exists_cons_of_ne_nil several
  rw [Bool.eq_false_iff]
  intro building
  have joined := (builds_iff.mp building).1 (.operator concatSign)
  rw [joiners_intersperse] at joined
  rcases joined (by simp) with plus | tilde
  · cases plus
  · cases tilde

theorem splits_of_mem_assignments {target first p : Node} {rest : List Node} (several : rest ≠ [])
    (plain : isBuilding first = false) (h : p ∈ assignments target first rest) :
    splits p = false := by
  unfold assignments at h
  split at h
  · obtain rfl := List.mem_singleton.mp h
    exact builds_intersperse several
  · rcases List.mem_append.mp h with h | h
    · split at h
      · cases h
      · obtain rfl := List.mem_singleton.mp h
        exact plain
    · obtain ⟨t, -, rfl⟩ := List.mem_map.mp h
      rfl

theorem exists_of_splits {n : Node} (h : splits n = true) :
    ∃ target chain, n = .assign target (.expression chain) .set ∧ builds chain = true := by
  cases n with
  | assign target value op =>
    cases op with
    | append => cases h
    | set =>
      cases value with
      | expression chain => exact ⟨target, chain, rfl, h⟩
      | _ => cases h
  | _ => cases h

/-- The pieces of a statement are not split again. -/
theorem splits_of_mem_pieces {n p : Node} (flat : Flat n) (h : p ∈ pieces n) :
    splits p = false := by
  cases split : splits n with
  | false =>
    rw [pieces_eq_self split, List.mem_singleton] at h
    exact h ▸ split
  | true =>
    obtain ⟨target, chain, rfl, building⟩ := exists_of_splits split
    obtain ⟨-, several, -⟩ := builds_iff.mp building
    have members : OwnFlat (.expression chain) :=
      flat _ (preorder_subset (by simp [subtrees]) (mem_preorder_self _))
    rw [pieces, if_pos building] at h
    cases parts : terms chain with
    | nil => simp [parts] at several
    | cons first rest =>
      rw [parts] at h several
      have inside : first ∈ chain := mem_of_mem_terms (by simp [parts])
      refine splits_of_mem_assignments ?_ (members first inside) h
      rintro rfl
      simp at several

/-- What holds of all nodes of a statement holds of the nodes of its pieces, if it holds of every
assignment and of the chain that is joined anew. -/
theorem forall_of_mem_pieces {Own : Node → Prop} (sign : Own (.operator concatSign))
    (assign : ∀ target value op, Own (.assign target value op))
    (joined : ∀ {chain members}, Own (.expression chain) →
      (∀ m ∈ members, m = .operator concatSign ∨ m ∈ chain) → Own (.expression members))
    {n p : Node} (all : ∀ k ∈ n.preorder, Own k) (h : p ∈ pieces n) : ∀ k ∈ p.preorder, Own k := by
  cases isPiece_of_mem_pieces h with
  | whole => exact all
  | @term target t chain op same ht =>
    subst same
    obtain ⟨-, below⟩ := forall_preorder_iff.mp all
    have value := below (.expression chain) (by simp [subtrees])
    refine forall_preorder_iff.mpr ⟨assign _ _ _, ?_⟩
    have term := (forall_preorder_iff.mp value).2 t ht
    simpa [subtrees] using ⟨below target (by simp [subtrees]), term⟩
  | @joined target chain members same from_chain =>
    subst same
    obtain ⟨-, below⟩ := forall_preorder_iff.mp all
    obtain ⟨own, terms⟩ := forall_preorder_iff.mp (below (.expression chain) (by simp [subtrees]))
    have value : ∀ k ∈ (Node.expression members).preorder, Own k := by
      refine forall_preorder_iff.mpr ⟨joined own from_chain, fun m hm => ?_⟩
      rcases from_chain m hm with rfl | hm
      · simpa [preorder] using sign
      · exact terms m hm
    refine forall_preorder_iff.mpr ⟨assign _ _ _, ?_⟩
    simpa [subtrees] using ⟨below target (by simp [subtrees]), value⟩

theorem flat_of_mem_pieces {n p : Node} (flat : Flat n) (h : p ∈ pieces n) : Flat p := by
  refine forall_of_mem_pieces trivial (fun _ _ _ => trivial) (fun own from_chain m hm => ?_) flat h
  rcases from_chain m hm with rfl | hm
  · rfl
  · exact own m hm

theorem unsplit_of_mem_pieces {n p : Node} (unsplit : Unsplit n) (h : p ∈ pieces n) : Unsplit p :=
  forall_of_mem_pieces (by simp [elements]) (by simp [elements]) (by simp [elements]) unsplit h

theorem ownFlat_of_rebuilt {n m : Node} {S : Node → List Node → Prop} (flat : OwnFlat n)
    (h : Rebuilt Follows S n m) : OwnFlat m := by
  cases h with
  | leaf => exact flat
  | expression parts =>
    intro c' hc'
    obtain ⟨c, hc, follows⟩ := exists_of_mem_right parts hc'
    rw [Bool.eq_false_iff]
    intro building
    exact Bool.eq_false_iff.mp (flat c hc) (follows.building building)
  | parameter | parameters | array | call | macroDef | assign | branch | loop | condition | group
  | filter | output | list => trivial

theorem establishes_unsplit : splitter.Establishes (.except ShapeFault)
    (fun n => n.WellBuilt ∧ Flat n)
    (fun n m => Fits n m ∧ Follows n m ∧ Flat m ∧ Unsplit m)
    fun _ ms => BuiltBody ms ∧ ∀ p ∈ ms, Flat p ∧ Unsplit p ∧ splits p = false := by
  refine establishes_of_pieces (fun flat => (flat_iff.mp flat).2) (fun {n m} flat made => ?_)
    fun _ made p hp => ?_
  · have parts : Rebuilt Follows (fun _ _ => True) n m :=
      made.imp (fun _ _ _ h => h.1) fun _ _ _ _ => trivial
    refine ⟨.of_rebuilt parts, ?_, ?_⟩
    · exact forall_of_rebuilt made (ownFlat_of_rebuilt (flat_iff.mp flat).1 parts)
        (fun _ _ h => h.2.1) fun _ _ h p hp => (h p hp).1
    · refine forall_of_rebuilt made (fun s hs => ?_) (fun _ _ h => h.2.2)
        fun _ _ h p hp => (h p hp).2.1
      obtain ⟨-, -, made, pieces, hs⟩ := made.exists_of_mem_elements hs
      exact (pieces s hs).2.2
  · obtain ⟨-, flat, unsplit⟩ := made
    exact ⟨flat_of_mem_pieces flat hp, unsplit_of_mem_pieces unsplit hp,
      splits_of_mem_pieces flat hp⟩

/-! ### Spelling -/

theorem follows_concatSign : Follows (.operator "~") (.operator concatSign) :=
  ⟨rfl, rfl, (by intro h; cases h), id, id⟩

/-- Spelling leaves nothing to split where there was nothing. -/
theorem establishes_spelling : speller.Establishes .id Unsplit
    (fun n m => Follows n m ∧ Unsplit m ∧ Spelled m)
    fun n ms => ∀ p ∈ ms, Follows n p ∧ Unsplit p ∧ Spelled p where
  below h := (unsplit_iff.mp h).2
  node {n} {x : Node} unsplit made := by
    show Follows n (speller.node n x) ∧ Unsplit (speller.node n x) ∧ Spelled (speller.node n x)
    by_cases tilde : n = .operator "~"
    · subst tilde
      exact ⟨follows_concatSign, by simp [Unsplit, speller, preorder, elements], spelled_concatSign⟩
    · rw [speller_node_of_ne tilde]
      have made : Rebuilt _ _ n x := made
      have parts : Rebuilt Follows (fun _ _ => True) n x :=
        made.imp (fun _ _ _ h => h.1) fun _ _ _ _ => trivial
      refine ⟨.of_rebuilt parts, ?_, ?_⟩
      · refine forall_of_rebuilt made (fun s hs => ?_) (fun _ _ h => h.2.1)
          fun _ _ h p hp => (h p hp).2.1
        obtain ⟨j, hj, ms, follows, hs⟩ := made.exists_of_mem_elements hs
        rw [Bool.eq_false_iff]
        intro split
        exact Bool.eq_false_iff.mp ((unsplit_iff.mp unsplit).1 j hj)
          ((follows s hs).1.splitting split)
      · exact spelled_of_rebuilt tilde
          (made.imp (fun _ _ _ h => h.2.2) fun _ _ _ h p hp => (h p hp).2.2)
  statement _ h := Outcome.id.bind h fun m h => List.forall_mem_singleton.mpr h

end StringBuilding

theorem run_concat (scope : Option SiteContext) (n : Node) (memory : Memory) :
    (Pass.concat.run scope n).run memory =
      (n.splitStringBuilding.mapError CompileError.shape, memory) :=
  Run.run_ofExcept CompileError.shape n.splitStringBuilding memory

open StringBuilding in
/-- The pass succeeds on a template and leaves nothing to do: no `~` is left at any depth, and
another run keeps the tree. -/
theorem concat_settles_in_one_run {source : String} {t : Node}
    (parsed : Template.parse source = .ok t) (scope : Option SiteContext) (before : Memory) :
    ∃ out, (Pass.concat.run scope t).run before = (.ok out, before) ∧
      (∀ k ∈ out.preorder, k ≠ .operator "~") ∧
      ∀ scope after, (Pass.concat.run scope out).run after = (.ok out, after) := by
  have built := wellBuilt_of_parse parsed
  obtain ⟨m, split, fits, -, -, unsplit⟩ := establishes_unsplit.run t ⟨built, flat_of_parse parsed⟩
  obtain ⟨-, unsplit, spelled⟩ := establishes_spelling.run m unsplit
  have run : t.splitStringBuilding = .ok (Id.run (speller.run m)) := by
    rw [Node.splitStringBuilding, split]
    rfl
  have built : (Id.run (speller.run m)).WellBuilt :=
    (Rebuilder.keepsBuilt_speller.run m fits.wellBuilt).wellBuilt
  refine ⟨Id.run (speller.run m), ?_, spelled, fun scope after => ?_⟩
  · rw [run_concat, run]
    rfl
  · rw [run_concat, splitStringBuilding_eq_self built unsplit spelled]
    rfl

namespace NestedStrings

/-- A string that is split inside a branching, and one in a group. -/
def source : String :=
  "\x7b% if a %\x7d\x7b% set x = not b ~ 'c' %\x7d\x7b% endif %\x7d\x7b\x7b (x ~ y) \x7d\x7d"

def page : Node := .list
  [.branch (.var ["a"])
    [.assign (.var ["x"]) (.expression
      [.expression [.operator "not", .var ["b"]], .operator "~", .string "c"]) .set] [],
  .output [.group [.expression [.var ["x"], .operator "~", .var ["y"]]]]]

def settled : Node := .list
  [.branch (.var ["a"])
    [.assign (.var ["x"]) (.expression [.operator "not", .var ["b"]]) .set,
    .assign (.var ["x"]) (.string "c") .append] [],
  .output [.group [.expression [.var ["x"], .operator "+=", .var ["y"]]]]]

end NestedStrings

open NestedStrings in
theorem concat_settles_nested_strings :
    Template.parse source = .ok page ∧
      (Pass.concat.run none page).run .empty = (.ok settled, .empty) ∧
      (Pass.concat.run none settled).run .empty = (.ok settled, .empty) := by
  have tree : Template.parse source = .ok page := by
    rw [Template.parse_eq]
    cbv
  obtain ⟨out, run, -, again⟩ := concat_settles_in_one_run tree none .empty
  have lowered : (Pass.concat.run none page).run .empty = (.ok settled, .empty) := rfl
  cases run.symm.trans lowered
  exact ⟨tree, lowered, again none .empty⟩

end TagCompiler
