import Mathlib.Data.List.Forall2
import TagCompiler.Lowering.Rebuild
import TagCompiler.Proofs.Subtrees
/-!
# What holds of every tree that is rebuilt

A rebuilder makes one step at each node, after its subtrees were rebuilt. So a relation between the
nodes of a tree and what becomes of them holds for the whole tree if each step establishes it. The
steps may fail or carry state along; `Outcome` says what it means for them to have a result with a
property. Where they always have one, `Valuation` takes it, and a rebuilder that makes one statement
of each does its step on the node with its subtrees rebuilt.
-/

namespace TagCompiler

/-! ### Nodes and what becomes of them -/

/-- The body that is made of what becomes of the statements `ns`, one after the other. -/
inductive BodyRebuilt (S : Node → List Node → Prop) : List Node → List Node → Prop
  | nil : BodyRebuilt S [] []
  | cons {n : Node} {ns ms more : List Node} : S n ms → BodyRebuilt S ns more →
      BodyRebuilt S (n :: ns) (ms ++ more)

/-- The nodes without a subtree of their own. -/
def Node.isLeaf : Node → Bool
  | .data _ | .literal .. | .text _ | .var _ | .operator _ | .connective _ | .yield
  | .parameter _ none => true
  | _ => false

theorem Node.subtrees_of_isLeaf {n : Node} (h : n.isLeaf = true) : n.subtrees = [] := by
  cases n with
  | parameter name value => cases value <;> first | rfl | cases h
  | data | literal | text | var | operator | connective | yield => rfl
  | _ => cases h

/-- The second node is the first one, put together from what became of its subtrees: `R` holds of a
subtree and its successor, `S` of a statement of a body and its successors. -/
inductive Rebuilt (R : Node → Node → Prop) (S : Node → List Node → Prop) : Node → Node → Prop
  | leaf {n : Node} : n.isLeaf = true → Rebuilt R S n n
  | parameter {name : Option String} {v v' : Node} : R v v' →
      Rebuilt R S (.parameter name (some v)) (.parameter name (some v'))
  | parameters {cs cs' : List Node} : List.Forall₂ R cs cs' →
      Rebuilt R S (.parameters cs) (.parameters cs')
  | array {cs cs' : List Node} : List.Forall₂ R cs cs' → Rebuilt R S (.array cs) (.array cs')
  | call {name : String} {p p' : Node} {cs cs' : List Node} : R p p' → BodyRebuilt S cs cs' →
      Rebuilt R S (.call name p cs) (.call name p' cs')
  | macroDef {name : String} {p p' : Node} {cs cs' : List Node} {doc : Option String} : R p p' →
      BodyRebuilt S cs cs' → Rebuilt R S (.macroDef name p cs doc) (.macroDef name p' cs' doc)
  | assign {t t' v v' : Node} {op : AssignOp} : R t t' → R v v' →
      Rebuilt R S (.assign t v op) (.assign t' v' op)
  | branch {c c' : Node} {ys ys' ns ns' : List Node} : R c c' → BodyRebuilt S ys ys' →
      BodyRebuilt S ns ns' → Rebuilt R S (.branch c ys ns) (.branch c' ys' ns')
  | loop {k : Option String} {x : String} {v v' : Node} {cs cs' : List Node} : R v v' →
      BodyRebuilt S cs cs' → Rebuilt R S (.loop k x v cs) (.loop k x v' cs')
  | condition {cs cs' : List Node} : List.Forall₂ R cs cs' →
      Rebuilt R S (.condition cs) (.condition cs')
  | expression {cs cs' : List Node} : List.Forall₂ R cs cs' →
      Rebuilt R S (.expression cs) (.expression cs')
  | group {cs cs' : List Node} : List.Forall₂ R cs cs' → Rebuilt R S (.group cs) (.group cs')
  | filter {name : String} {v v' p p' : Node} : R v v' → R p p' →
      Rebuilt R S (.filter name v p) (.filter name v' p')
  | output {cs cs' : List Node} : List.Forall₂ R cs cs' → Rebuilt R S (.output cs) (.output cs')
  | list {cs cs' : List Node} : BodyRebuilt S cs cs' → Rebuilt R S (.list cs) (.list cs')

theorem exists_of_mem_right {R : Node → Node → Prop} {ns ms : List Node} {k : Node}
    (h : List.Forall₂ R ns ms) (hk : k ∈ ms) : ∃ n ∈ ns, R n k := by
  induction h with
  | nil => cases hk
  | cons first _ ih =>
    rcases List.mem_cons.mp hk with rfl | hk
    · exact ⟨_, List.mem_cons_self, first⟩
    · obtain ⟨n, hn, related⟩ := ih hk
      exact ⟨n, List.mem_cons_of_mem _ hn, related⟩

namespace BodyRebuilt

variable {S : Node → List Node → Prop} {ns ms : List Node}

theorem exists_of_mem (h : BodyRebuilt S ns ms) {k : Node} (hk : k ∈ ms) :
    ∃ n ∈ ns, ∃ ks, S n ks ∧ k ∈ ks := by
  induction h with
  | nil => cases hk
  | cons first _ ih =>
    rcases List.mem_append.mp hk with hk | hk
    · exact ⟨_, List.mem_cons_self, _, first, hk⟩
    · obtain ⟨n, hn, related⟩ := ih hk
      exact ⟨n, List.mem_cons_of_mem _ hn, related⟩

theorem imp {S' : Node → List Node → Prop} (h : BodyRebuilt S ns ms)
    (weaker : ∀ n ∈ ns, ∀ ks, S n ks → S' n ks) : BodyRebuilt S' ns ms := by
  induction h with
  | nil => exact .nil
  | cons first _ ih =>
    obtain ⟨own, others⟩ := List.forall_mem_cons.mp weaker
    exact .cons (own _ first) (ih others)

end BodyRebuilt

theorem forall₂_imp_of_mem {R R' : Node → Node → Prop} {ns ms : List Node}
    (h : List.Forall₂ R ns ms) (weaker : ∀ n ∈ ns, ∀ k, R n k → R' n k) :
    List.Forall₂ R' ns ms := by
  induction h with
  | nil => exact .nil
  | cons first _ ih =>
    obtain ⟨own, others⟩ := List.forall_mem_cons.mp weaker
    exact .cons (own _ first) (ih others)

namespace Rebuilt

variable {R R' : Node → Node → Prop} {S S' : Node → List Node → Prop} {n m : Node}

/-- A subtree of the new node came from a subtree of the old one. -/
theorem exists_of_mem_subtrees (h : Rebuilt R S n m) {k : Node} (hk : k ∈ m.subtrees) :
    ∃ j ∈ n.subtrees, R j k ∨ ∃ ks, S j ks ∧ k ∈ ks := by
  have inParts : ∀ {cs cs' : List Node}, List.Forall₂ R cs cs' → k ∈ cs' →
      ∃ j ∈ cs, R j k ∨ ∃ ks, S j ks ∧ k ∈ ks := by
    intro cs cs' parts hk
    obtain ⟨j, hj, related⟩ := exists_of_mem_right parts hk
    exact ⟨j, hj, .inl related⟩
  have inBody : ∀ {cs cs' : List Node}, BodyRebuilt S cs cs' → k ∈ cs' →
      ∃ j ∈ cs, R j k ∨ ∃ ks, S j ks ∧ k ∈ ks := by
    intro cs cs' body hk
    obtain ⟨j, hj, related⟩ := body.exists_of_mem hk
    exact ⟨j, hj, .inr related⟩
  cases h with
  | leaf leaf =>
    rw [Node.subtrees_of_isLeaf leaf] at hk
    cases hk
  | parameter hv =>
    obtain rfl : k = _ := by simpa [Node.subtrees] using hk
    exact ⟨_, by simp [Node.subtrees], .inl hv⟩
  | parameters parts | array parts | condition parts | expression parts | group parts
  | output parts => exact inParts parts hk
  | list body => exact inBody body hk
  | call hp body | macroDef hp body | loop hp body =>
    rcases List.mem_cons.mp hk with rfl | hk
    · exact ⟨_, List.mem_cons_self, .inl hp⟩
    · obtain ⟨j, hj, related⟩ := inBody body hk
      exact ⟨j, List.mem_cons_of_mem _ hj, related⟩
  | assign ht hv | filter ht hv =>
    rcases List.mem_cons.mp hk with rfl | hk
    · exact ⟨_, List.mem_cons_self, .inl ht⟩
    · obtain rfl := List.mem_singleton.mp hk
      exact ⟨_, by simp [Node.subtrees], .inl hv⟩
  | branch hc yes no =>
    rcases List.mem_cons.mp hk with rfl | hk
    · exact ⟨_, List.mem_cons_self, .inl hc⟩
    · rcases List.mem_append.mp hk with hk | hk
      · obtain ⟨j, hj, related⟩ := inBody yes hk
        exact ⟨j, List.mem_cons_of_mem _ (List.mem_append_left _ hj), related⟩
      · obtain ⟨j, hj, related⟩ := inBody no hk
        exact ⟨j, List.mem_cons_of_mem _ (List.mem_append_right _ hj), related⟩

/-- The relations may be weakened at the subtrees of the old node. -/
theorem imp (h : Rebuilt R S n m) (node : ∀ k ∈ n.outside, ∀ k', R k k' → R' k k')
    (statement : ∀ k ∈ n.elements, ∀ ks, S k ks → S' k ks) : Rebuilt R' S' n m := by
  cases h with
  | leaf leaf => exact .leaf leaf
  | parameter hv => exact .parameter (node _ (by simp [Node.outside, Node.subtrees]) _ hv)
  | parameters parts => exact .parameters (forall₂_imp_of_mem parts node)
  | array parts => exact .array (forall₂_imp_of_mem parts node)
  | condition parts => exact .condition (forall₂_imp_of_mem parts node)
  | expression parts => exact .expression (forall₂_imp_of_mem parts node)
  | group parts => exact .group (forall₂_imp_of_mem parts node)
  | output parts => exact .output (forall₂_imp_of_mem parts node)
  | list body => exact .list (body.imp statement)
  | call hp body => exact .call (node _ List.mem_cons_self _ hp) (body.imp statement)
  | macroDef hp body => exact .macroDef (node _ List.mem_cons_self _ hp) (body.imp statement)
  | loop hv body => exact .loop (node _ List.mem_cons_self _ hv) (body.imp statement)
  | assign ht hv =>
    exact .assign (node _ List.mem_cons_self _ ht)
      (node _ (by simp [Node.outside, Node.subtrees]) _ hv)
  | filter hv hp =>
    exact .filter (node _ List.mem_cons_self _ hv)
      (node _ (by simp [Node.outside, Node.subtrees]) _ hp)
  | branch hc yes no =>
    refine .branch (node _ List.mem_cons_self _ hc) (yes.imp fun k hk => statement k ?_)
      (no.imp fun k hk => statement k ?_)
    · exact List.mem_append_left _ hk
    · exact List.mem_append_right _ hk

end Rebuilt

/-! ### Outcomes -/

/-- What it means for a computation to have a result with a property. -/
structure Outcome (m : Type → Type) [Monad m] where
  Ensures : {α : Type} → m α → (α → Prop) → Prop
  mono : {α : Type} → {x : m α} → {P Q : α → Prop} → Ensures x P → (∀ a, P a → Q a) → Ensures x Q
  pure : {α : Type} → {P : α → Prop} → {a : α} → P a → Ensures (pure a) P
  bind : {α β : Type} → {x : m α} → {f : α → m β} → {P : α → Prop} → {Q : β → Prop} →
    Ensures x P → (∀ a, P a → Ensures (f a) Q) → Ensures (x >>= f) Q

namespace Outcome

def id : Outcome Id where
  Ensures x P := P x.run
  mono h imp := imp _ h
  pure h := h
  bind hx hf := hf _ hx

/-- For every value of the environment. -/
def reader (ρ : Type) : Outcome (ReaderM ρ) where
  Ensures x P := ∀ r, P (x.run r)
  mono h imp r := imp _ (h r)
  pure h _ := h
  bind hx hf r := hf _ (hx r) r

/-- The computation succeeds. -/
def except (ε : Type) : Outcome (Except ε) where
  Ensures x P := ∃ a, x = .ok a ∧ P a
  mono := by
    rintro α x P Q ⟨a, rfl, h⟩ imp
    exact ⟨a, rfl, imp a h⟩
  pure h := ⟨_, rfl, h⟩
  bind := by
    rintro α β x f P Q ⟨a, rfl, h⟩ hf
    exact hf a h

/-- The computation succeeds from every state that fulfils `I`, and so does the state after it. -/
def stateful {σ : Type} (ε : Type) (I : σ → Prop) : Outcome (StateT σ (Except ε)) where
  Ensures x P := ∀ s, I s → ∃ a s', x.run s = .ok (a, s') ∧ P a ∧ I s'
  mono h imp s hs := by
    obtain ⟨a, s', run, ha, hs'⟩ := h s hs
    exact ⟨a, s', run, imp a ha, hs'⟩
  pure h s hs := ⟨_, s, rfl, h, hs⟩
  bind {α β x f P Q} hx hf s hs := by
    obtain ⟨a, s', run, ha, hs'⟩ := hx s hs
    obtain ⟨b, s'', run', hb, hs''⟩ := hf a ha s' hs'
    refine ⟨b, s'', ?_, hb, hs''⟩
    rw [StateT.run_bind, run]
    exact run'

/-- What the computation gives, if it succeeds from a state that fulfils `I`, and the state after
it. -/
def onSuccess {σ : Type} (ε : Type) (I : σ → Prop) : Outcome (StateT σ (Except ε)) where
  Ensures x P := ∀ s a s', I s → x.run s = .ok (a, s') → P a ∧ I s'
  mono h imp s a s' hs run := (h s a s' hs run).imp_left (imp a)
  pure h s a s' hs run := by
    cases run
    exact ⟨h, hs⟩
  bind {α β x f P Q} hx hf s b s'' hs run := by
    rw [StateT.run_bind] at run
    cases first : x.run s with
    | error e =>
      rw [first] at run
      cases run
    | ok result =>
      rw [first] at run
      obtain ⟨ha, hs'⟩ := hx s result.1 result.2 hs first
      exact hf result.1 ha result.2 b s'' hs' run

end Outcome

/-! ### Rebuilding -/

namespace Rebuilder

variable {m : Type → Type} [Monad m]

/-- Each step of the rebuilder, at a node that fulfils `Before`, establishes the relations. -/
structure Establishes (w : Rebuilder m) (o : Outcome m) (Before : Node → Prop)
    (R : Node → Node → Prop) (S : Node → List Node → Prop) : Prop where
  below : ∀ {n}, Before n → ∀ k ∈ n.subtrees, Before k
  node : ∀ {n x}, Before n → o.Ensures x (Rebuilt R S n) → o.Ensures (w.node n x) (R n)
  statement : ∀ {n x}, Before n → o.Ensures x (R n) → o.Ensures (w.statement x) (S n)

namespace Establishes

variable {w : Rebuilder m} {o : Outcome m} {Before : Node → Prop} {R : Node → Node → Prop}
  {S : Node → List Node → Prop}

mutual

theorem run (e : w.Establishes o Before R S) : (n : Node) → Before n → o.Ensures (w.run n) (R n)
  | .data _, h | .literal _ _, h | .text _, h | .var _, h | .operator _, h | .connective _, h
  | .yield, h | .parameter _ none, h => by
    rw [Rebuilder.run]
    exact e.node h (o.pure (.leaf rfl))
  | .parameter _ (some v), h => by
    rw [Rebuilder.run]
    have value := e.run v (e.below h v (by simp [Node.subtrees]))
    exact e.node h (o.bind value fun _ hv => o.pure (.parameter hv))
  | .parameters cs, h => by
    rw [Rebuilder.run]
    exact e.node h (o.bind (e.runAll cs (e.below h)) fun _ hcs => o.pure (.parameters hcs))
  | .array cs, h => by
    rw [Rebuilder.run]
    exact e.node h (o.bind (e.runAll cs (e.below h)) fun _ hcs => o.pure (.array hcs))
  | .condition cs, h => by
    rw [Rebuilder.run]
    exact e.node h (o.bind (e.runAll cs (e.below h)) fun _ hcs => o.pure (.condition hcs))
  | .expression cs, h => by
    rw [Rebuilder.run]
    exact e.node h (o.bind (e.runAll cs (e.below h)) fun _ hcs => o.pure (.expression hcs))
  | .group cs, h => by
    rw [Rebuilder.run]
    exact e.node h (o.bind (e.runAll cs (e.below h)) fun _ hcs => o.pure (.group hcs))
  | .output cs, h => by
    rw [Rebuilder.run]
    exact e.node h (o.bind (e.runAll cs (e.below h)) fun _ hcs => o.pure (.output hcs))
  | .list cs, h => by
    rw [Rebuilder.run]
    exact e.node h (o.bind (e.runBody cs (e.below h)) fun _ hcs => o.pure (.list hcs))
  | .call _ p cs, h => by
    rw [Rebuilder.run]
    obtain ⟨hp, hcs⟩ := List.forall_mem_cons.mp (e.below h)
    refine e.node h (o.bind (e.run p hp) fun _ hp' => ?_)
    exact o.bind (e.runBody cs hcs) fun _ hcs' => o.pure (.call hp' hcs')
  | .macroDef _ p cs _, h => by
    rw [Rebuilder.run]
    obtain ⟨hp, hcs⟩ := List.forall_mem_cons.mp (e.below h)
    refine e.node h (o.bind (e.run p hp) fun _ hp' => ?_)
    exact o.bind (e.runBody cs hcs) fun _ hcs' => o.pure (.macroDef hp' hcs')
  | .loop _ _ v cs, h => by
    rw [Rebuilder.run]
    obtain ⟨hv, hcs⟩ := List.forall_mem_cons.mp (e.below h)
    refine e.node h (o.bind (e.run v hv) fun _ hv' => ?_)
    exact o.bind (e.runBody cs hcs) fun _ hcs' => o.pure (.loop hv' hcs')
  | .assign t v _, h => by
    rw [Rebuilder.run]
    obtain ⟨ht, hv⟩ := List.forall_mem_cons.mp (e.below h)
    refine e.node h (o.bind (e.run t ht) fun _ ht' => ?_)
    exact o.bind (e.run v (hv v (by simp))) fun _ hv' => o.pure (.assign ht' hv')
  | .filter _ v p, h => by
    rw [Rebuilder.run]
    obtain ⟨hv, hp⟩ := List.forall_mem_cons.mp (e.below h)
    refine e.node h (o.bind (e.run v hv) fun _ hv' => ?_)
    exact o.bind (e.run p (hp p (by simp))) fun _ hp' => o.pure (.filter hv' hp')
  | .branch c ys ns, h => by
    rw [Rebuilder.run]
    obtain ⟨hc, bodies⟩ := List.forall_mem_cons.mp (e.below h)
    obtain ⟨hys, hns⟩ := List.forall_mem_append.mp bodies
    refine e.node h (o.bind (e.run c hc) fun _ hc' => ?_)
    refine o.bind (e.runBody ys hys) fun _ hys' => ?_
    exact o.bind (e.runBody ns hns) fun _ hns' => o.pure (.branch hc' hys' hns')

theorem runAll (e : w.Establishes o Before R S) : (ns : List Node) → (∀ n ∈ ns, Before n) →
    o.Ensures (w.runAll ns) (List.Forall₂ R ns)
  | [], _ => by
    rw [Rebuilder.runAll]
    exact o.pure .nil
  | n :: ns, h => by
    rw [Rebuilder.runAll]
    obtain ⟨hn, hns⟩ := List.forall_mem_cons.mp h
    refine o.bind (e.run n hn) fun _ hn' => ?_
    exact o.bind (e.runAll ns hns) fun _ hns' => o.pure (.cons hn' hns')

theorem runBody (e : w.Establishes o Before R S) : (ns : List Node) → (∀ n ∈ ns, Before n) →
    o.Ensures (w.runBody ns) (BodyRebuilt S ns)
  | [], _ => by
    rw [Rebuilder.runBody]
    exact o.pure .nil
  | n :: ns, h => by
    rw [Rebuilder.runBody]
    obtain ⟨hn, hns⟩ := List.forall_mem_cons.mp h
    refine o.bind (e.statement hn (e.run n hn)) fun _ hms => ?_
    exact o.bind (e.runBody ns hns) fun _ hmore => o.pure (.cons hms hmore)

end

end Establishes
end Rebuilder

namespace Node

/-! ### Other subtrees -/

/-- The node with other subtrees: `outs` for those outside of its bodies, and the statements `stats`
for its bodies. -/
def replace (n : Node) (outs stats : List Node) : Node :=
  match n with
  | .parameter name (some _) => .parameter name outs.head?
  | .parameters _ => .parameters outs
  | .array _ => .array outs
  | .call name _ _ => .call name (outs.headD .yield) stats
  | .macroDef name _ _ doc => .macroDef name (outs.headD .yield) stats doc
  | .assign _ _ op => .assign (outs.headD .yield) (outs.getLastD .yield) op
  | .branch _ ys _ => .branch (outs.headD .yield) (stats.take ys.length) (stats.drop ys.length)
  | .loop key item _ _ => .loop key item (outs.headD .yield) stats
  | .condition _ => .condition outs
  | .expression _ => .expression outs
  | .group _ => .group outs
  | .filter name _ _ => .filter name (outs.headD .yield) (outs.getLastD .yield)
  | .output _ => .output outs
  | .list _ => .list stats
  | n => n

/-- As many subtrees as the node has. -/
structure Fit (n : Node) (outs stats : List Node) : Prop where
  outs : outs.length = n.outside.length
  stats : stats.length = n.elements.length

theorem replace_self (n : Node) : n.replace n.outside n.elements = n := by
  cases n with
  | parameter name value => cases value <;> rfl
  | branch c ys ns => simp [replace, outside, elements]
  | _ => rfl

variable {n : Node} {outs stats : List Node}

theorem Fit.replace_spec (h : n.Fit outs stats) : (n.replace outs stats).outside = outs ∧
    (n.replace outs stats).elements = stats ∧
    ∀ outs' stats', (n.replace outs stats).replace outs' stats' = n.replace outs' stats' := by
  obtain ⟨ho, hs⟩ := h
  cases n with
  | parameter name value =>
    cases value with
    | none =>
      obtain rfl := List.length_eq_zero_iff.mp ho
      obtain rfl := List.length_eq_zero_iff.mp hs
      exact ⟨rfl, rfl, fun _ _ => rfl⟩
    | some v =>
      obtain ⟨a, rfl⟩ := List.length_eq_one_iff.mp ho
      obtain rfl := List.length_eq_zero_iff.mp hs
      exact ⟨rfl, rfl, fun _ _ => rfl⟩
  | call | macroDef | loop =>
    obtain ⟨a, rfl⟩ := List.length_eq_one_iff.mp ho
    exact ⟨rfl, rfl, fun _ _ => rfl⟩
  | branch c ys ns =>
    obtain ⟨a, rfl⟩ := List.length_eq_one_iff.mp ho
    have enough : ys.length ≤ stats.length := by simp [hs, elements]
    simp [replace, outside, elements, enough]
  | assign | filter =>
    obtain ⟨a, b, rfl⟩ := List.length_eq_two.mp ho
    obtain rfl := List.length_eq_zero_iff.mp hs
    exact ⟨rfl, rfl, fun _ _ => rfl⟩
  | list =>
    obtain rfl := List.length_eq_zero_iff.mp ho
    exact ⟨rfl, rfl, fun _ _ => rfl⟩
  | parameters | array | condition | expression | group | output =>
    obtain rfl := List.length_eq_zero_iff.mp hs
    exact ⟨rfl, rfl, fun _ _ => rfl⟩
  | data | literal | text | var | operator | connective | yield =>
    obtain rfl := List.length_eq_zero_iff.mp ho
    obtain rfl := List.length_eq_zero_iff.mp hs
    exact ⟨rfl, rfl, fun _ _ => rfl⟩

theorem Fit.outside_replace (h : n.Fit outs stats) : (n.replace outs stats).outside = outs :=
  h.replace_spec.1

theorem Fit.elements_replace (h : n.Fit outs stats) : (n.replace outs stats).elements = stats :=
  h.replace_spec.2.1

theorem Fit.replace_replace (h : n.Fit outs stats) (outs' stats' : List Node) :
    (n.replace outs stats).replace outs' stats' = n.replace outs' stats' :=
  h.replace_spec.2.2 outs' stats'

theorem Fit.subtrees_replace (h : n.Fit outs stats) :
    (n.replace outs stats).subtrees = outs ++ stats := by
  rw [subtrees_eq_append, h.outside_replace, h.elements_replace]

theorem replace_ne_yield (other : n ≠ .yield) : n.replace outs stats ≠ .yield := by
  cases n with
  | yield => exact absurd rfl other
  | parameter name value => cases value <;> simp [replace]
  | _ => simp [replace]

end Node

/-! ### Nodes rebuilt from their subtrees -/

section Rebuilder

open Node

/-- A way to take the result out of computations that have one. -/
structure Valuation (m : Type → Type) [Monad m] where
  value : {α : Type} → m α → α
  value_pure {α : Type} (a : α) : value (pure a : m α) = a
  value_bind {α β : Type} (x : m α) (f : α → m β) : value (x >>= f) = value (f (value x))

namespace Valuation

variable {m : Type → Type} [Monad m] (e : Valuation m) (w : Rebuilder m)

theorem runAll_eq_map (ns : List Node) :
    e.value (w.runAll ns) = ns.map fun n => e.value (w.run n) := by
  induction ns with
  | nil => exact e.value_pure []
  | cons n ns ih =>
    rw [Rebuilder.runAll, e.value_bind, e.value_bind, e.value_pure, ih, List.map_cons]

variable (single : ∀ x, e.value (w.statement x) = [e.value x])
include single

theorem runBody_eq_map (ns : List Node) :
    e.value (w.runBody ns) = ns.map fun n => e.value (w.run n) := by
  induction ns with
  | nil => exact e.value_pure []
  | cons n ns ih =>
    rw [Rebuilder.runBody, e.value_bind, e.value_bind, e.value_pure, ih, single, List.map_cons,
      List.singleton_append]

end Valuation

/-- A rebuilder does at a node what it is to do there, with the rebuilt subtrees. -/
theorem Rebuilder.exists_run_eq_node {m : Type → Type} [Monad m] (w : Rebuilder m) (n : Node) :
    ∃ x, w.run n = w.node n x ∧ ∀ e : Valuation m, (∀ x, e.value (w.statement x) = [e.value x]) →
      e.value x = n.replace (n.outside.map fun k => e.value (w.run k))
        (n.elements.map fun k => e.value (w.run k)) := by
  cases n with
  | parameter name value =>
    cases value with
    | none => exact ⟨_, rfl, fun e _ => e.value_pure _⟩
    | some v =>
      refine ⟨_, rfl, fun e _ => ?_⟩
      rw [e.value_bind, e.value_pure]
      rfl
  | parameters cs | array cs | condition cs | expression cs | group cs | output cs =>
    refine ⟨_, rfl, fun e _ => ?_⟩
    rw [e.value_bind, e.value_pure, e.runAll_eq_map]
    rfl
  | call name p cs | macroDef name p cs doc | loop key item v cs =>
    refine ⟨_, rfl, fun e single => ?_⟩
    rw [e.value_bind, e.value_bind, e.value_pure, e.runBody_eq_map w single]
    rfl
  | list cs =>
    refine ⟨_, rfl, fun e single => ?_⟩
    rw [e.value_bind, e.value_pure, e.runBody_eq_map w single]
    rfl
  | branch c ys ns =>
    refine ⟨_, rfl, fun e single => ?_⟩
    have yes : (ys.map fun k => e.value (w.run k)).length = ys.length := List.length_map ..
    rw [elements, List.map_append, replace, ← yes, List.take_left, List.drop_left, e.value_bind,
      e.value_bind, e.value_bind, e.value_pure, e.runBody_eq_map w single,
      e.runBody_eq_map w single]
    rfl
  | assign t v op | filter name v p =>
    refine ⟨_, rfl, fun e _ => ?_⟩
    rw [e.value_bind, e.value_bind, e.value_pure]
    rfl
  | data | literal | text | var | operator | connective | yield =>
    exact ⟨_, rfl, fun e _ => e.value_pure _⟩

/-- Plain results. -/
def Valuation.plain : Valuation Id := ⟨Id.run, fun _ => rfl, fun _ _ => rfl⟩

/-- Results in an environment. -/
def Valuation.inside {ρ : Type} (r : ρ) : Valuation (ReaderM ρ) :=
  ⟨fun x => x.run r, fun _ => rfl, fun _ _ => rfl⟩

/-- A rebuilder that keeps each statement one statement does at a node what it is to do there, with
the rebuilt subtrees. -/
theorem Rebuilder.run_eq_node (w : Rebuilder Id) (single : ∀ x, w.statement x = pure [Id.run x])
    (n : Node) :
    Id.run (w.run n) = Id.run (w.node n (pure (n.replace
      (n.outside.map fun k => Id.run (w.run k)) (n.elements.map fun k => Id.run (w.run k))))) := by
  obtain ⟨x, run, made⟩ := w.exists_run_eq_node n
  have same := made .plain fun x => congrArg Id.run (single x)
  exact run.trans (congrArg (w.node n) same)

/-- In an environment, the subtrees are rebuilt in the one that the rebuilder gives them. -/
theorem Rebuilder.run_eq_node_inside {ρ : Type} (w : Rebuilder (ReaderM ρ))
    (single : ∀ x r, (w.statement x).run r = [x.run r]) (n : Node) :
    w.run n = w.node n fun r => n.replace (n.outside.map fun k => (w.run k).run r)
      (n.elements.map fun k => (w.run k).run r) := by
  obtain ⟨x, run, made⟩ := w.exists_run_eq_node n
  have same := funext fun r => made (.inside r) fun x => single x r
  exact run.trans (congrArg (w.node n) same)

end Rebuilder

end TagCompiler
