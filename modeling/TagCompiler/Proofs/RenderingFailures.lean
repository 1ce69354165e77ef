import TagCompiler.Pipeline.Compiler
import TagCompiler.Proofs.TreeNodes
/-!
# When a template has no tag file

Tag files have no operators `in` and `**`. They run the block of a tag as a statement, and they can
set a variable to it, but no expression of theirs can hold it. A template with one of these cannot
be written, wherever it stands; all else that can be read can be written. So no branch of the
renderer but two can refuse the tree of a template, and no part of a tree is passed over.
-/

namespace TagCompiler

/-- The subtrees of a node that stand where an expression is expected. The value of an assignment is
none of them, because a block may be assigned too. -/
def Node.expressionPlaces : Node → List Node
  | .parameter _ value => value.toList
  | .array cs | .condition cs | .expression cs | .group cs | .output cs => cs
  | .filter _ subject _ => [subject]
  | .branch c _ _ => [c]
  | .loop _ _ source _ => [source]
  | _ => []

namespace TagFile

open Node Grammar

/-- The operators of templates that tag files lack. -/
def missingOperators : List String := ["in", "**"]

/-- A node that tag files have nothing for, or that holds a block in the place of an expression. -/
def Unwritable (n : Node) : Prop :=
  (∃ s ∈ missingOperators, n = .operator s) ∨ .yield ∈ n.expressionPlaces

def Writable (n : Node) : Prop := ∀ k ∈ n.preorder, ¬ Unwritable k

/-- A tree that can be written where an expression is expected. -/
def Expressible (n : Node) : Prop := n ≠ .yield ∧ Writable n

theorem expressible_iff {n : Node} (block : n ≠ .yield) : Expressible n ↔ Writable n :=
  and_iff_right block

theorem writable_iff {n : Node} :
    Writable n ↔ ¬ Unwritable n ∧ ∀ m ∈ n.subtrees, Writable m := forall_preorder_iff

theorem not_writable_iff {n : Node} : ¬ Writable n ↔
    (∃ s, (s = "in" ∨ s = "**") ∧ .operator s ∈ n.preorder) ∨
      ∃ k ∈ n.preorder, .yield ∈ k.expressionPlaces := by
  have someNode : ¬ Writable n ↔ ∃ k ∈ n.preorder, Unwritable k := by simp [Writable]
  rw [someNode]
  constructor
  · rintro ⟨k, hk, ⟨s, missing, rfl⟩ | inside⟩
    · exact .inl ⟨s, List.mem_pair.mp missing, hk⟩
    · exact .inr ⟨k, hk, inside⟩
  · rintro (⟨s, missing, hs⟩ | ⟨k, hk, inside⟩)
    · exact ⟨.operator s, hs, .inl ⟨s, List.mem_pair.mpr missing, rfl⟩⟩
    · exact ⟨k, hk, .inr inside⟩

theorem writable_leaf {n : Node} (places : n.expressionPlaces = []) (noSubtree : n.subtrees = [])
    (other : ∀ s, n ≠ .operator s) : Writable n := by
  rw [writable_iff, noSubtree]
  refine ⟨?_, by simp⟩
  rintro (⟨s, -, rfl⟩ | inside)
  · exact other s rfl
  · rw [places] at inside
    cases inside

theorem writable_operator {s : String} : Writable (.operator s) ↔ s ∉ missingOperators := by
  rw [writable_iff]
  simp [Unwritable, expressionPlaces, subtrees, children]

/-- A node whose subtrees are all in the place of an expression. -/
theorem writable_of_places {n : Node} (places : n.expressionPlaces = n.subtrees)
    (other : ∀ s, n ≠ .operator s) : Writable n ↔ ∀ m ∈ n.subtrees, Expressible m := by
  rw [writable_iff, Unwritable, places]
  constructor
  · rintro ⟨own, below⟩ m hm
    refine ⟨?_, below m hm⟩
    rintro rfl
    exact own (.inr hm)
  · intro h
    refine ⟨?_, fun m hm => (h m hm).2⟩
    rintro (⟨s, -, rfl⟩ | inside)
    · exact other s rfl
    · exact (h _ inside).1 rfl

/-- A node none of whose subtrees is in the place of an expression. -/
theorem writable_of_no_places {n : Node} (places : n.expressionPlaces = [])
    (other : ∀ s, n ≠ .operator s) : Writable n ↔ ∀ m ∈ n.subtrees, Writable m := by
  rw [writable_iff, Unwritable, places]
  constructor
  · exact And.right
  · intro h
    refine ⟨?_, h⟩
    rintro (⟨s, -, rfl⟩ | inside)
    · exact other s rfl
    · cases inside

/-- A node whose first subtree alone is in the place of an expression. -/
theorem writable_of_first {n e : Node} {more : List Node} (places : n.expressionPlaces = [e])
    (subtrees : n.subtrees = e :: more) (other : ∀ s, n ≠ .operator s) :
    Writable n ↔ Expressible e ∧ ∀ m ∈ more, Writable m := by
  rw [writable_iff, Unwritable, places, subtrees, List.forall_mem_cons, Expressible]
  constructor
  · rintro ⟨own, first, rest⟩
    refine ⟨⟨?_, first⟩, rest⟩
    rintro rfl
    exact own (.inr List.mem_cons_self)
  · rintro ⟨⟨noYield, first⟩, rest⟩
    refine ⟨?_, first, rest⟩
    rintro (⟨s, -, rfl⟩ | inside)
    · exact other s rfl
    · exact noYield (List.mem_singleton.mp inside).symm

theorem writable_parameter {name : Option String} {v : Node} :
    Writable (.parameter name (some v)) ↔ Expressible v := by
  rw [writable_of_places rfl (by simp)]
  simp [subtrees]

theorem writable_parameters {ps : List Node} : Writable (.parameters ps) ↔ ∀ p ∈ ps, Writable p :=
  writable_of_no_places rfl (by simp)

/-- The value of an assignment may be a block. -/
theorem writable_assign {x : String} {v : Node} {op : AssignOp} :
    Writable (.assign (.var [x]) v op) ↔ Writable v := by
  rw [writable_of_no_places (n := .assign ..) rfl (by simp)]
  refine List.forall_mem_cons.trans ?_
  rw [List.forall_mem_singleton]
  exact and_iff_right (writable_leaf rfl rfl (by simp))

theorem writable_list {ns : List Node} : Writable (.list ns) ↔ ∀ n ∈ ns, Writable n :=
  writable_of_no_places rfl (by simp)

/-! ### Writers that can fail -/

/-- A refusal for one of the two things that tag files lack. -/
inductive Lack : Unsupported → Prop
  | operator {s : String} : s ∈ missingOperators → Lack ⟨(Node.operator s).label, .noSuchOperator⟩
  | yield : Lack ⟨Node.yield.label, .notExpression⟩

/-- The writer succeeds exactly if `p` holds. Otherwise it refuses something that tag files lack. -/
def SucceedsIff {α : Type} (p : Prop) : Except Unsupported α → Prop
  | .ok _ => p
  | .error e => ¬ p ∧ Lack e

variable {α β : Type} {p q : Prop} {x : Except Unsupported α}

theorem SucceedsIff.of_iff (h : SucceedsIff p x) (same : p ↔ q) : SucceedsIff q x := by
  cases x with
  | ok v => exact same.mp h
  | error e => exact ⟨mt same.mpr h.1, h.2⟩

theorem SucceedsIff.bind {f : α → Except Unsupported β} (first : SucceedsIff p x)
    (second : ∀ v, SucceedsIff q (f v)) : SucceedsIff (p ∧ q) (x >>= f) := by
  cases x with
  | error e => exact ⟨fun h => first.1 h.1, first.2⟩
  | ok v =>
    have next := second v
    show SucceedsIff (p ∧ q) (f v)
    cases result : f v with
    | ok w =>
      rw [result] at next
      exact ⟨first, next⟩
    | error e =>
      rw [result] at next
      exact ⟨fun h => next.1 h.2, next.2⟩

theorem SucceedsIff.map (h : SucceedsIff p x) (f : α → β) :
    SucceedsIff p (x >>= fun v => .ok (f v)) := by
  cases x <;> exact h

/-! ### Expressions -/

theorem expressions_succeed {ns : List Node}
    (h : ∀ n ∈ ns, SucceedsIff (Expressible n) (expression n)) :
    SucceedsIff (∀ n ∈ ns, Expressible n) (expressions ns) := by
  induction ns with
  | nil => exact fun _ hn => absurd hn List.not_mem_nil
  | cons n ns ih =>
    obtain ⟨first, rest⟩ := List.forall_mem_cons.mp h
    rw [expressions]
    refine (first.bind fun v => (ih rest).map (v :: ·)).of_iff ?_
    exact List.forall_mem_cons.symm

/-- A parameter with a value that can be written exactly if it is expressible. -/
def IsArgument (p : Node) : Prop :=
  ∃ name v, p = .parameter name (some v) ∧ SucceedsIff (Expressible v) (expression v)

theorem IsArgument.intro {name : Option String} {v : Node}
    (h : SucceedsIff (Expressible v) (expression v)) : IsArgument (.parameter name (some v)) :=
  ⟨name, v, rfl, h⟩

theorem values_succeed {ps : List Node} (h : ∀ p ∈ ps, IsArgument p) :
    SucceedsIff (Writable (.parameters ps)) (values ps) := by
  rw [writable_parameters]
  induction ps with
  | nil => exact fun _ hn => absurd hn List.not_mem_nil
  | cons p ps ih =>
    obtain ⟨⟨name, v, rfl, first⟩, rest⟩ := List.forall_mem_cons.mp h
    rw [values]
    refine (first.bind fun e => (ih rest).map (e :: ·)).of_iff ?_
    rw [List.forall_mem_cons, writable_parameter]

theorem entries_succeed {ps : List Node}
    (h : ∀ p ∈ ps, ∃ key v, p = .named key v ∧ SucceedsIff (Expressible v) (expression v)) :
    SucceedsIff (Writable (.parameters ps)) (entries ps) := by
  rw [writable_parameters]
  induction ps with
  | nil => exact fun _ hn => absurd hn List.not_mem_nil
  | cons p ps ih =>
    obtain ⟨⟨key, v, rfl, first⟩, rest⟩ := List.forall_mem_cons.mp h
    rw [named, entries]
    refine (first.bind fun e => (ih rest).map ((quote key ++ ": " ++ e) :: ·)).of_iff ?_
    rw [List.forall_mem_cons, writable_parameter]

/-- A chain, a group or an array, which is written from the texts of its parts. -/
theorem expression_of_parts {n : Node} {g : List String → String}
    (text : expression n = expressions n.subtrees >>= fun texts => .ok (g texts))
    (places : n.expressionPlaces = n.subtrees) (other : ∀ s, n ≠ .operator s) (block : n ≠ .yield)
    (parts : ∀ m ∈ n.subtrees, SucceedsIff (Expressible m) (expression m)) :
    SucceedsIff (Expressible n) (expression n) := by
  rw [text]
  refine ((expressions_succeed parts).map g).of_iff ?_
  rw [expressible_iff block, writable_of_places places other]

theorem expression_leaf {n : Node} {text : String} (ok : expression n = .ok text)
    (places : n.expressionPlaces = []) (noSubtree : n.subtrees = []) (other : ∀ s, n ≠ .operator s)
    (block : n ≠ .yield) : SucceedsIff (Expressible n) (expression n) := by
  rw [ok]
  exact ⟨block, writable_leaf places noSubtree other⟩

theorem expression_operator (s : String) :
    SucceedsIff (Expressible (.operator s)) (expression (.operator s)) := by
  rw [expression, expressible_iff (by simp), writable_operator]
  by_cases missing : s ∈ missingOperators
  · have none : operator? s = none := by
      rcases List.mem_pair.mp missing with rfl | rfl <;> rfl
    rw [none]
    exact ⟨fun h => h missing, .operator missing⟩
  · have some : ∃ t, operator? s = some t := by
      unfold operator?
      split
      · exact ⟨_, rfl⟩
      · exact ⟨_, rfl⟩
      · exact absurd (by decide) missing
      · exact absurd (by decide) missing
      · exact ⟨_, rfl⟩
    obtain ⟨t, found⟩ := some
    rw [found]
    exact missing

theorem expression_yield : SucceedsIff (Expressible .yield) (expression .yield) :=
  ⟨fun h => h.1 rfl, .yield⟩

end TagFile

namespace Grammar

open Template TagFile

/-- A call in an expression has no block. -/
theorem IsCondition.call_parts {name : String} {p : Node} {body : List Node}
    (h : IsCondition .parsed (.call name p body)) :
    ∃ args, p = .parameters args ∧ body = [] ∧ IsArguments .parsed args := by
  rcases h with ((_ | ((literal | _ | _ | ⟨_, arguments⟩ | _ | _ | _) | _)) | _) | _
  · cases literal
  · exact ⟨_, rfl, rfl, arguments⟩

theorem IsLiteral.eq_literal {n : Node} (h : IsLiteral n) : ∃ v k, n = .literal v k := by
  cases h <;> exact ⟨_, _, rfl⟩

mutual

theorem IsCondition.succeeds : {n : Node} → IsCondition .parsed n →
    SucceedsIff (Expressible n) (TagFile.expression n)
  | _, .expression h => h.succeeds
  | _, .chain hn hm _ =>
    expression_of_parts (by rw [TagFile.expression]; rfl) rfl (by simp) (by simp)
      (List.forall_mem_cons.mpr ⟨hn.succeeds, hm.succeeds⟩)

theorem IsConnected.succeeds : {more : List Node} → IsConnected .parsed more →
    ∀ m ∈ more, SucceedsIff (Expressible m) (TagFile.expression m)
  | _, .nil => by simp
  | _, .cons _ hn hm => by
    refine List.forall_mem_cons.mpr ⟨?_, List.forall_mem_cons.mpr ⟨hn.succeeds, hm.succeeds⟩⟩
    exact expression_leaf (by rw [TagFile.expression]) rfl rfl (by simp) (by simp)

theorem IsExpression.succeeds : {n : Node} → IsExpression .parsed n →
    SucceedsIff (Expressible n) (TagFile.expression n)
  | _, .operand h => h.succeeds
  | _, .chain hn hm _ =>
    expression_of_parts (by rw [TagFile.expression]; rfl) rfl (by simp) (by simp)
      (List.forall_mem_cons.mpr ⟨hn.succeeds, hm.succeeds⟩)

theorem IsOperated.succeeds : {more : List Node} → IsOperated .parsed more →
    ∀ m ∈ more, SucceedsIff (Expressible m) (TagFile.expression m)
  | _, .nil => by simp
  | _, .cons _ hn hm => List.forall_mem_cons.mpr
      ⟨expression_operator _, List.forall_mem_cons.mpr ⟨hn.succeeds, hm.succeeds⟩⟩

theorem IsOperand.succeeds : {n : Node} → IsOperand .parsed n →
    SucceedsIff (Expressible n) (TagFile.expression n)
  | _, .negated h => expression_of_parts (by rw [TagFile.expression]; rfl) rfl (by simp) (by simp)
      (List.forall_mem_cons.mpr
        ⟨expression_operator _, List.forall_mem_singleton.mpr h.succeeds⟩)
  | _, .term h => h.succeeds

theorem IsTerm.succeeds : {n : Node} → IsTerm .parsed n →
    SucceedsIff (Expressible n) (TagFile.expression n)
  | _, .primary h => h.succeeds
  | _, .filtered _ hs ha => by
    rw [TagFile.expression, TagFile.arguments]
    refine (hs.succeeds.bind fun e => (values_succeed ha.succeeds).map _).of_iff ?_
    rw [expressible_iff (n := .filter ..) (by simp), writable_of_first (n := .filter ..) rfl rfl
      (by simp), List.forall_mem_singleton]

theorem IsPrimary.succeeds : {n : Node} → IsPrimary .parsed n →
    SucceedsIff (Expressible n) (TagFile.expression n)
  | _, .literal h => by
    obtain ⟨v, k, rfl⟩ := h.eq_literal
    exact expression_leaf (by rw [TagFile.expression]) rfl rfl (by simp) (by simp)
  | _, .var _ => expression_leaf (by rw [TagFile.expression]) rfl rfl (by simp) (by simp)
  | _, .yield _ => expression_yield
  | _, .call _ ha => by
    rw [TagFile.expression, TagFile.arguments]
    refine ((values_succeed ha.succeeds).map _).of_iff ?_
    rw [expressible_iff (by simp), writable_of_no_places (n := .call ..) rfl (by simp)]
    exact List.forall_mem_singleton.symm
  | _, .group h => expression_of_parts (by rw [TagFile.expression]; rfl) rfl (by simp) (by simp)
      (List.forall_mem_singleton.mpr h.succeeds)
  | _, .array h => expression_of_parts (by rw [TagFile.expression]; rfl) rfl (by simp) (by simp)
      h.succeeds
  | _, .map h => by
    rw [TagFile.expression]
    exact ((entries_succeed h.succeeds).map _).of_iff (expressible_iff (by simp)).symm

theorem IsArguments.succeeds : {args : List Node} → IsArguments .parsed args →
    ∀ a ∈ args, IsArgument a
  | _, .nil => by simp
  | _, .positional hn hm => List.forall_mem_cons.mpr ⟨.intro hn.succeeds, hm.succeeds⟩
  | _, .named _ hn hm => List.forall_mem_cons.mpr ⟨.intro hn.succeeds, hm.succeeds⟩

theorem IsItems.succeeds : {items : List Node} → IsItems .parsed items →
    ∀ n ∈ items, SucceedsIff (Expressible n) (TagFile.expression n)
  | _, .nil => by simp
  | _, .cons hn hm => List.forall_mem_cons.mpr ⟨hn.succeeds, hm.succeeds⟩

theorem IsEntries.succeeds : {entries : List Node} → IsEntries .parsed entries →
    ∀ e ∈ entries, ∃ key v, e = .named key v ∧ SucceedsIff (Expressible v) (TagFile.expression v)
  | _, .nil => by simp
  | _, .cons hn hm => List.forall_mem_cons.mpr ⟨⟨_, _, rfl, hn.succeeds⟩, hm.succeeds⟩

end

end Grammar

namespace TagFile

open Node Grammar

/-! ### Statements -/

theorem tagAttributes_succeed {ps : List Node} (h : ∀ p ∈ ps, IsArgument p) (place : Nat) :
    SucceedsIff (Writable (.parameters ps)) (tagAttributes place ps) := by
  rw [writable_parameters]
  induction ps generalizing place with
  | nil => exact fun _ hn => absurd hn List.not_mem_nil
  | cons p ps ih =>
    obtain ⟨⟨name, v, rfl, first⟩, rest⟩ := List.forall_mem_cons.mp h
    have both : ∀ next label, SucceedsIff (∀ p ∈ Node.parameter name (some v) :: ps, Writable p)
        (expression v >>= fun value => tagAttributes next ps >>= fun rest =>
          .ok (" " ++ label ++ "=\"" ++ live (attributeText value) ++ "\"" ++ rest)) := by
      intro next label
      refine (first.bind fun value => (ih rest next).map _).of_iff ?_
      rw [List.forall_mem_cons, writable_parameter]
    cases name <;> exact both _ _

theorem attributes_succeed {ps : List Node} (h : IsDeclarations .parsed ps) :
    SucceedsIff (Writable (.parameters ps)) (attributes ps) := by
  rw [writable_parameters]
  induction h with
  | nil => exact fun _ hn => absurd hn List.not_mem_nil
  | bare _ _ ih =>
    refine (ih.map _).of_iff ?_
    rw [List.forall_mem_cons]
    exact ⟨fun h => ⟨writable_leaf rfl rfl (by simp), h⟩, And.right⟩
  | @defaulted name v more _ hv _ ih =>
    have setting := hv.succeeds.map fun e => defaultValue name (attributeText e)
    rw [named, attributes]
    refine (setting.bind fun s => ih.map _).of_iff ?_
    rw [List.forall_mem_cons, writable_parameter]

theorem statements_succeed {o : TagOptions} {ns : List Node}
    (h : ∀ n ∈ ns, SucceedsIff (Writable n) (statement o n)) :
    SucceedsIff (∀ n ∈ ns, Writable n) (statements o ns) := by
  induction ns with
  | nil =>
    rw [statements]
    exact fun _ hn => absurd hn List.not_mem_nil
  | cons n ns ih =>
    obtain ⟨first, rest⟩ := List.forall_mem_cons.mp h
    rw [statements]
    refine (first.bind fun text => (ih rest).map (text ++ ·)).of_iff ?_
    exact List.forall_mem_cons.symm

theorem block_eq (o : TagOptions) (n : Node) (ns : List Node) :
    block o (n :: ns) = (statements o (n :: ns)).map some := by
  rw [block, statements]
  rcases statement o n with e | text
  · rfl
  · show _ = Except.map some (statements o ns >>= fun rest => .ok (text ++ rest))
    rcases statements o ns with e | rest <;> rfl

theorem block_succeeds {o : TagOptions} {ns : List Node}
    (h : ∀ n ∈ ns, SucceedsIff (Writable n) (statement o n)) :
    SucceedsIff (∀ n ∈ ns, Writable n) (block o ns) := by
  cases ns with
  | nil =>
    rw [block]
    exact fun _ hn => absurd hn List.not_mem_nil
  | cons n ns =>
    rw [block_eq]
    have := statements_succeed h
    cases result : statements o (n :: ns) with
    | ok text => rwa [result] at this
    | error e => rwa [result] at this

/-- A branching that is all of a second branch is written as further cases. That does not change
whether it can be written. -/
theorem otherwise_succeeds {o : TagOptions} {ns : List Node} (h : SucceedsIff p (statements o ns)) :
    SucceedsIff p (otherwise o ns) := by
  unfold otherwise
  split
  · rename_i c ys ns
    rw [statements, statement, statements] at h
    generalize expression c = test at h ⊢
    generalize statements o ys = body at h ⊢
    generalize otherwise o ns = rest at h ⊢
    cases test with
    | error e => exact h
    | ok test =>
      cases body with
      | error e => exact h
      | ok body =>
        cases ns with
        | nil => exact h
        | cons n ns => cases rest <;> exact h
  · exact h.map _

theorem branch_succeeds {o : TagOptions} {c : Node} {ys ns : List Node}
    (test : SucceedsIff (Expressible c) (expression c))
    (yes : ∀ n ∈ ys, SucceedsIff (Writable n) (statement o n))
    (no : ∀ n ∈ ns, SucceedsIff (Writable n) (statement o n)) :
    SucceedsIff (Writable (.branch c ys ns)) (statement o (.branch c ys ns)) := by
  rw [writable_of_first (n := .branch ..) rfl rfl (by simp), List.forall_mem_append, statement]
  refine test.bind fun e => (statements_succeed yes).bind fun body => ?_
  cases ns with
  | nil => exact fun _ hn => absurd hn List.not_mem_nil
  | cons n ns => exact (otherwise_succeeds (statements_succeed no)).map _

theorem call_succeeds {o : TagOptions} {name : String} {args body : List Node}
    (arguments : ∀ a ∈ args, IsArgument a)
    (inside : ∀ n ∈ body, SucceedsIff (Writable n) (statement o n)) :
    SucceedsIff (Writable (.call name (.parameters args) body))
      (statement o (.call name (.parameters args) body)) := by
  rw [writable_of_no_places (n := .call ..) rfl (by simp), statement]
  refine ((tagAttributes_succeed arguments 0).bind fun _ => (block_succeeds inside).map _).of_iff ?_
  exact List.forall_mem_cons.symm

/-- An output of a call is written as the call is. -/
theorem statement_output_call (o : TagOptions) (name : String) (p : Node) (body : List Node) :
    statement o (.output [.call name p body]) = statement o (.call name p body) := by
  rw [statement, statement]

theorem writable_output {n : Node} (other : n ≠ .yield) : Writable (.output [n]) ↔ Writable n := by
  rw [writable_of_places rfl (by simp)]
  exact List.forall_mem_singleton.trans (expressible_iff other)

theorem output_succeeds {o : TagOptions} {n : Node} (h : IsCondition .parsed n)
    (other : n ≠ .yield) :
    SucceedsIff (Writable (.output [n])) (statement o (.output [n])) := by
  rw [writable_output other]
  by_cases isCall : ∃ name p body, n = .call name p body
  · obtain ⟨name, p, body, rfl⟩ := isCall
    obtain ⟨args, rfl, rfl, arguments⟩ := h.call_parts
    rw [statement_output_call]
    exact call_succeeds arguments.succeeds (by simp)
  · rw [statement]
    · exact (h.succeeds.map _).of_iff (expressible_iff other)
    · intro name p body same
      exact isCall ⟨name, p, body, same⟩

/-- The value of an assignment, if it is neither a block nor a list. -/
theorem set_succeeds {o : TagOptions} {x : String} {n : Node} (h : IsCondition .parsed n) :
    SucceedsIff (Writable (.assign (.var [x]) n .set))
      (statement o (.assign (.var [x]) n .set)) := by
  rw [writable_assign]
  by_cases block : n = .yield
  · subst block
    rw [statement, expression]
    exact writable_leaf rfl rfl (by simp)
  · have part : isExpressionPart n = true := h.isExpressionTree n n.mem_preorder_self
    rw [statement, expression]
    · exact (h.succeeds.map _).of_iff (expressible_iff block)
    · rintro body rfl
      cases part
    · exact block

theorem macroDef_succeeds {o : TagOptions} {name : String} {params body : List Node}
    (declared : IsDeclarations .parsed params)
    (inside : ∀ n ∈ body, SucceedsIff (Writable n) (statement o n)) (doc : Option String) :
    SucceedsIff (Writable (.macroDef name (.parameters params) body doc))
      (statement o (.macroDef name (.parameters params) body doc)) := by
  rw [writable_of_no_places (n := .macroDef ..) rfl (by simp), statement, head]
  have start := (attributes_succeed declared).map fun (texts : String × String) =>
    doc.elim "" comment ++ (if o.emitHeader then directives o ++ texts.1 else "") ++ texts.2
  refine (start.bind fun _ => (statements_succeed inside).map _).of_iff ?_
  exact List.forall_mem_cons.symm

end TagFile

namespace Grammar

open Template TagFile

mutual

theorem IsStatement.succeeds (o : TagOptions) : {n : Node} → IsStatement .parsed n →
    SucceedsIff (Writable n) (TagFile.statement o n)
  | _, .text _ => by
    rw [TagFile.statement]
    exact writable_leaf rfl rfl (by simp)
  | _, .output h other => output_succeeds h other
  | _, .yield => by
    rw [TagFile.statement]
    exact writable_leaf rfl rfl (by simp)
  | _, .set _ h => set_succeeds h
  | _, .blockSet _ h => by
    rw [writable_assign, writable_list, TagFile.statement, TagFile.expression]
    exact (statements_succeed (h.succeeds o)).map _
  | _, .branch hc hyes hno => branch_succeeds hc.succeeds (hyes.succeeds o) (hno.succeeds o)
  | _, .loop _ _ hs hb => by
    rw [writable_of_first (n := .loop ..) rfl rfl (by simp), TagFile.statement]
    exact hs.succeeds.bind fun _ => (statements_succeed (hb.succeeds o)).map _
  | _, .call _ ha hb => call_succeeds ha.succeeds (hb.succeeds o)
  | _, .macroDef _ hd hb => macroDef_succeeds hd (hb.succeeds o) none

theorem IsBody.succeeds (o : TagOptions) : {body : List Node} → IsBody .parsed body →
    ∀ n ∈ body, SucceedsIff (Writable n) (TagFile.statement o n)
  | _, .nil => by simp
  | _, .cons hn _ hm => List.forall_mem_cons.mpr ⟨hn.succeeds o, hm.succeeds o⟩

end

/-- An element of a template, which may be a macro with documentation. -/
theorem succeeds_of_undocumented (o : TagOptions) {n : Node}
    (h : IsStatement .parsed (undocumented n)) :
    SucceedsIff (Writable n) (TagFile.statement o n) := by
  cases n with
  | macroDef name params body doc =>
    cases h with
    | macroDef _ declared inside => exact macroDef_succeeds declared (inside.succeeds o) doc
  | _ => exact h.succeeds o

theorem succeeds_of_parse {source : String} {t : Node} (read : parse source = .ok t)
    (o : TagOptions) : SucceedsIff (Writable t) (TagFile.render o t) := by
  obtain ⟨ns, template, rfl⟩ := isTemplate_of_parse read
  have elements : ∀ n ∈ ns, SucceedsIff (Writable n) (TagFile.statement o n) := by
    intro n hn
    exact succeeds_of_undocumented o ((isBody_iff.mp template).1 _ (List.mem_map_of_mem hn))
  rw [TagFile.render]
  unfold ofElements
  split
  · rename_i name params body doc lone
    have member : Node.macroDef name params body doc ∈ ns.filter (!·.isBlankText) := by
      rw [lone]
      exact List.mem_singleton_self _
    exact elements _ (List.mem_filter.mp member).1
  · rw [writable_list, TagFile.statement]
    exact statements_succeed elements

/-- A template cannot be written exactly if it has an operator that tag files lack, or a block in
the place of an expression. The failure is one of the renderer and names what is lacking. -/
theorem render_fails_iff {source : String} {t : Node} (read : parse source = .ok t)
    (o : TagOptions) :
    ((∃ e, TagFile.render o t = .error e) ↔
      (∃ s, (s = "in" ∨ s = "**") ∧ .operator s ∈ t.preorder) ∨
        ∃ k ∈ t.preorder, .yield ∈ k.expressionPlaces) ∧
    ∀ e, TagFile.render o t = .error e → Lack e ∧
      ∀ passes m, (Compiler.render ⟨passes, .tagFile o⟩ t).run m = (.error (.render e), m) := by
  have outcome := succeeds_of_parse read o
  constructor
  · rw [← not_writable_iff]
    cases result : TagFile.render o t with
    | ok text =>
      rw [result] at outcome
      constructor
      · rintro ⟨e, failed⟩
        cases failed
      · intro unwritable
        exact absurd outcome unwritable
    | error e =>
      rw [result] at outcome
      exact ⟨fun _ => outcome.1, fun _ => ⟨e, rfl⟩⟩
  · intro e failed
    rw [failed] at outcome
    refine ⟨outcome.2, fun passes m => ?_⟩
    rw [Compiler.render, Run.run_ofExcept]
    show ((TagFile.render o t).mapError _, m) = _
    rw [failed]
    rfl

/-- A block may be assigned, but not be the argument of a filter, even of one that takes none. -/
theorem render_fails_on_block_argument :
    parse "\x7b% set x = caller() %\x7d\x7b\x7b x | upper(caller()) \x7d\x7d" =
      .ok (.list [.assign (.var ["x"]) .yield .set,
        .output [.filter "upper" (.var ["x"]) (.parameters [.positional .yield])]]) ∧
    ∃ e, Lack e ∧ TagFile.render .standard (.list [.assign (.var ["x"]) .yield .set,
        .output [.filter "upper" (.var ["x"]) (.parameters [.positional .yield])]]) = .error e := by
  have tree : parse "\x7b% set x = caller() %\x7d\x7b\x7b x | upper(caller()) \x7d\x7d" =
      .ok (.list [.assign (.var ["x"]) .yield .set,
        .output [.filter "upper" (.var ["x"]) (.parameters [.positional .yield])]]) := by
    rw [Template.parse_eq]
    cbv
  obtain ⟨fails, reason⟩ := render_fails_iff tree .standard
  obtain ⟨e, failed⟩ := fails.mpr (.inr ⟨.positional .yield, by
    simp [Node.preorder, Node.preorderAll, Node.positional], List.mem_singleton_self _⟩)
  exact ⟨tree, e, (reason e failed).1, failed⟩

end Grammar
end TagCompiler
