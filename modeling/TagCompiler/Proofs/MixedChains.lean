import TagCompiler.Proofs.SettledStrings
/-!
# Sums in chains that build a string

From left to right, a `+` adds two numbers and concatenates everything else. A chain that builds a
string is split into appends, which only concatenate. So what is lost are the additions: those of
the numbers at the start of the chain, before the first string or `~`. This module says which value
an assignment and its pieces leave in the target, and when the two agree.
-/

namespace TagCompiler

open Grammar Node Effects

/-! ### Values -/

/-- A number or a string. -/
inductive Quantity where
  | number (n : Number)
  | string (s : String)
  deriving DecidableEq

/-- How numbers are added and written. -/
structure Arithmetic where
  add : Number → Number → Number
  text : Number → String

namespace Arithmetic

variable (A : Arithmetic)

def written : Quantity → String
  | .number n => A.text n
  | .string s => s

def concat (v w : Quantity) : Quantity := .string (A.written v ++ A.written w)

def plus : Quantity → Quantity → Quantity
  | .number m, .number n => .number (A.add m n)
  | v, w => A.concat v w

/-- Two values joined by a sign. -/
def join? (sign : String) (v w : Quantity) : Option Quantity :=
  if sign = "+" then some (A.plus v w)
  else if sign = "~" ∨ sign = StringBuilding.concatSign then some (A.concat v w)
  else none

end Arithmetic

/-- Variables that hold values. An assignment to `x` may change what the paths that start with `x`
hold, and no others. -/
structure Variables where
  State : Type
  read : State → List String → Quantity
  write : State → String → Quantity → State
  read_write : ∀ s x v, read (write s x v) [x] = v
  read_write_of_ne : ∀ s x v path, path.head? ≠ some x → read (write s x v) path = read s path

/-! ### Evaluation -/

def Variables.operand? (V : Variables) (s : V.State) : Node → Option Quantity
  | .literal (.number n) .number => some (.number n)
  | .literal (.string t) .string => some (.string t)
  | .var path => some (V.read s path)
  | _ => none

namespace Arithmetic

variable (A : Arithmetic) (V : Variables) (s : V.State)

/-- Joins the value so far with the operands that follow, from left to right. -/
def joinAll? : Quantity → List Node → Option Quantity
  | v, [] => some v
  | v, .operator sign :: n :: rest => do
    let w ← V.operand? s n
    joinAll? (← A.join? sign v w) rest
  | _, _ => none

def value? : Node → Option Quantity
  | .expression (n :: rest) => do joinAll? A V s (← V.operand? s n) rest
  | n => V.operand? s n

def step? : Node → Option V.State
  | .assign (.var [x]) value .set => (A.value? V s value).map (V.write s x)
  | .assign (.var [x]) value .append =>
    (A.value? V s value).map fun v => V.write s x (A.concat (V.read s [x]) v)
  | _ => none

/-- Runs assignments one after the other. -/
def run? (ns : List Node) : Option V.State := ns.foldlM (A.step? V) s

end Arithmetic

/-! ### Chains of `+` and `~` -/

namespace Mixed

inductive Operand where
  | number (n : Number)
  | string (s : String)
  | var (root : String) (fields : List String)

def Operand.node : Operand → Node
  | .number n => .literal (.number n) .number
  | .string s => .literal (.string s) .string
  | .var root fields => .var (root :: fields)

def Operand.isString : Operand → Bool
  | .string _ => true
  | _ => false

def Operand.value (V : Variables) (s : V.State) : Operand → Quantity
  | .number n => .number n
  | .string t => .string t
  | .var root fields => V.read s (root :: fields)

inductive Joiner where
  | plus
  | tilde
  deriving DecidableEq

def Joiner.sign : Joiner → String
  | .plus => "+"
  | .tilde => "~"

def Joiner.apply (A : Arithmetic) : Joiner → Quantity → Quantity → Quantity
  | .plus => A.plus
  | .tilde => A.concat

/-- An operand, and any number of others with the signs before them. -/
structure Chain where
  first : Operand
  rest : List (Joiner × Operand)

/-- The operands that follow, with their signs. -/
def tail {α : Type} (sign : α → String) (operand : α → Operand) (rest : List α) : List Node :=
  rest.flatMap fun a => [.operator (sign a), (operand a).node]

namespace Chain

variable (c : Chain)

def operands : List Operand := c.first :: c.rest.map Prod.snd

def members : List Node := c.first.node :: tail (·.1.sign) (·.2) c.rest

def node : Node :=
  match c.rest with
  | [] => c.first.node
  | _ :: _ => .expression c.members

/-- The assignment of the chain. -/
def assignment (x : String) : Node := .assign (.var [x]) c.node .set

/-- All signs are `+`, and no operand is a string literal. -/
def IsSum : Prop := (∀ p ∈ c.rest, p.1 = .plus) ∧ ∀ t ∈ c.operands, t.isString = false

end Chain

section Values

variable (A : Arithmetic) (V : Variables) (s : V.State)

/-- The value so far, joined with the operands that follow, from left to right. -/
def total (v : Quantity) (rest : List (Joiner × Operand)) : Quantity :=
  rest.foldl (fun v p => p.1.apply A v (p.2.value V s)) v

/-- The value so far and the operands that follow, concatenated. -/
def concatAll (v : Quantity) (rest : List Operand) : Quantity :=
  rest.foldl (fun v t => A.concat v (t.value V s)) v

/-- What is written for operands. -/
def texts (ts : List Operand) : List String := ts.map fun t => A.written (t.value V s)

def Chain.value (c : Chain) : Quantity := total A V s (c.first.value V s) c.rest

/-- The numbers that follow, up to the first string or `~`. -/
def leading : List (Joiner × Operand) → List Number
  | (.plus, t) :: rest =>
    match t.value V s with
    | .number n => n :: leading rest
    | .string _ => []
  | _ => []

/-- The numbers that are added: those before the first string or `~`. -/
def Chain.addends (c : Chain) : List Number :=
  match c.first.value V s with
  | .number n => n :: leading V s c.rest
  | .string _ => []

/-- The sum of the numbers is written as the numbers are, one after the other. -/
def SumReads : List Number → Prop
  | [] => True
  | n :: ns => A.text (ns.foldl A.add n) = String.join ((n :: ns).map A.text)

end Values

/-! ### The value from left to right -/

section Values

variable {A : Arithmetic} {V : Variables} {s : V.State}

theorem operand?_node (t : Operand) : V.operand? s t.node = some (t.value V s) := by
  cases t <;> rfl

theorem value?_operand (t : Operand) : A.value? V s t.node = some (t.value V s) := by
  cases t <;> rfl

theorem joinAll?_tail {α : Type} {sign : α → String} {operand : α → Operand}
    {f : Quantity → α → Quantity}
    (joins : ∀ v a, A.join? (sign a) v ((operand a).value V s) = some (f v a)) (v : Quantity)
    (rest : List α) : A.joinAll? V s v (tail sign operand rest) = some (rest.foldl f v) := by
  induction rest generalizing v with
  | nil => rfl
  | cons a rest ih =>
    show A.joinAll? V s v (.operator (sign a) :: (operand a).node :: tail sign operand rest) = _
    rw [Arithmetic.joinAll?, operand?_node]
    simp only [Option.bind_eq_bind, Option.bind_some]
    rw [joins, Option.bind_some, ih, List.foldl_cons]

theorem join?_sign (j : Joiner) (v w : Quantity) : A.join? j.sign v w = some (j.apply A v w) := by
  cases j <;> simp [Arithmetic.join?, Joiner.sign, Joiner.apply]

theorem join?_concatSign (v w : Quantity) :
    A.join? StringBuilding.concatSign v w = some (A.concat v w) := by
  simp [Arithmetic.join?, StringBuilding.concatSign]

theorem value?_chain (t : Operand) {rest : List Node} {v : Quantity}
    (h : A.joinAll? V s (t.value V s) rest = some v) :
    A.value? V s (.expression (t.node :: rest)) = some v := by
  rw [Arithmetic.value?, operand?_node]
  exact h

theorem value?_node (c : Chain) : A.value? V s c.node = some (c.value A V s) := by
  unfold Chain.node
  split
  · rename_i single
    rw [value?_operand, Chain.value, single]
    rfl
  · exact value?_chain c.first (joinAll?_tail (fun v p => join?_sign p.1 v _) _ c.rest)

theorem intersperse_eq (sign : String) (first : Operand) (rest : List Operand) :
    ((first :: rest).map Operand.node).intersperse (.operator sign) =
      first.node :: tail (fun _ => sign) id rest := by
  induction rest generalizing first with
  | nil => rfl
  | cons second rest ih =>
    rw [List.map_cons, List.map_cons, List.intersperse_cons_cons, ← List.map_cons, ih]
    rfl

theorem value?_intersperse (first : Operand) (rest : List Operand) :
    A.value? V s (.expression (((first :: rest).map Operand.node).intersperse
      (.operator StringBuilding.concatSign))) =
      some (concatAll A V s (first.value V s) rest) := by
  rw [intersperse_eq]
  exact value?_chain first (joinAll?_tail (fun v t => join?_concatSign v _) _ rest)

/-! ### Strings -/

theorem concatAll_eq (v : Quantity) {rest : List Operand} (several : rest ≠ []) :
    concatAll A V s v rest = .string (A.written v ++ String.join (texts A V s rest)) := by
  induction rest generalizing v with
  | nil => exact absurd rfl several
  | cons t rest ih =>
    show concatAll A V s (A.concat v (t.value V s)) rest = _
    cases rest with
    | nil => simp [concatAll, texts, Arithmetic.concat, String.join]
    | cons u rest =>
      rw [ih _ (List.cons_ne_nil _ _)]
      simp [texts, Arithmetic.concat, Arithmetic.written, String.join_cons, String.append_assoc]

theorem total_string (t : String) (rest : List (Joiner × Operand)) :
    total A V s (.string t) rest =
      .string (t ++ String.join (texts A V s (rest.map Prod.snd))) := by
  induction rest generalizing t with
  | nil => simp [total, texts, String.join]
  | cons p rest ih =>
    have joined : p.1.apply A (.string t) (p.2.value V s) =
        .string (t ++ A.written (p.2.value V s)) := by
      cases p.1 <;> rfl
    show total A V s (p.1.apply A (.string t) (p.2.value V s)) rest = _
    rw [joined, ih]
    simp [texts, String.join_cons, String.append_assoc]

theorem exists_string_of_apply {j : Joiner} {t : Operand} (h : j = .tilde ∨ t.isString = true)
    (v : Quantity) : ∃ u, j.apply A v (t.value V s) = .string u := by
  rcases h with rfl | literal
  · exact ⟨_, rfl⟩
  · cases t with
    | string u => cases j <;> cases v <;> exact ⟨_, rfl⟩
    | number | var => cases literal

/-- A string comes about at the first `~` or string literal at the latest. -/
theorem total_eq_string {rest : List (Joiner × Operand)}
    (h : ∃ p ∈ rest, p.1 = .tilde ∨ p.2.isString = true) (v : Quantity) :
    total A V s v rest = .string (A.written (total A V s v rest)) := by
  induction rest generalizing v with
  | nil => simp at h
  | cons p rest ih =>
    show total A V s (p.1.apply A v (p.2.value V s)) rest =
      .string (A.written (total A V s (p.1.apply A v (p.2.value V s)) rest))
    obtain ⟨q, hq, string⟩ := h
    rcases List.mem_cons.mp hq with rfl | hq
    · obtain ⟨u, joined⟩ := exists_string_of_apply (A := A) (V := V) (s := s) string v
      rw [joined, total_string]
      rfl
    · exact ih ⟨q, hq, string⟩ _

/-- After a number, an operand is added or concatenated. -/
theorem leading_cases (j : Joiner) (t : Operand) (rest : List (Joiner × Operand)) :
    (∃ m, t.value V s = .number m ∧ leading V s ((j, t) :: rest) = m :: leading V s rest ∧
      ∀ n, j.apply A (.number n) (t.value V s) = .number (A.add n m)) ∨
    leading V s ((j, t) :: rest) = [] ∧
      ∀ n, j.apply A (.number n) (t.value V s) = A.concat (.number n) (t.value V s) := by
  cases j with
  | tilde => exact .inr ⟨rfl, fun _ => rfl⟩
  | plus =>
    rw [leading]
    cases value : t.value V s with
    | number m => exact .inl ⟨m, rfl, rfl, fun _ => rfl⟩
    | string u => exact .inr ⟨rfl, fun _ => rfl⟩

/-- The numbers that follow are added, and what comes after them is concatenated. -/
theorem exists_later (rest : List (Joiner × Operand)) : ∃ later : List String,
    texts A V s (rest.map Prod.snd) = (leading V s rest).map A.text ++ later ∧
      ∀ n, A.written (total A V s (.number n) rest) =
        A.text ((leading V s rest).foldl A.add n) ++ String.join later := by
  induction rest with
  | nil => exact ⟨[], rfl, fun n => by simp [total, leading, Arithmetic.written, String.join]⟩
  | cons p rest ih =>
    obtain ⟨j, t⟩ := p
    have step (n : Number) : total A V s (.number n) ((j, t) :: rest) =
        total A V s (j.apply A (.number n) (t.value V s)) rest := rfl
    have own : texts A V s (((j, t) :: rest).map Prod.snd) =
        A.written (t.value V s) :: texts A V s (rest.map Prod.snd) := rfl
    rcases leading_cases (A := A) (V := V) (s := s) j t rest with
      ⟨m, value, more, added⟩ | ⟨none, joined⟩
    · obtain ⟨later, split, sum⟩ := ih
      refine ⟨later, ?_, fun n => ?_⟩
      · rw [own, more, split, value]
        rfl
      · rw [step, added, sum, more, List.foldl_cons]
    · refine ⟨texts A V s (((j, t) :: rest).map Prod.snd), ?_, fun n => ?_⟩
      · rw [none]
        rfl
      · rw [step, joined, Arithmetic.concat, total_string, none, own, String.join_cons]
        exact String.append_assoc

theorem value_eq_string {c : Chain} (mixed : ¬ c.IsSum) :
    c.value A V s = .string (A.written (c.value A V s)) := by
  unfold Chain.value
  by_cases literal : c.first.isString = true
  · obtain ⟨t, ht⟩ : ∃ t, c.first.value V s = .string t := by
      cases first : c.first with
      | string t => exact ⟨t, rfl⟩
      | number | var => simp [first, Operand.isString] at literal
    rw [ht, total_string]
    rfl
  · refine total_eq_string ?_ _
    by_contra none
    simp only [not_exists, not_and, not_or, Bool.not_eq_true] at none literal
    refine mixed ⟨fun p hp => ?_, ?_⟩
    · cases sign : p.1 with
      | plus => rfl
      | tilde => exact absurd sign (none p hp).1
    · rw [Chain.operands, List.forall_mem_cons, List.forall_mem_map]
      exact ⟨literal, fun p hp => (none p hp).2⟩

/-- The value from left to right is the concatenation of the operands exactly if adding numbers
comes to the same as concatenating them. -/
theorem value_eq_concat_iff {c : Chain} (mixed : ¬ c.IsSum) :
    c.value A V s = .string (String.join (texts A V s c.operands)) ↔
      SumReads A (c.addends V s) := by
  rw [value_eq_string mixed, Quantity.string.injEq, Chain.value, Chain.addends, Chain.operands]
  show _ = String.join (A.written (c.first.value V s) :: texts A V s (c.rest.map Prod.snd)) ↔ _
  rw [String.join_cons]
  cases c.first.value V s with
  | string t =>
    rw [total_string]
    exact iff_of_true rfl trivial
  | number n =>
    obtain ⟨later, split, sum⟩ := exists_later (A := A) (V := V) (s := s) c.rest
    rw [sum, split, String.join_append, ← String.append_assoc, String.append_left_inj]
    show _ ↔ _ = String.join (A.text n :: _)
    rw [String.join_cons]
    rfl

/-! ### What the pieces of an assignment do -/

/-- The target holds a value, and what does not start with the target is as before. -/
structure Assigned (V : Variables) (s : V.State) (x : String) (v : Quantity) (s' : V.State) :
    Prop where
  target : V.read s' [x] = v
  others : ∀ path, path.head? ≠ some x → V.read s' path = V.read s path

namespace Assigned

variable {x : String} {v : Quantity} {s' : V.State}

theorem self (x : String) : Assigned V s x (V.read s [x]) s := ⟨rfl, fun _ _ => rfl⟩

theorem write (h : Assigned V s x v s') (w : Quantity) : Assigned V s x w (V.write s' x w) :=
  ⟨V.read_write s' x w, fun path other =>
    (V.read_write_of_ne s' x w path other).trans (h.others path other)⟩

theorem value (h : Assigned V s x v s') {t : Operand}
    (unread : StringBuilding.reads (some x) t.node = false) : t.value V s' = t.value V s := by
  cases t with
  | number | string => rfl
  | var root fields =>
    refine h.others (root :: fields) fun same => ?_
    simp [StringBuilding.reads, Operand.node, preorder, isVar, rootName?] at unread
    exact unread (by simpa using same)

end Assigned

theorem run?_cons {n : Node} {ns : List Node} {s' : V.State} (h : A.step? V s n = some s') :
    A.run? V s (n :: ns) = A.run? V s' ns := by
  rw [Arithmetic.run?, List.foldlM_cons, h]
  rfl

theorem step?_set {x : String} {n : Node} {v : Quantity} (h : A.value? V s n = some v) :
    A.step? V s (.assign (.var [x]) n .set) = some (V.write s x v) := by
  rw [Arithmetic.step?, h]
  rfl

theorem step?_append {x : String} (t : Operand) :
    A.step? V s (.assign (.var [x]) t.node .append) =
      some (V.write s x (A.concat (V.read s [x]) (t.value V s))) := by
  rw [Arithmetic.step?, value?_operand]
  rfl

/-- Appending operands that do not read the target. -/
theorem run?_appends {x : String} {rest : List Operand}
    (unread : ∀ t ∈ rest, StringBuilding.reads (some x) t.node = false) {v : Quantity}
    {s' : V.State} (h : Assigned V s x v s') : ∃ s'',
      A.run? V s' (rest.map fun t => .assign (.var [x]) t.node .append) = some s'' ∧
        Assigned V s x (concatAll A V s v rest) s'' := by
  induction rest generalizing v s' with
  | nil => exact ⟨s', rfl, h⟩
  | cons t rest ih =>
    obtain ⟨own, others⟩ := List.forall_mem_cons.mp unread
    have step := step?_append (A := A) (s := s') (x := x) t
    rw [h.target, h.value own] at step
    obtain ⟨s'', run, assigned⟩ := ih others (h.write (A.concat v (t.value V s)))
    exact ⟨s'', (run?_cons step).trans run, assigned⟩

theorem eq_var_of_node {t : Operand} {x : String} (h : t.node = .var [x]) : t = .var x [] := by
  cases t with
  | var root fields =>
    cases h
    rfl
  | number | string => cases h

/-- The assignments for a string leave the concatenation of its operands. -/
theorem run?_assignments (x : String) (first : Operand) (rest : List Operand) : ∃ s',
    A.run? V s (StringBuilding.assignments (.var [x]) first.node (rest.map Operand.node)) =
      some s' ∧ Assigned V s x (concatAll A V s (first.value V s) rest) s' := by
  unfold StringBuilding.assignments
  split
  · have step := step?_set (x := x) (value?_intersperse (A := A) (V := V) (s := s) first rest)
    exact ⟨_, run?_cons step, (Assigned.self x).write _⟩
  · rename_i unread
    have unread : ∀ t ∈ rest, StringBuilding.reads (some x) t.node = false := by
      simpa [rootName?] using unread
    rw [List.map_map]
    split
    · rename_i itself
      obtain rfl := eq_var_of_node (Interpretation.eq_of_same_var itself)
      exact run?_appends unread (.self x)
    · have step := step?_set (x := x) (value?_operand (A := A) (V := V) (s := s) first)
      obtain ⟨s', run, assigned⟩ := run?_appends (A := A) unread ((Assigned.self x).write _)
      exact ⟨s', (run?_cons step).trans run, assigned⟩

end Values

/-! ### The pieces of an assignment -/

theorem terms_members (c : Chain) :
    StringBuilding.terms c.members = c.operands.map Operand.node := by
  obtain ⟨first, rest⟩ := c
  induction rest generalizing first with
  | nil => rfl
  | cons p rest ih => exact congrArg (first.node :: ·) (ih p.2)

theorem joiners_members (c : Chain) :
    StringBuilding.joiners c.members = c.rest.map fun p => .operator p.1.sign := by
  obtain ⟨first, rest⟩ := c
  induction rest generalizing first with
  | nil => rfl
  | cons p rest ih => exact congrArg (.operator p.1.sign :: ·) (ih p.2)

theorem isStringLiteral_node (t : Operand) :
    StringBuilding.isStringLiteral t.node = t.isString := by
  cases t <;> rfl

theorem isPlus_sign (j : Joiner) : StringBuilding.isPlus (.operator j.sign) = (j == .plus) := by
  cases j <;> rfl

theorem isTilde_sign (j : Joiner) : StringBuilding.isTilde (.operator j.sign) = (j == .tilde) := by
  cases j <;> rfl

theorem Joiner.ne_plus_iff {j : Joiner} : j ≠ .plus ↔ j = .tilde := by
  cases j <;> decide

theorem not_isSum_iff {c : Chain} :
    ¬ c.IsSum ↔ (∃ t ∈ c.operands, t.isString = true) ∨ ∃ p ∈ c.rest, p.1 = .tilde := by
  unfold Chain.IsSum
  rw [not_and_or, or_comm]
  refine or_congr ?_ ?_
  · simp
  · simp only [not_forall, exists_prop, ← ne_eq, Joiner.ne_plus_iff]

theorem builds_members_iff {c : Chain} :
    StringBuilding.builds c.members = true ↔ c.rest ≠ [] ∧ ¬ c.IsSum := by
  have joined : ∀ j ∈ StringBuilding.joiners c.members,
      StringBuilding.isPlus j = true ∨ StringBuilding.isTilde j = true := by
    rw [joiners_members, List.forall_mem_map]
    intro p _
    rw [isPlus_sign, isTilde_sign]
    cases p.1 <;> decide
  have several : 1 < c.operands.length ↔ c.rest ≠ [] := by
    cases rest : c.rest <;> simp [Chain.operands, rest]
  rw [StringBuilding.builds_iff, and_iff_right joined, terms_members, joiners_members,
    not_isSum_iff, List.length_map, several]
  simp [isTilde_sign, isStringLiteral_node]

theorem mem_members {c : Chain} {n : Node} (h : n ∈ c.members) :
    (∃ t : Operand, n = t.node) ∨ ∃ p ∈ c.rest, n = .operator p.1.sign := by
  rcases List.mem_cons.mp h with rfl | h
  · exact .inl ⟨_, rfl⟩
  · obtain ⟨p, hp, h⟩ := List.mem_flatMap.mp h
    rcases List.mem_pair.mp h with rfl | rfl
    · exact .inr ⟨p, hp, rfl⟩
    · exact .inl ⟨_, rfl⟩

/-- What holds of the nodes that the assignment of a chain is made of holds of all its nodes. -/
theorem forall_preorder_assignment {Own : Node → Prop} {c : Chain} {x : String}
    (assignment : Own (c.assignment x)) (target : Own (.var [x]))
    (chain : Own (.expression c.members)) (operand : ∀ t : Operand, Own t.node)
    (sign : ∀ p ∈ c.rest, Own (.operator p.1.sign)) : ∀ k ∈ (c.assignment x).preorder, Own k := by
  have leaf : ∀ t : Operand, ∀ k ∈ t.node.preorder, Own k := by
    intro t
    refine forall_preorder_iff.mpr ⟨operand t, ?_⟩
    cases t <;> simp [Operand.node, subtrees, children]
  have value : ∀ k ∈ c.node.preorder, Own k := by
    unfold Chain.node
    split
    · exact leaf c.first
    · refine forall_preorder_iff.mpr ⟨chain, fun n hn => ?_⟩
      rcases mem_members hn with ⟨t, rfl⟩ | ⟨p, hp, rfl⟩
      · exact leaf t
      · simpa [preorder] using sign p hp
  refine forall_preorder_iff.mpr ⟨assignment, ?_⟩
  simpa [Chain.assignment, subtrees, preorder] using ⟨target, value⟩

theorem wellBuilt_assignment (c : Chain) (x : String) : (c.assignment x).WellBuilt := by
  refine forall_preorder_assignment (accepted_assign.mpr rfl) (accepted_var.mpr (by simp)) ?_ ?_ ?_
  · trivial
  · intro t
    cases t with
    | var root fields => exact accepted_var.mpr (by simp)
    | number | string => trivial
  · intro p _
    trivial

theorem unsplit_assignment (c : Chain) (x : String) :
    StringBuilding.Unsplit (c.assignment x) := by
  refine forall_preorder_assignment ?_ ?_ ?_ (fun t => ?_) fun p _ => ?_
  · simp [Chain.assignment, elements]
  · simp [elements]
  · simp [elements]
  · cases t <;> simp [Operand.node, elements]
  · simp [elements]

theorem node_eq_of_rest {c : Chain} (several : c.rest ≠ []) : c.node = .expression c.members := by
  unfold Chain.node
  split
  · exact absurd (by assumption) several
  · rfl

theorem splits_assignment_iff {c : Chain} {x : String} :
    StringBuilding.splits (c.assignment x) = true ↔ c.rest ≠ [] ∧ ¬ c.IsSum := by
  show StringBuilding.isBuilding c.node = true ↔ _
  by_cases several : c.rest = []
  · have single : c.node = c.first.node := by
      unfold Chain.node
      rw [several]
    rw [single]
    refine iff_of_false ?_ fun h => h.1 several
    cases c.first <;> simp [Operand.node, StringBuilding.isBuilding]
  · rw [node_eq_of_rest several]
    exact builds_members_iff

theorem pieces_assignment {c : Chain} {x : String} (several : c.rest ≠ []) (mixed : ¬ c.IsSum) :
    StringBuilding.pieces (c.assignment x) = StringBuilding.assignments (.var [x]) c.first.node
      ((c.rest.map Prod.snd).map Operand.node) := by
  rw [Chain.assignment, node_eq_of_rest several, StringBuilding.pieces,
    if_pos (builds_members_iff.mpr ⟨several, mixed⟩), terms_members]
  rfl

theorem spelled_node (t : Operand) : Spelled t.node := by
  cases t <;> simp [Spelled, Operand.node, preorder]

theorem spelled_assign {x : String} {value : Node} {op : AssignOp} (h : Spelled value) :
    Spelled (.assign (.var [x]) value op) := by
  refine forall_preorder_iff.mpr ⟨by simp, ?_⟩
  simpa [subtrees, preorder, Spelled] using h

theorem spelled_assignments {x : String} {first p : Node} {rest : List Node}
    (spelled : ∀ n ∈ first :: rest, Spelled n)
    (h : p ∈ StringBuilding.assignments (.var [x]) first rest) : Spelled p := by
  unfold StringBuilding.assignments at h
  split at h
  · obtain rfl := List.mem_singleton.mp h
    refine spelled_assign (forall_preorder_iff.mpr ⟨by simp, fun n hn => ?_⟩)
    rcases StringBuilding.mem_intersperse hn with rfl | hn
    · exact spelled_concatSign
    · exact spelled n hn
  · rcases List.mem_append.mp h with h | h
    · split at h
      · cases h
      · obtain rfl := List.mem_singleton.mp h
        exact spelled_assign (spelled first List.mem_cons_self)
    · obtain ⟨n, hn, rfl⟩ := List.mem_map.mp h
      exact spelled_assign (spelled n (List.mem_cons_of_mem _ hn))

/-- The pieces of the assignment of a chain have no `~`. -/
theorem spelled_pieces {c : Chain} {x : String} {p : Node}
    (h : p ∈ StringBuilding.pieces (c.assignment x)) : Spelled p := by
  have operands : ∀ n ∈ c.operands.map Operand.node, Spelled n :=
    List.forall_mem_map.mpr fun t _ => spelled_node t
  by_cases split : c.rest ≠ [] ∧ ¬ c.IsSum
  · rw [pieces_assignment split.1 split.2] at h
    exact spelled_assignments operands h
  · have whole := Bool.eq_false_iff.mpr (mt (splits_assignment_iff (x := x)).mp split)
    rw [StringBuilding.pieces_eq_self whole, List.mem_singleton] at h
    subst h
    refine forall_preorder_assignment (by simp [Chain.assignment]) (by simp) (by simp)
      (fun t => spelled_node t _ (mem_preorder_self _)) fun p hp => ?_
    have sum : c.IsSum := by
      by_contra mixed
      exact split ⟨List.ne_nil_of_mem hp, mixed⟩
    rw [sum.1 p hp]
    simp [Joiner.sign]

/-! ### The pass -/

section Pass

variable {A : Arithmetic} {V : Variables} {s : V.State} {x : String} {c : Chain}

theorem run?_assignment (c : Chain) (x : String) :
    A.run? V s [c.assignment x] = some (V.write s x (c.value A V s)) :=
  run?_cons (step?_set (value?_node c))

/-- An operand that is alone and no sum is a string literal. -/
theorem addends_of_single (single : c.rest = []) (mixed : ¬ c.IsSum) : c.addends V s = [] := by
  rcases not_isSum_iff.mp mixed with ⟨t, ht, literal⟩ | ⟨p, hp, -⟩
  · rw [Chain.operands, single, List.map_nil, List.mem_singleton] at ht
    subst ht
    unfold Chain.addends
    cases first : c.first with
    | string t => rfl
    | number | var => simp [first, Operand.isString] at literal
  · rw [single] at hp
    cases hp

/-- The pieces of an assignment that is no sum leave the concatenation of the operands. -/
theorem run?_pieces (mixed : ¬ c.IsSum) : ∃ s',
    A.run? V s (StringBuilding.pieces (c.assignment x)) = some s' ∧
      Assigned V s x (.string (String.join (texts A V s c.operands))) s' := by
  by_cases single : c.rest = []
  · have whole : StringBuilding.splits (c.assignment x) = false :=
      Bool.eq_false_iff.mpr fun split => (splits_assignment_iff.mp split).1 single
    have same := (value_eq_concat_iff (A := A) (V := V) (s := s) mixed).mpr
      (by rw [addends_of_single single mixed]; trivial)
    rw [StringBuilding.pieces_eq_self whole, run?_assignment, same]
    exact ⟨_, rfl, (Assigned.self x).write _⟩
  · rw [pieces_assignment single mixed]
    obtain ⟨s', run, assigned⟩ := run?_assignments (A := A) (V := V) (s := s) x c.first
      (c.rest.map Prod.snd)
    rw [concatAll_eq _ (by simpa using single), ← String.join_cons] at assigned
    exact ⟨s', run, assigned⟩

end Pass

/-- An assignment of a chain and what the pass makes of it leave the same value in the target
exactly if the chain is a sum, or else the numbers before the first string or `~` read the same
added and concatenated. If it is no sum, its operands are concatenated. -/
theorem concat_keeps_value_iff (A : Arithmetic) (V : Variables) (s : V.State) (x : String)
    (c : Chain) (scope : Option SiteContext) (before : Memory) : ∃ ms s₁ s₂,
      (Pass.concat.run scope (.list [c.assignment x])).run before = (.ok (.list ms), before) ∧
      A.run? V s [c.assignment x] = some s₁ ∧ A.run? V s ms = some s₂ ∧
      (V.read s₂ [x] = V.read s₁ [x] ↔ c.IsSum ∨ SumReads A (c.addends V s)) ∧
      (¬ c.IsSum → V.read s₂ [x] = .string (String.join (texts A V s c.operands))) ∧
      ∀ path, path.head? ≠ some x → V.read s₂ path = V.read s₁ path := by
  have pass : (Pass.concat.run scope (.list [c.assignment x])).run before =
      (.ok (.list (StringBuilding.pieces (c.assignment x))), before) := by
    rw [run_concat, splitStringBuilding_singleton (wellBuilt_assignment c x)
      (unsplit_assignment c x) fun p => spelled_pieces]
    rfl
  have original : Assigned V s x (c.value A V s) (V.write s x (c.value A V s)) :=
    (Assigned.self x).write _
  by_cases sum : c.IsSum
  · have whole : StringBuilding.splits (c.assignment x) = false :=
      Bool.eq_false_iff.mpr fun split => (splits_assignment_iff.mp split).2 sum
    rw [StringBuilding.pieces_eq_self whole] at pass
    exact ⟨_, _, _, pass, run?_assignment c x, run?_assignment c x, iff_of_true rfl (.inl sum),
      absurd sum, fun _ _ => rfl⟩
  · obtain ⟨s₂, run, assigned⟩ := run?_pieces (A := A) (V := V) (s := s) (x := x) sum
    refine ⟨_, _, s₂, pass, run?_assignment c x, run, ?_, fun _ => assigned.target,
      fun path other => (assigned.others path other).trans (original.others path other).symm⟩
    rw [assigned.target, original.target, or_iff_right sum, ← value_eq_concat_iff sum]
    exact eq_comm

/-- Whole numbers are added as such; no other sum matters here. -/
def wholeNumbers : Arithmetic where
  add
    | .int m, .int n => .int (m + n)
    | m, _ => m
  text := Number.text

/-- A value for each path. -/
def plainVariables : Variables where
  State := List String → Quantity
  read s path := s path
  write s x v := Function.update s [x] v
  read_write s x v := Function.update_self ..
  read_write_of_ne s x v path other :=
    Function.update_of_ne (by rintro rfl; exact other rfl) ..

/-- Where a string comes first, nothing is added. -/
theorem concat_keeps_value_after_string : ∃ ms s₁ s₂,
    (Pass.concat.run none (.list
      [.assign (.var ["x"]) (.expression
        [.var ["y"], .operator "+", .int 1, .operator "+", .int 2, .operator "~", .var ["x"]])
        .set])).run .empty = (.ok (.list ms), .empty) ∧
    wholeNumbers.run? plainVariables (fun _ => .string "a") [.assign (.var ["x"]) (.expression
        [.var ["y"], .operator "+", .int 1, .operator "+", .int 2, .operator "~", .var ["x"]])
        .set] = some s₁ ∧
    wholeNumbers.run? plainVariables (fun _ => .string "a") ms = some s₂ ∧
    plainVariables.read s₂ ["x"] = plainVariables.read s₁ ["x"] := by
  obtain ⟨ms, s₁, s₂, pass, original, emitted, same, -⟩ :=
    concat_keeps_value_iff wholeNumbers plainVariables (fun _ => .string "a") "x"
      ⟨.var "y" [], [(.plus, .number (.int 1)), (.plus, .number (.int 2)), (.tilde, .var "x" [])]⟩
      none .empty
  exact ⟨ms, s₁, s₂, pass, original, emitted, same.mpr (.inr trivial)⟩

def sumThenText : Chain :=
  ⟨.number (.int 1), [(.plus, .number (.int 2)), (.plus, .string "a")]⟩

/-- Where two numbers come before a string, their sum is lost. -/
theorem concat_loses_sum_before_string :
    Template.parse "\x7b% set x = 1 + 2 + 'a' %\x7d" = .ok (.list [sumThenText.assignment "x"]) ∧
    (Pass.concat.run none (.list [sumThenText.assignment "x"])).run .empty =
      (.ok (.list [.assign (.var ["x"]) (.int 1) .set, .assign (.var ["x"]) (.int 2) .append,
        .assign (.var ["x"]) (.string "a") .append]), .empty) ∧
    (wholeNumbers.run? plainVariables (fun _ => .string "")
      [sumThenText.assignment "x"]).map (plainVariables.read · ["x"]) = some (.string "3a") ∧
    (wholeNumbers.run? plainVariables (fun _ => .string "")
      [.assign (.var ["x"]) (.int 1) .set, .assign (.var ["x"]) (.int 2) .append,
        .assign (.var ["x"]) (.string "a") .append]).map (plainVariables.read · ["x"]) =
      some (.string "12a") := by
  refine ⟨?_, rfl, ?_, ?_⟩
  · rw [Template.parse_eq]
    cbv
  · decide
  · decide

end Mixed
end TagCompiler
