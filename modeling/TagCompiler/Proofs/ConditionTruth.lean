import TagCompiler.Proofs.FilledPlaces
/-!
# Emptiness tests keep the truth of conditions

A template takes a variable in a condition for true if it is neither empty nor written as `false`,
and a comparison with nothing for a test whether it is empty. A tag file has the operators `empty`
and `not` and compares strings. Conditions of templates are given by the type `Test`, with their
truth; trees are read as a tag file reads them by `holds?`. The pass leaves the branchings of a tree
in their places, and what it makes of the condition of each holds exactly if the condition was true.
-/

namespace TagCompiler.Conditions

open Node

/-! ### Values -/

/-- Null, the empty string and the empty collections. -/
def isEmpty : Value → Bool
  | .null => true
  | .string s => s == ""
  | .array items => items.isEmpty
  | .object members => members.isEmpty
  | .bool _ | .number _ => false

/-- How values are written, and compared by each operator. Only the comparison of strings for
equality is fixed. -/
structure Semantics where
  text : Value → String
  compare : String → Value → Value → Bool
  compare_eq : ∀ a b, compare "==" (.string a) (.string b) = (a == b)
  compare_ne : ∀ a b, compare "!=" (.string a) (.string b) = (a != b)

/-- Empty, or written as `false`. -/
def Semantics.isFalsy (I : Semantics) (v : Value) : Bool := isEmpty v || I.text v == "false"

/-! ### Conditions of templates -/

def comparisons : List String := ["==", "!=", "<", "<=", ">", ">=", "in"]

/-- What a variable is compared with to see if it is empty. -/
inductive Nothing where
  | null
  | emptyString

def Nothing.node : Nothing → Node
  | .null => .null
  | .emptyString => .string ""

/-- A literal for something. -/
inductive Constant where
  | number (n : Number)
  | string (s : String) (filled : s ≠ "")

def Constant.value : Constant → Value
  | .number n => .number n
  | .string s _ => .string s

def Constant.node : Constant → Node
  | .number n => .literal (.number n) .number
  | .string s _ => .string s

inductive Connective where
  | and
  | or

def Connective.sign : Connective → String
  | .and => "and"
  | .or => "or"

mutual

inductive Test where
  | var (path : List String)
  | negated (path : List String)
  /-- A comparison with nothing, for equality if `equal` and else for inequality. -/
  | nothing (path : List String) (equal : Bool) (other : Nothing) (varFirst : Bool)
  | compared (path : List String) (op : String) (known : op ∈ comparisons) (other : Constant)
      (varFirst : Bool)
  | group (inner : Test)
  | chain (first : Test) (more : More)

/-- The rest of a chain: connectives, each with the condition after it. -/
inductive More where
  | nil
  | cons (link : Connective) (next : Test) (more : More)

end

/-- A variable and a literal with an operator between them, in one of the two orders. -/
def comparison (path : List String) (op : String) (other : Node) (varFirst : Bool) : Node :=
  if varFirst then .expression [.var path, .operator op, other]
  else .expression [other, .operator op, .var path]

mutual

def Test.node : Test → Node
  | .var path => .var path
  | .negated path => .expression [.operator "not", .var path]
  | .nothing path equal other varFirst =>
    comparison path (if equal then "==" else "!=") other.node varFirst
  | .compared path op _ other varFirst => comparison path op other.node varFirst
  | .group inner => .group [inner.node]
  | .chain first more => .condition (first.node :: more.nodes)

def More.nodes : More → List Node
  | .nil => []
  | .cons link next more => .connective link.sign :: next.node :: more.nodes

end

section Truth

variable (I : Semantics) (σ : List String → Value)

mutual

/-- The truth of a condition of a template, for values of the variables. -/
def Test.truth : Test → Bool
  | .var path => !I.isFalsy (σ path)
  | .negated path => I.isFalsy (σ path)
  | .nothing path equal _ _ => if equal then isEmpty (σ path) else !isEmpty (σ path)
  | .compared path op _ other varFirst =>
    if varFirst then I.compare op (σ path) other.value else I.compare op other.value (σ path)
  | .group inner => inner.truth
  | .chain first more => more.truth first.truth

/-- The truth of a chain whose conditions so far, since the last `or`, have a truth. -/
def More.truth (before : Bool) : More → Bool
  | .nil => before
  | .cons .and next more => more.truth (before && next.truth)
  | .cons .or next more => before || more.truth next.truth

end

/-! ### Conditions of tag files -/

def term? : Node → Option Value
  | .var path => some (σ path)
  | .literal v _ => some v
  | .filter "string" subject (.parameters []) => (term? subject).map fun v => .string (I.text v)
  | _ => none

def operation? : List Node → Option Bool
  | [.operator "empty", n] => (term? I σ n).map isEmpty
  | .operator "not" :: rest => (operation? rest).map not
  | [left, .operator op, right] => do return I.compare op (← term? I σ left) (← term? I σ right)
  | _ => none

mutual

/-- Whether a condition holds as a tag file reads it. The operator `and` binds more tightly than
`or`. -/
def holds? : Node → Option Bool
  | .expression chain => operation? I σ chain
  | .group [n] => holds? n
  | .condition (n :: more) => do chainHolds? (← holds? n) more
  | _ => none

def chainHolds? (before : Bool) : List Node → Option Bool
  | [] => some before
  | .connective "and" :: n :: more => do chainHolds? (before && (← holds? n)) more
  | .connective "or" :: n :: more => do return before || (← chainHolds? (← holds? n) more)
  | _ => none

end

end Truth

/-! ### What becomes of a condition -/

theorem useEmptiness_eq_node (n : Node) : n.useEmptiness = Emptiness.rebuilder.node n
    (n.replace (n.outside.map Node.useEmptiness) (n.elements.map Node.useEmptiness)) :=
  Emptiness.rebuilder.run_eq_node (fun _ => rfl) n

theorem useEmptiness_expression (chain : List Node) : (Node.expression chain).useEmptiness =
    (Emptiness.test? (chain.map Node.useEmptiness)).getD
      (.expression (chain.map Node.useEmptiness)) :=
  useEmptiness_eq_node _

theorem useEmptiness_branch (c : Node) (ys ns : List Node) : (Node.branch c ys ns).useEmptiness =
    .branch (Emptiness.truth c.useEmptiness) (ys.map Node.useEmptiness)
      (ns.map Node.useEmptiness) := by
  have same : (ys.map Node.useEmptiness).length = ys.length := List.length_map ..
  rw [useEmptiness_eq_node, elements, List.map_append, replace, ← same, List.take_left,
    List.drop_left]
  rfl

theorem truths_eq_map (ns : List Node) : Emptiness.truths ns = ns.map Emptiness.truth := by
  induction ns with
  | nil => rfl
  | cons n ns ih => rw [Emptiness.truths, ih, List.map_cons]

theorem truthOfOperands_eq_map (ns : List Node) :
    Emptiness.truthOfOperands ns = ns.map Emptiness.truth := by
  induction ns with
  | nil => rfl
  | cons n ns ih =>
    rw [List.map_cons, ← ih]
    cases n with
    | connective s => rw [Emptiness.truthOfOperands, Emptiness.truth] <;> simp
    | _ => rw [Emptiness.truthOfOperands]; simp

/-- What becomes of the condition of a branching. -/
def lowered (n : Node) : Node := Emptiness.truth n.useEmptiness

theorem lowered_group (inner : List Node) :
    lowered (.group inner) = .group (inner.map lowered) := by
  rw [lowered, useEmptiness_eq_node]
  show Emptiness.truth (.group (inner.map Node.useEmptiness)) = _
  rw [Emptiness.truth, truths_eq_map, List.map_map]
  rfl

theorem lowered_condition (chain : List Node) :
    lowered (.condition chain) = .condition (chain.map lowered) := by
  rw [lowered, useEmptiness_eq_node]
  show Emptiness.truth (.condition (chain.map Node.useEmptiness)) = _
  rw [Emptiness.truth, truthOfOperands_eq_map, List.map_map]
  rfl

section Truth

variable {I : Semantics} {σ : List String → Value}

theorem holds?_affirmed (path : List String) :
    holds? I σ (Emptiness.affirmed (.var path)) = some (!I.isFalsy (σ path)) := by
  have text : I.compare "!=" (.string (I.text (σ path))) (.string "false") =
      (I.text (σ path) != "false") := I.compare_ne _ _
  simp [Emptiness.affirmed, Emptiness.filledTest, Emptiness.asText, holds?, chainHolds?, operation?,
    term?, Node.string, text, Semantics.isFalsy, bne]

theorem holds?_denied (path : List String) :
    holds? I σ (Emptiness.denied (.var path)) = some (I.isFalsy (σ path)) := by
  have text : I.compare "==" (.string (I.text (σ path))) (.string "false") =
      (I.text (σ path) == "false") := I.compare_eq _ _
  simp [Emptiness.denied, Emptiness.emptyTest, Emptiness.asText, holds?, chainHolds?, operation?,
    term?, Node.string, text, Semantics.isFalsy]

/-- A comparison with nothing becomes a test with the operator `empty`. -/
theorem lowered_nothing (path : List String) (equal : Bool) (other : Nothing) (varFirst : Bool) :
    lowered (comparison path (if equal then "==" else "!=") other.node varFirst) =
      if equal then Emptiness.emptyTest (.var path) else Emptiness.filledTest (.var path) := by
  cases equal <;> cases other <;> cases varFirst <;> rfl

/-- A comparison with something is kept. -/
theorem lowered_compared (path : List String) (op : String) (other : Constant) (varFirst : Bool) :
    lowered (comparison path op other.node varFirst) = comparison path op other.node varFirst := by
  have filled : Emptiness.isVoid other.node = false := by
    cases other with
    | number n => rfl
    | string s filled => simpa [Constant.node, Node.string, Emptiness.isVoid] using filled
  have kept : other.node.useEmptiness = other.node := by
    cases other <;> rfl
  have bare : Emptiness.isVoid (.var path) = false := rfl
  have var : (Node.var path).useEmptiness = .var path := rfl
  have sign : (Node.operator op).useEmptiness = .operator op := rfl
  cases varFirst with
  | true =>
    simp [lowered, comparison, useEmptiness_expression, Emptiness.test?, filled, kept, bare, var,
      sign, Emptiness.truth]
  | false =>
    simp [lowered, comparison, useEmptiness_expression, Emptiness.test?, filled, kept, bare, var,
      sign, Emptiness.truth]

theorem holds?_comparison (path : List String) (op : String) (other : Constant) (varFirst : Bool) :
    holds? I σ (comparison path op other.node varFirst) = some (if varFirst then
      I.compare op (σ path) other.value else I.compare op other.value (σ path)) := by
  cases varFirst <;> cases other <;> rfl

mutual

theorem holds?_lowered (t : Test) : holds? I σ (lowered t.node) = some (t.truth I σ) := by
  cases t with
  | var path => exact holds?_affirmed path
  | negated path => exact holds?_denied path
  | nothing path equal other varFirst =>
    rw [Test.node, lowered_nothing]
    cases equal <;> rfl
  | compared path op known other varFirst =>
    rw [Test.node, lowered_compared, holds?_comparison, Test.truth]
  | group inner =>
    rw [Test.node, lowered_group, List.map_singleton, holds?, holds?_lowered inner, Test.truth]
  | chain first more =>
    rw [Test.node, lowered_condition, List.map_cons, holds?, holds?_lowered first, Test.truth]
    exact chainHolds?_lowered more _

theorem chainHolds?_lowered (more : More) (before : Bool) :
    chainHolds? I σ before (more.nodes.map lowered) = some (more.truth I σ before) := by
  cases more with
  | nil => rfl
  | cons link next more =>
    rw [More.nodes, List.map_cons, List.map_cons]
    cases link with
    | and =>
      show (holds? I σ (lowered next.node)).bind _ = _
      rw [holds?_lowered next, More.truth]
      exact chainHolds?_lowered more _
    | or =>
      show (holds? I σ (lowered next.node)).bind _ = _
      rw [holds?_lowered next, More.truth]
      show (chainHolds? I σ (next.truth I σ) (more.nodes.map lowered)).bind _ = _
      rw [chainHolds?_lowered more]
      rfl

end

end Truth

/-! ### The branchings of a tree -/

def ownConditions : Node → List Node
  | .branch c _ _ => [c]
  | _ => []

/-- The conditions of all branchings in a tree, that of a branching before those in its parts. -/
def branchConditions (n : Node) : List Node := n.preorder.flatMap ownConditions

theorem branchConditions_eq (n : Node) :
    branchConditions n = ownConditions n ++ n.subtrees.flatMap branchConditions := by
  unfold branchConditions
  rw [Node.preorder_eq_cons, List.flatMap_cons, List.flatMap_assoc]

theorem ownConditions_of_ne {n : Node} (h : ∀ c ys ns, n ≠ .branch c ys ns) :
    ownConditions n = [] := by
  cases n with
  | branch c ys ns => exact absurd rfl (h c ys ns)
  | _ => rfl

theorem flatMap_branchConditions_map {f : Node → Node} {ns : List Node}
    (same : ∀ n ∈ ns, branchConditions (f n) = branchConditions n) :
    (ns.map f).flatMap branchConditions = ns.flatMap branchConditions := by
  rw [List.flatMap_map]
  exact List.flatMap_congr same

/-- Reading a condition by its truth adds and removes no branchings. -/
theorem branchConditions_truth (n : Node) :
    branchConditions (Emptiness.truth n) = branchConditions n := by
  induction n using induction_on_subtrees with
  | step n ih =>
    unfold Emptiness.truth
    split
    · simp [Emptiness.affirmed, Emptiness.filledTest, Emptiness.asText, Node.string,
        branchConditions, preorder, preorderAll, ownConditions]
    · simp [Emptiness.denied, Emptiness.emptyTest, Emptiness.asText, Node.string,
        branchConditions, preorder, preorderAll, ownConditions]
    · rw [truthOfOperands_eq_map, branchConditions_eq, branchConditions_eq (.condition _)]
      exact flatMap_branchConditions_map ih
    · rw [truths_eq_map, branchConditions_eq, branchConditions_eq (.group _)]
      exact flatMap_branchConditions_map ih
    · rfl

theorem branchConditions_emptyTest (subject : Node) :
    branchConditions (Emptiness.emptyTest subject) = branchConditions subject := by
  simp [Emptiness.emptyTest, branchConditions, preorder, preorderAll, ownConditions]

theorem branchConditions_filledTest (subject : Node) :
    branchConditions (Emptiness.filledTest subject) = branchConditions subject := by
  simp [Emptiness.filledTest, branchConditions, preorder, preorderAll, ownConditions]

theorem branchConditions_of_isVoid {n : Node} (h : Emptiness.isVoid n = true) :
    branchConditions n = [] := by
  cases n with
  | literal => rfl
  | _ => cases h

/-- A test is about what is compared with nothing. -/
theorem test?_cases {chain : List Node} {n : Node} (h : Emptiness.test? chain = some n) :
    ∃ left op right subject, chain = [left, .operator op, right] ∧
      (n = Emptiness.filledTest subject ∨ n = Emptiness.emptyTest subject) ∧
      (subject = left ∧ Emptiness.isVoid right = true ∨
        subject = right ∧ Emptiness.isVoid left = true) := by
  unfold Emptiness.test? at h
  split at h
  · rename_i left op right
    split at h
    · cases h
    · obtain ⟨subject, chosen, rfl⟩ := Option.map_eq_some_iff.mp h
      refine ⟨left, op, right, subject, rfl, ?_, ?_⟩
      · split
        · exact .inl rfl
        · exact .inr rfl
      · split at chosen
        · rename_i void
          cases chosen
          exact .inl ⟨rfl, void⟩
        · rename_i void _
          cases chosen
          exact .inr ⟨rfl, void⟩
        · cases chosen
  · cases h

/-- What a test leaves out of a chain has no branchings. -/
theorem branchConditions_test? {chain : List Node} {n : Node}
    (h : Emptiness.test? chain = some n) :
    branchConditions n = chain.flatMap branchConditions := by
  obtain ⟨left, op, right, subject, rfl, made, which⟩ := test?_cases h
  have about : branchConditions n = branchConditions subject := by
    rcases made with rfl | rfl
    · exact branchConditions_filledTest subject
    · exact branchConditions_emptyTest subject
  have sign : branchConditions (.operator op) = [] := rfl
  rcases which with ⟨rfl, void⟩ | ⟨rfl, void⟩
  · simp [about, sign, branchConditions_of_isVoid void]
  · simp [about, sign, branchConditions_of_isVoid void]

theorem flatMap_subtrees_useEmptiness {ns : List Node}
    (ih : ∀ n ∈ ns, branchConditions n.useEmptiness = (branchConditions n).map lowered) :
    (ns.map Node.useEmptiness).flatMap branchConditions =
      (ns.flatMap branchConditions).map lowered := by
  rw [List.flatMap_map, List.map_flatMap]
  exact List.flatMap_congr ih

/-- Other nodes are put together from what becomes of their subtrees. -/
theorem useEmptiness_eq_replace {n : Node} (chain : ∀ cs, n ≠ .expression cs)
    (branching : ∀ c ys ns, n ≠ .branch c ys ns) : n.useEmptiness =
      n.replace (n.outside.map Node.useEmptiness) (n.elements.map Node.useEmptiness) := by
  rw [useEmptiness_eq_node]
  cases n with
  | expression cs => exact absurd rfl (chain cs)
  | branch c ys ns => exact absurd rfl (branching c ys ns)
  | parameter name value => cases value <;> rfl
  | _ => rfl

theorem branchConditions_useEmptiness_of_ne {n : Node} (chain : ∀ cs, n ≠ .expression cs)
    (branching : ∀ c ys ns, n ≠ .branch c ys ns) : branchConditions n.useEmptiness =
      (n.subtrees.map Node.useEmptiness).flatMap branchConditions := by
  have made := useEmptiness_eq_replace chain branching
  have fit : n.Fit (n.outside.map Node.useEmptiness) (n.elements.map Node.useEmptiness) :=
    ⟨List.length_map .., List.length_map ..⟩
  have own : ownConditions n.useEmptiness = [] := by
    rw [made]
    cases n with
    | branch c ys ns => exact absurd rfl (branching c ys ns)
    | parameter name value => cases value <;> rfl
    | _ => rfl
  rw [branchConditions_eq, own, List.nil_append, made, fit.subtrees_replace, ← List.map_append,
    ← subtrees_eq_append]

/-- Every branching stays, with what becomes of its condition. -/
theorem branchConditions_useEmptiness (n : Node) :
    branchConditions n.useEmptiness = (branchConditions n).map lowered := by
  induction n using induction_on_subtrees with
  | step n ih =>
    have below := flatMap_subtrees_useEmptiness ih
    rw [branchConditions_eq n, List.map_append, ← below]
    by_cases chain : ∃ cs, n = .expression cs
    · obtain ⟨cs, rfl⟩ := chain
      rw [useEmptiness_expression]
      cases made : Emptiness.test? (cs.map Node.useEmptiness) with
      | none => exact branchConditions_eq _
      | some test => exact branchConditions_test? made
    · by_cases branching : ∃ c ys ns, n = .branch c ys ns
      · obtain ⟨c, ys, ns, rfl⟩ := branching
        rw [useEmptiness_branch, branchConditions_eq]
        simp [ownConditions, subtrees, branchConditions_truth, lowered]
      · push Not at chain branching
        rw [branchConditions_useEmptiness_of_ne chain branching, ownConditions_of_ne branching]
        rfl

/-- The pass keeps the branchings of a tree, those inside others and those for further cases
included. What it makes of the condition of each holds exactly if the condition was true, whatever
values the variables have and however values are written and compared. -/
theorem empty_keeps_truth (I : Semantics) (σ : List String → Value) (t : Node)
    (scope : Option SiteContext) (before : Memory) : ∃ out,
      (Pass.empty.run scope t).run before = (.ok out, before) ∧
      List.Forall₂ (fun c c' => ∀ test : Test, c = test.node →
        holds? I σ c' = some (test.truth I σ)) (branchConditions t) (branchConditions out) := by
  refine ⟨t.useEmptiness, rfl, ?_⟩
  rw [branchConditions_useEmptiness, List.forall₂_map_right_iff, List.forall₂_same]
  rintro _ - test rfl
  exact holds?_lowered test

namespace FurtherCase

/-- Values are equal if they are the same data; no other comparison matters here. -/
def semantics : Semantics where
  text
    | .string s => s
    | .bool b => toString b
    | .number n => n.text
    | _ => ""
  compare op v w := if op = "==" then v.same w else if op = "!=" then !v.same w else false
  compare_eq _ _ := rfl
  compare_ne _ _ := rfl

/-- The second condition. -/
def second : Test :=
  .chain (.negated ["b"]) (.cons .or (.group (.nothing ["c"] false .emptyString true)) .nil)

def page : Node := .list [.branch (.var ["a"]) [] [.branch second.node [] []]]

/-- Only `b` has a value, which is written as `false`. -/
def values (path : List String) : Value := if path = ["b"] then .bool false else .null

end FurtherCase

open FurtherCase in
theorem empty_keeps_truth_of_further_case :
    Template.parse "\x7b% if a %\x7d\x7b% elif not b or (c != '') %\x7d\x7b% endif %\x7d" =
      .ok page ∧
    ∃ out, (Pass.empty.run none page).run .empty = (.ok out, .empty) ∧
      (branchConditions out).map (holds? semantics values) = [some false, some true] := by
  have tree : Template.parse
      "\x7b% if a %\x7d\x7b% elif not b or (c != '') %\x7d\x7b% endif %\x7d" = .ok page := by
    rw [Template.parse_eq]
    cbv
  obtain ⟨out, run, kept⟩ := empty_keeps_truth semantics values page none .empty
  refine ⟨tree, out, run, ?_⟩
  have conditions : branchConditions page = [Test.node (.var ["a"]), second.node] := rfl
  rw [conditions] at kept
  generalize branchConditions out = cs at kept
  obtain _ | ⟨first, _ | ⟨next, _ | _⟩⟩ := kept
  rw [List.map_cons, first _ rfl, List.map_cons, next _ rfl]
  rfl

end TagCompiler.Conditions
