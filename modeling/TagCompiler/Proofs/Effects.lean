import Mathlib.Data.List.Forall2
import Mathlib.Logic.Function.Basic
import TagCompiler.Lowering.StringBuilding
import TagCompiler.Proofs.NormalForm
import TagCompiler.Proofs.Rebuilding
/-!
# The effect of running template code

Code changes variables and prints. An `Interpretation` gives a meaning to everything that a tree
leaves open: what values are and what text they have, and what literals, calls, filters and chains
of operators stand for, as functions of their kind, names, signs and the values of their parts. Two
things are fixed. A chain of the signs for sums and concatenations that builds a string stands for
the text of its terms, one after the other, and an appending assignment adds the text of its value
to the text of its target.
-/

namespace TagCompiler.Effects

open Grammar StringBuilding

/-! ### Kinds of nodes -/

/-- What kind of node this is, with the names in it. The signs `~` and `+=` are one. -/
inductive Form where
  | data (value : Value)
  | literal (value : Value) (kind : LiteralKind)
  | text (content : String)
  | var (path : List String)
  | operator (symbol : String)
  | connective (symbol : String)
  | parameter (name : Option String)
  | parameters
  | array
  | call (name : String)
  | macroDef (name : String)
  | assign (op : AssignOp)
  | branch
  | loop (key : Option String) (item : String)
  | condition
  | expression
  | group
  | filter (name : String)
  | output
  | yield
  | list

/-- The one sign that stands for `~` and `+=`. -/
def canonical (symbol : String) : String :=
  if symbol = "~" then StringBuilding.concatSign else symbol

def form : Node → Form
  | .data v => .data v
  | .literal v kind => .literal v kind
  | .text s => .text s
  | .var path => .var path
  | .operator s => .operator (canonical s)
  | .connective s => .connective s
  | .parameter name _ => .parameter name
  | .parameters _ => .parameters
  | .array _ => .array
  | .call name .. => .call name
  | .macroDef name .. => .macroDef name
  | .assign _ _ op => .assign op
  | .branch .. => .branch
  | .loop key item .. => .loop key item
  | .condition _ => .condition
  | .expression _ => .expression
  | .group _ => .group
  | .filter name .. => .filter name
  | .output _ => .output
  | .yield => .yield
  | .list _ => .list

namespace Form

/-- The sign that a member of a chain is. -/
def sign? : Form → Option String
  | .operator s | .connective s => some s
  | _ => none

def isConcatSign : Form → Bool
  | .operator s => s == StringBuilding.concatSign
  | _ => false

/-- A sign that may join the terms of a string. -/
def joins : Form → Bool
  | .operator s => s == "+" || s == StringBuilding.concatSign
  | _ => false

end Form

/-- Whether a chain stands for the concatenation of its terms: it has several, which are joined by
signs for sums and concatenations only, and one of them is a string literal or one of the signs is
for concatenation. -/
def concatenates (chain : List Node) : Bool :=
  (joiners chain).all (form · |>.joins) && 1 < (terms chain).length &&
    ((terms chain).any isStringLiteral || (joiners chain).any (form · |>.isConcatSign))

/-! ### Effects -/

abbrev Store (Val : Type) := String → Val

/-- What is printed at once. -/
inductive Printed (Val : Type) where
  | text (content : String)
  | values (values : List Val)

/-- From the variables before to those after, with what is printed on the way. -/
abbrev Effect (Val : Type) := Store Val → Store Val × List (Printed Val)

namespace Effect

variable {Val : Type}

def skip : Effect Val := fun σ => (σ, [])

def seq (first second : Effect Val) : Effect Val := fun σ =>
  let before := first σ
  let after := second before.1
  (after.1, before.2 ++ after.2)

/-- The rounds `0` to `count - 1`. -/
def times (round : Nat → Effect Val) : Nat → Effect Val
  | 0 => skip
  | count + 1 => (times round count).seq (round count)

theorem seq_skip (e : Effect Val) : e.seq skip = e := by
  funext σ
  simp [seq, skip]

theorem seq_assoc (e f g : Effect Val) : (e.seq f).seq g = e.seq (f.seq g) := by
  funext σ
  simp [seq]

end Effect

/-- A meaning for all that is not fixed. Loops and blocks may treat the variables as they like when
they are entered and left, and other statements may be any function of the values and the effects of
their parts. -/
structure Interpretation where
  Val : Type
  text : Val → String
  ofText : String → Val
  text_ofText : ∀ s, text (ofText s) = s
  /-- A field of a value. -/
  field : Val → String → Val
  /-- An expression, from its kind, the signs in it and the values of its parts. -/
  expression : Form → List (Option String) → List Val → Val
  truth : Val → Bool
  /-- How many rounds a loop makes over a value. -/
  rounds : Val → Nat
  /-- The variables at the start of a round of a loop over a value. -/
  enter : Form → Val → Nat → Store Val → Store Val
  /-- The variables after a loop or a block, from those before it and those at its end. -/
  leave : Form → Store Val → Store Val → Store Val
  /-- The value of a block that has printed. -/
  captured : List (Printed Val) → Val
  statement : Form → (Store Val → List Val) → List (Effect Val) → Effect Val

namespace Interpretation

variable (I : Interpretation)

/-! ### Expressions -/

/-- The texts of values, one after the other. -/
def concat (values : List I.Val) : I.Val := I.ofText (String.join (values.map I.text))

/-- The value of a chain whose members have these values. -/
def chain (members : List Node) (values : List I.Val) : I.Val :=
  if concatenates members then I.concat (terms values)
  else I.expression .expression (members.map (form · |>.sign?)) values

mutual

/-- The value of an expression. The sign in a chain has none of its own, and a call in an expression
has no block. -/
def eval (σ : Store I.Val) : Node → I.Val
  | .var (root :: fields) => fields.foldl I.field (σ root)
  | .parameter name (some v) => I.expression (.parameter name) [] [eval σ v]
  | .parameters cs => I.expression .parameters [] (evalAll σ cs)
  | .array cs => I.expression .array [] (evalAll σ cs)
  | .call name p _ => I.expression (.call name) [] [eval σ p]
  | .condition cs => I.expression .condition (cs.map (form · |>.sign?)) (evalAll σ cs)
  | .expression cs => I.chain cs (evalAll σ cs)
  | .group cs => I.expression .group [] (evalAll σ cs)
  | .filter name v p => I.expression (.filter name) [] [eval σ v, eval σ p]
  | n => I.expression (form n) [] []

def evalAll (σ : Store I.Val) : List Node → List I.Val
  | [] => []
  | n :: ns => eval σ n :: evalAll σ ns

end

/-! ### Statements -/

/-- An assignment to a single name, of a value or of what a block prints. -/
def assign (target : Form) (op : AssignOp) (kind : Form) (value : Store I.Val → I.Val)
    (block : Effect I.Val) : Effect I.Val :=
  match target, op, kind with
  | .var [x], .set, .list => fun σ =>
    let run := block σ
    (Function.update (I.leave .list σ run.1) x (I.captured run.2), [])
  | .var [x], .set, _ => fun σ => (Function.update σ x (value σ), [])
  | .var [x], .append, _ => fun σ => (Function.update σ x (I.concat [σ x, value σ]), [])
  | _, _, _ => .skip

def branch (condition : Store I.Val → I.Val) (yes no : Effect I.Val) : Effect I.Val := fun σ =>
  if I.truth (condition σ) then yes σ else no σ

def loop (names : Form) (source : Store I.Val → I.Val) (body : Effect I.Val) : Effect I.Val :=
  fun σ =>
    let value := source σ
    let run := Effect.times (fun i σ => body (I.enter names value i σ)) (I.rounds value) σ
    (I.leave names σ run.1, run.2)

mutual

/-- The effect of a statement. -/
def exec : Node → Effect I.Val
  | .text s => fun σ => (σ, [.text s])
  | .output inner => fun σ => (σ, [.values (I.evalAll σ inner)])
  | .assign target value op =>
    I.assign (form target) op (form value) (fun σ => I.eval σ value) (exec value)
  | .branch c yes no => I.branch (fun σ => I.eval σ c) (execAll yes) (execAll no)
  | .loop key item source body =>
    I.loop (.loop key item) (fun σ => I.eval σ source) (execAll body)
  | .list body => execAll body
  | .call name p body => I.statement (.call name) (fun σ => [I.eval σ p]) [execAll body]
  | .macroDef name p body _ => I.statement (.macroDef name) (fun σ => [I.eval σ p]) [execAll body]
  | n => I.statement (form n) (fun _ => []) []

/-- The effect of a body. -/
def execAll : List Node → Effect I.Val
  | [] => .skip
  | n :: ns => (exec n).seq (execAll ns)

end

variable {I}

theorem evalAll_eq_map (σ : Store I.Val) (ns : List Node) :
    I.evalAll σ ns = ns.map (I.eval σ) := by
  induction ns with
  | nil => rw [evalAll, List.map_nil]
  | cons n ns ih => rw [evalAll, List.map_cons, ih]

theorem execAll_append (ns ms : List Node) :
    I.execAll (ns ++ ms) = (I.execAll ns).seq (I.execAll ms) := by
  induction ns with
  | nil =>
    rw [execAll]
    rfl
  | cons n ns ih => rw [List.cons_append, execAll, execAll, ih, Effect.seq_assoc]

theorem execAll_singleton (n : Node) : I.execAll [n] = I.exec n := by
  rw [execAll, execAll, Effect.seq_skip]

end Interpretation
end TagCompiler.Effects
