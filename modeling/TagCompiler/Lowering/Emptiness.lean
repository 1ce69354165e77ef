import TagCompiler.Lowering.Rebuild
/-!
Emptiness tests.

A comparison with nothing, that is with null or the empty string, becomes a test with the `empty`
operator. In the condition of a branching a bare variable stands for "neither empty nor false", and
a negated one for the opposite.
-/

namespace TagCompiler

namespace Emptiness

/-- Null and the empty string, as literals. -/
def isVoid : Node → Bool
  | .literal .null _ => true
  | .literal (.string s) _ => s.isEmpty
  | _ => false

def emptyTest (subject : Node) : Node := .expression [.operator "empty", subject]

def filledTest (subject : Node) : Node := .expression [.operator "not", .operator "empty", subject]

/-- The subject converted to a string. -/
def asText (subject : Node) : Node := .filter "string" subject (.parameters [])

/-- Neither empty nor false. -/
def affirmed (subject : Node) : Node :=
  .group [.condition [filledTest subject, .connective "and",
    .expression [asText subject, .operator "!=", .string "false"]]]

/-- Empty or false. -/
def denied (subject : Node) : Node :=
  .group [.condition [emptyTest subject, .connective "or",
    .expression [asText subject, .operator "==", .string "false"]]]

/-- Whether this is the operator of a comparison for equality. -/
def isEquality : Node → Bool
  | .operator s => s == "==" || s == "!="
  | _ => false

/-- The test that stands for a chain, if the chain compares something with nothing. -/
def test? (chain : List Node) : Option Node :=
  match chain with
  | [left, .operator op, right] =>
    if isEquality left || !isEquality (.operator op) then none
    else
      let subject :=
        match isVoid left, isVoid right with
        | false, true => some left
        | true, false => some right
        | _, _ => none
      subject.map fun s => if op = "!=" then filledTest s else emptyTest s
  | _ => none

mutual

/-- Reads the variables in the boolean positions of a condition by their truth. -/
def truth : Node → Node
  | .var p => affirmed (.var p)
  | .expression [.operator "not", .var p] => denied (.var p)
  | .condition cs => .condition (truthOfOperands cs)
  | .group cs => .group (truths cs)
  | n => n

def truths : List Node → List Node
  | [] => []
  | n :: ns => truth n :: truths ns

def truthOfOperands : List Node → List Node
  | [] => []
  | .connective s :: ns => .connective s :: truthOfOperands ns
  | n :: ns => truth n :: truthOfOperands ns

end

def rebuilder : Rebuilder Id :=
  { Rebuilder.keep with
    node := fun _ rebuilt =>
      match rebuilt with
      | .expression cs => (test? cs).getD (.expression cs)
      | .branch c ys ns => .branch (truth c) ys ns
      | n => n }

end Emptiness

def Node.useEmptiness (n : Node) : Node := Id.run (Emptiness.rebuilder.run n)

end TagCompiler
