import TagCompiler.Lowering.Rebuild
/-!
String building assignments as appends.

An assignment of a chain joined by `+` and `~` builds a string when the chain has a `~` or a string
literal. It is split: the first term is assigned, unless it is the target itself, and each further
one appended. When a further term reads the target, the chain stays together and is joined by the
concatenation sign. Chains of `+` alone are sums and stay. Any `~` that is left is then spelled as
the concatenation sign.
-/

namespace TagCompiler

namespace StringBuilding

/-- The sign for string concatenation in a tag file. -/
def concatSign : String := "+="

/-- The elements at the even places of a chain, which are its terms. -/
def terms {α : Type} : List α → List α
  | [] => []
  | [t] => [t]
  | t :: _ :: rest => t :: terms rest

/-- The elements at the odd places of a chain, which join its terms. -/
def joiners {α : Type} : List α → List α
  | [] => []
  | [_] => []
  | _ :: j :: rest => j :: joiners rest

def isTilde : Node → Bool
  | .operator s => s == "~"
  | _ => false

def isPlus : Node → Bool
  | .operator s => s == "+"
  | _ => false

def isStringLiteral : Node → Bool
  | .literal _ .string => true
  | _ => false

/-- Whether a chain builds a string. -/
def builds (chain : List Node) : Bool :=
  (joiners chain).all (fun j => isPlus j || isTilde j) && 1 < (terms chain).length &&
    ((terms chain).any isStringLiteral || (joiners chain).any isTilde)

/-- Whether a variable with the given first name occurs in the tree. -/
def reads (root : Option String) (n : Node) : Bool :=
  n.preorder.any fun v => v.isVar && v.rootName? == root

/-- The statements that assign the string built from `first` and then `rest`. -/
def build (target first : Node) (rest : List Node) : Except ShapeFault (List Node) :=
  if rest.any (reads target.rootName?) then
    let chain := (first :: rest).intersperse (.operator concatSign)
    (Node.assign? .set target (.expression chain)).map fun n => [n]
  else do
    let start ← (if first.same target then [] else [first]).mapM (Node.assign? .set target)
    let further ← rest.mapM (Node.assign? .append target)
    return start ++ further

/-- The statements that a statement stands for. -/
def split (n : Node) : Except ShapeFault (List Node) :=
  match n with
  | .assign target (.expression chain) .set =>
    if builds chain then
      match terms chain with
      | first :: rest => build target first rest
      | [] => .ok [n]
    else .ok [n]
  | n => .ok [n]

def splitter : Rebuilder (Except ShapeFault) :=
  { Rebuilder.keep with statement := fun rebuilt => do split (← rebuilt) }

def speller : Rebuilder Id :=
  { Rebuilder.keep with
    node := fun n rebuilt =>
      match n with
      | .operator "~" => .operator concatSign
      | _ => rebuilt }

end StringBuilding

def Node.splitStringBuilding (n : Node) : Except ShapeFault Node := do
  let n ← StringBuilding.splitter.run n
  return Id.run (StringBuilding.speller.run n)

end TagCompiler
