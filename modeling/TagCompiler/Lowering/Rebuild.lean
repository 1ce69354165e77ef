import TagCompiler.Node.Build
/-!
Rebuilding a tree from the leaves up.

A `Rebuilder` says what to do at a node, given the node and the step that rebuilds it from its
new subtrees, and what becomes of a statement of a body, which may turn into several. The
bodies of a tree are those of macros, calls, branchings and loops, and lists. `Rebuilder.keep`
changes nothing, so each use only names the places where it differs from that.
-/

namespace TagCompiler

structure Rebuilder (m : Type → Type) where
  /-- What becomes of a node; the second argument rebuilds it from its new subtrees. -/
  node : Node → m Node → m Node
  /-- What becomes of a statement; the argument rebuilds it. -/
  statement : m Node → m (List Node)

namespace Rebuilder

variable {m : Type → Type} [Monad m]

/-- Keeps every node. -/
def keep : Rebuilder m where
  node _ rebuilt := rebuilt
  statement rebuilt := do return [← rebuilt]

mutual

def run (w : Rebuilder m) : Node → m Node
  | .data v => w.node (.data v) (pure (.data v))
  | .literal v k => w.node (.literal v k) (pure (.literal v k))
  | .text s => w.node (.text s) (pure (.text s))
  | .var p => w.node (.var p) (pure (.var p))
  | .operator s => w.node (.operator s) (pure (.operator s))
  | .connective s => w.node (.connective s) (pure (.connective s))
  | .parameter n none => w.node (.parameter n none) (pure (.parameter n none))
  | .parameter n (some v) =>
    w.node (.parameter n (some v)) do return .parameter n (some (← run w v))
  | .parameters cs => w.node (.parameters cs) do return .parameters (← runAll w cs)
  | .array cs => w.node (.array cs) do return .array (← runAll w cs)
  | .call n p cs => w.node (.call n p cs) do return .call n (← run w p) (← runBody w cs)
  | .macroDef n p cs d =>
    w.node (.macroDef n p cs d) do return .macroDef n (← run w p) (← runBody w cs) d
  | .assign t v op => w.node (.assign t v op) do return .assign (← run w t) (← run w v) op
  | .branch c ys ns =>
    w.node (.branch c ys ns) do return .branch (← run w c) (← runBody w ys) (← runBody w ns)
  | .loop k x v cs =>
    w.node (.loop k x v cs) do return .loop k x (← run w v) (← runBody w cs)
  | .condition cs => w.node (.condition cs) do return .condition (← runAll w cs)
  | .expression cs => w.node (.expression cs) do return .expression (← runAll w cs)
  | .group cs => w.node (.group cs) do return .group (← runAll w cs)
  | .filter n v p => w.node (.filter n v p) do return .filter n (← run w v) (← run w p)
  | .output cs => w.node (.output cs) do return .output (← runAll w cs)
  | .yield => w.node .yield (pure .yield)
  | .list cs => w.node (.list cs) do return .list (← runBody w cs)

/-- Rebuilds the parts of an expression, one by one. -/
def runAll (w : Rebuilder m) : List Node → m (List Node)
  | [] => pure []
  | n :: ns => do return (← run w n) :: (← runAll w ns)

/-- Rebuilds the statements of a body. -/
def runBody (w : Rebuilder m) : List Node → m (List Node)
  | [] => pure []
  | n :: ns => do return (← w.statement (run w n)) ++ (← runBody w ns)

end

end Rebuilder

/-- The tree rebuilt without a change. -/
def Node.rebuild (n : Node) : Node := Id.run (Rebuilder.keep.run n)

end TagCompiler
