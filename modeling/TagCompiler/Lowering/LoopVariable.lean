import TagCompiler.Lowering.Rebuild
/-!
The loop variable as the status object of a tag library loop.

Inside a loop the count from one goes by `loop.index` in a template and by `loop.count` in a tag
file, and the count from zero by `loop.index0` and `loop.index`.
-/

namespace TagCompiler

namespace LoopVariable

/-- The status object's name for a property of the loop variable. -/
def property : String → String
  | "index" => "count"
  | "index0" => "index"
  | other => other

def path : List String → List String
  | "loop" :: status :: rest => "loop" :: property status :: rest
  | p => p

/-- Knows, while it runs, whether a loop has been entered. The source of a loop counts as inside
it. -/
def rebuilder : Rebuilder (ReaderM Bool) :=
  { Rebuilder.keep with
    node := fun n rebuilt =>
      match n with
      | .loop .. => fun _ => rebuilt true
      | .var p => fun inside => if inside then .var (path p) else .var p
      | _ => rebuilt }

end LoopVariable

def Node.useStatusObject (n : Node) : Node := Id.run ((LoopVariable.rebuilder.run n).run false)

end TagCompiler
