import TagCompiler.Lowering.Rebuild
/-!
Renaming variables.

A renaming gives some names a new one. It applies to the first name of each variable path, and in
`renameNames` also to the names that loops bind.
-/

namespace TagCompiler

abbrev Renaming := String → Option String

namespace Renaming

/-- The new name of `n`, or `n` itself if it has none. -/
def apply (r : Renaming) (n : String) : String := (r n).getD n

/-- Renames the first name of a path. -/
def path (r : Renaming) : List String → List String
  | [] => []
  | root :: rest => r.apply root :: rest

/-- Renames `source` to `target` and nothing else. -/
def single (source target : String) : Renaming :=
  fun n => if n = source then some target else none

/-- Puts `lead` before and `trail` after every name that is not excluded. -/
def decoration (lead trail : String) (exclude : List String) : Renaming :=
  fun n => if exclude.contains n then none else some (lead ++ n ++ trail)

end Renaming

namespace Rebuilder

def renameRoots (r : Renaming) : Rebuilder Id :=
  { keep with
    node := fun n rebuilt =>
      match n with
      | .var p => .var (r.path p)
      | _ => rebuilt }

def renameNames (r : Renaming) : Rebuilder Id :=
  { keep with
    node := fun n rebuilt =>
      match n, rebuilt with
      | .var p, _ => .var (r.path p)
      | _, .loop k x v cs => .loop (k.map r.apply) (r.apply x) v cs
      | _, rebuilt => rebuilt }

end Rebuilder

namespace Node

/-- Renames the first names of variable paths. -/
def renameRoots (r : Renaming) (n : Node) : Node := Id.run ((Rebuilder.renameRoots r).run n)

/-- Renames the first names of variable paths and the names bound by loops. -/
def renameNames (r : Renaming) (n : Node) : Node := Id.run ((Rebuilder.renameNames r).run n)

end Node
end TagCompiler
