import TagCompiler.Template.Parse
/-!
Trees of templates that have been read before.

The cache holds sources with the trees they were read as, in the order in which they were first
read. It never holds anything but what reading would give.
-/

namespace TagCompiler

/-- The tree that a source is read as. -/
def TreeOf (source : String) : Type := { n : Node // Template.parse source = .ok n }

structure ParseCache where
  entries : List ((source : String) × TreeOf source)

namespace ParseCache

def empty : ParseCache := ⟨[]⟩

def lookup (source : String) : List ((source : String) × TreeOf source) → Option (TreeOf source)
  | [] => none
  | ⟨s, t⟩ :: rest => if h : s = source then some (h ▸ t) else lookup source rest

/-- The place at which a source stands in the cache: the name of its shared tree. -/
def place? (c : ParseCache) (source : String) : Option Nat :=
  c.entries.findIdx? fun e => e.1 == source

/-- Reads a source, unless it is in the cache already. -/
def parse (c : ParseCache) (source : String) :
    Except Template.SyntaxError (TreeOf source) × ParseCache :=
  match lookup source c.entries with
  | some t => (.ok t, c)
  | none =>
    match h : Template.parse source with
    | .ok n => (.ok ⟨n, h⟩, ⟨c.entries ++ [⟨source, ⟨n, h⟩⟩]⟩)
    | .error e => (.error e, c)

end ParseCache
end TagCompiler
