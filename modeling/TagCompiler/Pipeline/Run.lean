import TagCompiler.Pipeline.Error
import TagCompiler.Pipeline.ParseCache
/-!
Runs of the compiler.

A run remembers the templates it has read and keeps a record of its lookups in the content. Both
survive a failure.
-/

namespace TagCompiler

/-- What a run remembers, and the lookups it has made, in order. -/
structure Memory where
  cache : ParseCache
  lookups : List Lookup

def Memory.empty : Memory := ⟨.empty, []⟩

/-- A run of the compiler. -/
abbrev Run := ExceptT CompileError (StateM Memory)

namespace Run

def ofExcept {ε α : Type} (wrap : ε → CompileError) : Except ε α → Run α
  | .ok a => pure a
  | .error e => throw (wrap e)

theorem run_ofExcept {ε α : Type} (wrap : ε → CompileError) (x : Except ε α) (m : Memory) :
    (ofExcept wrap x).run m = (x.mapError wrap, m) := by
  cases x <;> rfl

/-- Records a lookup. -/
def note (l : Lookup) : Run Unit := modify fun m => { m with lookups := m.lookups ++ [l] }

/-- Reads a template. -/
def parse (source : String) : Run (TreeOf source) := do
  let m ← get
  let (result, cache) := m.cache.parse source
  set { m with cache }
  ofExcept .template result

end Run
end TagCompiler
