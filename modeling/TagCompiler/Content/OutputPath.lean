import TagCompiler.Content.Basic
import TagCompiler.Text.Split
/-!
Where a compiled macro is written.
-/

namespace TagCompiler

namespace OutputPath

/-- Goes on from `path` by `part`. An absolute part starts anew; otherwise a slash is put between
the two where there is none. -/
def push (path part : String) : String :=
  if part.toList.head? = some '/' then part
  else if path.isEmpty || path.toList.getLast? = some '/' then path ++ part
  else path ++ "/" ++ part

/-- The parts of a path between slashes, without the empty ones. -/
def segments (path : String) : List String := (Text.split '/' path).filter (!·.isEmpty)

/-- The file of a macro: below the root come the site, the category and path of the entity, and
then the macro file with the extension. -/
def ofMacro (root site : String) (entity : Entity) (file extension : String) : String :=
  let folder := (segments entity.path).foldl push (push (push root site) entity.categoryPlural)
  push folder (file ++ "." ++ extension)

end OutputPath
end TagCompiler
