import TagCompiler.Content.Basic
import TagCompiler.Node.Json
/-!
Entities and macro files as JSON data.
-/

namespace TagCompiler
namespace Entity

def toValue (e : Entity) : Value :=
  .object [("category", .string e.category), ("categoryPlural", .string e.categoryPlural),
    ("id", .string e.id), ("path", .string e.path)]

/-- Reads an entity. All its members are needed, and others are ignored. -/
def ofValue? (v : Value) : Option Entity := do
  let id ← (v.member? "id").bind Value.asString?
  let category ← (v.member? "category").bind Value.asString?
  let categoryPlural ← (v.member? "categoryPlural").bind Value.asString?
  let path ← (v.member? "path").bind Value.asString?
  return ⟨id, category, categoryPlural, path⟩

theorem ofValue?_toValue (e : Entity) : ofValue? e.toValue = some e := rfl

end Entity

def MacroFile.toValue (m : MacroFile) : Value :=
  .object [("entity", m.entity.toValue), ("file", .string m.file), ("source", .string m.source)]

end TagCompiler
