import TagCompiler.Content.Basic
import TagCompiler.Template.Usage
/-!
Content that is kept in memory.

A macro file is registered for an entity of a site, under every name that its source defines. What
is registered later comes first in each list, so the latest registration is the one that is found.
-/

namespace TagCompiler

structure Store where
  sites : List String
  macros : List ((String × String) × MacroFile)
  properties : List ((String × String) × Members)
  viewModels : List (String × Value)

namespace Store

def empty : Store := ⟨[], [], [], []⟩

/-- Registers a macro file and the properties of its owner; gives the names that it defines. -/
def addEntity (s : Store) (site : String) (entity : Entity) (file source : String)
    (properties : Members) : NameSet × Store :=
  let names := (Template.usage source).definitions
  let entries := names.map fun n => ((site, n), (⟨entity, file, source⟩ : MacroFile))
  (names, { s with
    sites := site :: s.sites
    macros := entries ++ s.macros
    properties := ((site, entity.id), properties) :: s.properties })

def addViewModel (s : Store) (path : String) (value : Value) : Store :=
  { s with viewModels := (path, value) :: s.viewModels }

def resolve (s : Store) (site name : String) : Except LookupError MacroFile :=
  if s.sites.contains site then
    match s.macros.lookup (site, name) with
    | some m => .ok m
    | none => .error (.unknownMacro site name)
  else .error (.unknownSite site)

def entityProperties (s : Store) (site : String) (entity : Entity) :
    Except LookupError Members :=
  match s.properties.lookup (site, entity.id) with
  | some ps => .ok ps
  | none => .error (.missingProperties entity.id)

def viewModel (s : Store) (path : String) : Except LookupError Value :=
  match s.viewModels.lookup path with
  | some v => .ok v
  | none => .error (.unknownViewModel path)

theorem mem_of_lookup {α β : Type} [BEq α] [LawfulBEq α] {k : α} {v : β} {l : List (α × β)}
    (h : l.lookup k = some v) : (k, v) ∈ l := by
  induction l with
  | nil => simp at h
  | cons e l ih =>
    obtain ⟨j, w⟩ := e
    rw [List.lookup_cons] at h
    split at h
    · rename_i hj
      cases h
      rw [eq_of_beq hj]
      exact List.mem_cons_self
    · exact List.mem_cons_of_mem _ (ih h)

def content (s : Store) : Content where
  resolve := s.resolve
  properties := s.entityProperties
  viewModel := s.viewModel
  sources := s.macros.map fun e => e.2.source
  mem_sources {site name m} h := by
    unfold resolve at h
    split at h
    · split at h
      · next hl => cases h; exact List.mem_map.mpr ⟨_, mem_of_lookup hl, rfl⟩
      · simp at h
    · simp at h

end Store
end TagCompiler
