import Mathlib.Data.List.Permutation
import TagCompiler.Pipeline.Compiler
import TagCompiler.Proofs.SerializedTrees
/-!
# Configurations written as data and read back

A configuration is written with all its members. It may also be given in short, without members that
have their defaults: `Config.Short` says which data stand for a configuration, and the defaults are
listed here apart from the reader. Whatever is left out, the reader finds the same configuration, and
whether it makes sense is a matter of the configuration alone.
-/

namespace TagCompiler

/-! ### Members that are left out -/

namespace Members

/-- `ns` is `ms` without some members that are among the defaults. -/
def Shortens (defaults ms ns : Members) : Prop :=
  ns.Sublist ms ∧ ∀ m ∈ ms, m ∈ ns ∨ m ∈ defaults

theorem Shortens.refl (defaults ms : Members) : Shortens defaults ms ms :=
  ⟨List.Sublist.refl ms, fun _ h => .inl h⟩

/-- Each key once. -/
def Keyed (ms : Members) : Prop := (ms.map Prod.fst).Nodup

theorem Keyed.lookup_of_mem {ms : Members} (keyed : Keyed ms) {k : String} {v : Value}
    (h : (k, v) ∈ ms) : ms.lookup k = some v := by
  obtain ⟨before, after, rfl⟩ := List.append_of_mem h
  refine List.lookup_eq_some_iff.mpr ⟨before, after, rfl, fun m earlier => ?_⟩
  rw [Keyed, List.map_append] at keyed
  have apart := List.disjoint_of_nodup_append keyed (List.mem_map_of_mem earlier)
  rw [bne_iff_ne]
  rintro rfl
  exact apart List.mem_cons_self

theorem mem_of_lookup {ms : Members} {k : String} {v : Value} (h : ms.lookup k = some v) :
    (k, v) ∈ ms := by
  obtain ⟨before, after, rfl, -⟩ := List.lookup_eq_some_iff.mp h
  exact List.mem_append_right before List.mem_cons_self

section
variable {defaults ms ns : Members} {k : String} {v : Value}

/-- A member without a default is still there. -/
theorem Shortens.lookup_of_required (h : Shortens defaults ms ns) (keyed : Keyed ms)
    (found : ms.lookup k = some v) (required : k ∉ defaults.map Prod.fst) :
    ns.lookup k = some v := by
  have keyed' : Keyed ns := keyed.sublist (h.1.map Prod.fst)
  rcases h.2 (k, v) (mem_of_lookup found) with kept | default
  · exact keyed'.lookup_of_mem kept
  · exact absurd (List.mem_map_of_mem default) required

/-- A member is still there, or nothing stands for it and it has its default. -/
theorem Shortens.lookup_or (h : Shortens defaults ms ns) (keyed : Keyed ms)
    (found : ms.lookup k = some v) :
    ns.lookup k = some v ∨ ns.lookup k = none ∧ (k, v) ∈ defaults := by
  have keyed' : Keyed ns := keyed.sublist (h.1.map Prod.fst)
  rcases h.2 (k, v) (mem_of_lookup found) with kept | default
  · exact .inl (keyed'.lookup_of_mem kept)
  · cases left : ns.lookup k with
    | none => exact .inr ⟨rfl, default⟩
    | some w =>
      -- Only one member of `ms` has the key.
      have own := keyed.lookup_of_mem (h.1.mem (mem_of_lookup left))
      exact .inl (own.symm.trans found)

/-- What is read for a member does not depend on whether its default is written. -/
theorem Shortens.getD_eq {α : Type} {read? : Value → Option α} {a d : α}
    (h : Shortens defaults ms ns) (keyed : Keyed ms) (found : ms.lookup k = some v)
    (value : read? v = some a) (standard : ∀ w, (k, w) ∈ defaults → read? w = some d) :
    ns.getD k read? d = some a := by
  rcases h.lookup_or keyed found with kept | ⟨left, default⟩
  · rw [getD, kept]
    exact value
  · rw [getD, left]
    exact (standard v default).symm.trans value

end
end Members

namespace Value

def members : Value → Members
  | .object ms => ms
  | _ => []

/-- An object with the members of `v`, without some that are among the defaults. -/
inductive Shortens (defaults : Members) (v : Value) : Value → Prop
  | of {ms : Members} : Members.Shortens defaults v.members ms → Shortens defaults v (.object ms)

theorem Shortens.refl {v : Value} (object : v = .object v.members) (defaults : Members) :
    Shortens defaults v v := by
  have all : Shortens defaults v (.object v.members) := .of (.refl ..)
  rwa [← object] at all

end Value

/-! ### Passes -/

namespace Pass

/-- The members of a pass that may be left out, with what they then are. -/
def defaults : Pass → Members
  | .decorate .. => [("prefix", .string ""), ("suffix", .string ""), ("exclude", .array [])]
  | .inline _ => [("external", .bool true)]
  | .self .. => [("from", .string "this"), ("to", .string "self")]
  | _ => []

/-- The data are what the pass is written as, without some members that have their defaults. -/
def Short (p : Pass) : Value → Prop := Value.Shortens p.defaults p.toValue

theorem short_toValue (p : Pass) : p.Short p.toValue :=
  .refl (by cases p <;> rfl) _

theorem keyed_toValue (p : Pass) : Members.Keyed p.toValue.members := by
  cases p <;> simp [Members.Keyed, toValue, Value.members]

theorem lookup_tag_of_shortens {p : Pass} {ms : Members}
    (h : Members.Shortens p.defaults p.toValue.members ms) :
    ms.lookup "pass" = some (.string p.name) := by
  refine h.lookup_of_required p.keyed_toValue ?_ ?_
  · cases p <;> simp [toValue, Value.members, List.lookup_cons]
  · cases p <;> simp [defaults]

theorem ofValue?_of_short {p : Pass} {v : Value} (h : p.Short v) : ofValue? v = some p := by
  obtain @⟨ms, h⟩ := h
  have tag := lookup_tag_of_shortens h
  have keyed := p.keyed_toValue
  cases p with
  | decorate lead trail exclude =>
    have first : ms.getD "prefix" Value.asString? "" = some lead :=
      h.getD_eq keyed rfl rfl (by simp [defaults, Value.asString?])
    have second : ms.getD "suffix" Value.asString? "" = some trail :=
      h.getD_eq keyed rfl rfl (by simp [defaults, Value.asString?])
    have third : ms.getD "exclude" Value.asStrings? [] = some exclude :=
      h.getD_eq keyed rfl (Value.asStrings?_map_string exclude)
        (by simp [defaults, Value.asStrings?])
    simp [ofValue?, ofMembers?, tag, name, Value.asString?, first, second, third]
  | inline external =>
    have only : ms.getD "external" Value.asBool? true = some external :=
      h.getD_eq keyed rfl rfl (by simp [defaults, Value.asBool?])
    simp [ofValue?, ofMembers?, tag, name, Value.asString?, only]
  | self source target =>
    have first : ms.getD "from" Value.asString? "this" = some source :=
      h.getD_eq keyed rfl rfl (by simp [defaults, Value.asString?])
    have second : ms.getD "to" Value.asString? "self" = some target :=
      h.getD_eq keyed rfl rfl (by simp [defaults, Value.asString?])
    simp [ofValue?, ofMembers?, tag, name, Value.asString?, first, second]
  | _ => simp [ofValue?, ofMembers?, tag, name, Value.asString?]

end Pass

/-! ### Renderers -/

namespace Renderer

/-- The members of a renderer that may be left out, with what they then are. -/
def defaults : Renderer → Members
  | .tagFile _ => [("tag-prefix", .string "ui"), ("tag-dir", .string "/WEB-INF/tags"),
      ("body-content", .string "scriptless"), ("emit-header", .bool true)]
  | .null => []

/-- The data are what the renderer is written as, without some members that have their defaults. -/
def Short (r : Renderer) : Value → Prop := Value.Shortens r.defaults r.toValue

theorem short_toValue (r : Renderer) : r.Short r.toValue :=
  .refl (by cases r <;> rfl) _

theorem keyed_toValue (r : Renderer) : Members.Keyed r.toValue.members := by
  cases r <;> simp [Members.Keyed, toValue, Value.members]

theorem lookup_tag_of_shortens {r : Renderer} {ms : Members}
    (h : Members.Shortens r.defaults r.toValue.members ms) :
    ms.lookup "kind" = some (.string r.name) := by
  refine h.lookup_of_required r.keyed_toValue ?_ ?_
  · cases r <;> simp [toValue, Value.members, List.lookup_cons]
  · cases r <;> simp [defaults]

theorem ofValue?_of_short {r : Renderer} {v : Value} (h : r.Short v) : ofValue? v = some r := by
  obtain @⟨ms, h⟩ := h
  have tag := lookup_tag_of_shortens h
  have keyed := r.keyed_toValue
  cases r with
  | null => simp [ofValue?, ofMembers?, tag, name, Value.asString?]
  | tagFile o =>
    have tagPrefix : ms.getD "tag-prefix" Value.asString? "ui" = some o.tagPrefix :=
      h.getD_eq keyed rfl rfl (by simp [defaults, Value.asString?])
    have tagDir : ms.getD "tag-dir" Value.asString? "/WEB-INF/tags" = some o.tagDir :=
      h.getD_eq keyed rfl rfl (by simp [defaults, Value.asString?])
    have bodyContent : ms.getD "body-content" Value.asString? "scriptless" = some o.bodyContent :=
      h.getD_eq keyed rfl rfl (by simp [defaults, Value.asString?])
    have emitHeader : ms.getD "emit-header" Value.asBool? true = some o.emitHeader :=
      h.getD_eq keyed rfl rfl (by simp [defaults, Value.asBool?])
    simp [ofValue?, ofMembers?, tag, name, Value.asString?, TagOptions.standard,
      tagPrefix, tagDir, bodyContent, emitHeader]

end Renderer

/-! ### Whole configurations -/

namespace Config

/-- How the passes are given: written one by one, or not at all if they are the standard ones. -/
inductive GivesPasses (c : Config) : Members → Prop
  | written {vs : List Value} : List.Forall₂ Pass.Short c.passes vs →
      GivesPasses c [("passes", .array vs)]
  | missing : c.passes = standard.passes → GivesPasses c []

/-- How the renderer is given: written, or not at all if it is the standard one. -/
inductive GivesRenderer (c : Config) : Members → Prop
  | written {v : Value} : c.renderer.Short v → GivesRenderer c [("renderer", v)]
  | missing : c.renderer = standard.renderer → GivesRenderer c []

/-- The data are what the configuration is written as, without some members that have their
defaults, in the passes, in the renderer or as a whole. -/
inductive Short (c : Config) : Value → Prop
  | of {ps rs : Members} : GivesPasses c ps → GivesRenderer c rs → Short c (.object (ps ++ rs))

theorem short_toValue (c : Config) : c.Short c.toValue := by
  have passes : c.GivesPasses [("passes", .array (c.passes.map Pass.toValue))] :=
    .written (List.forall₂_map_right_iff.mpr (List.forall₂_same.mpr fun p _ => p.short_toValue))
  exact .of passes (.written c.renderer.short_toValue)

theorem passes?_of_short {ps : List Pass} {vs : List Value} (h : List.Forall₂ Pass.Short ps vs) :
    passes? (.array vs) = some ps := by
  rw [passes?]
  induction h with
  | nil => rfl
  | cons first _ ih =>
    rw [List.mapM_cons, Pass.ofValue?_of_short first, ih]
    rfl

theorem GivesPasses.getD {c : Config} {ps rs : Members} (h : c.GivesPasses ps)
    (other : c.GivesRenderer rs) :
    Members.getD (ps ++ rs) "passes" passes? Pass.standard = some c.passes := by
  cases h with
  | written short => simpa [Members.getD] using passes?_of_short short
  | missing same => cases other <;> simp [Members.getD, List.lookup_cons, same, standard]

theorem GivesRenderer.getD {c : Config} {ps rs : Members} (h : c.GivesRenderer rs)
    (other : c.GivesPasses ps) :
    Members.getD (ps ++ rs) "renderer" Renderer.ofValue? Renderer.standard = some c.renderer := by
  have apart : ps.lookup "renderer" = none := by cases other <;> simp [List.lookup_cons]
  rw [Members.getD, List.lookup_append, apart, Option.none_or]
  cases h with
  | written short => simpa using Renderer.ofValue?_of_short short
  | missing same => simp [same, standard]

theorem ofValue?_of_short {c : Config} {v : Value} (h : c.Short v) : ofValue? v = some c := by
  cases h with
  | of passes renderer => simp [ofValue?, ofMembers?, passes.getD renderer, renderer.getD passes]

/-- Whatever a configuration is written as, in full or in short and as data or as text, reading it
gives the configuration if it makes sense, and otherwise says what is wrong with it. -/
theorem written_configuration_reads_back (c : Config) :
    (c.validate = .ok () → Compiler.ofValue c.toValue = .ok c) ∧
    (∀ e, c.validate = .error e → Compiler.ofValue c.toValue = .error (.config e)) ∧
    (∀ v, c.Short v → Compiler.ofValue v = Compiler.ofValue c.toValue) ∧
    ∀ text ms, Json.membersOfText? isMember text = some ms → c.Short (.object ms) →
      Compiler.ofText text = Compiler.ofValue c.toValue := by
  have full : Compiler.ofValue c.toValue = Compiler.ofConfig c := by
    rw [Compiler.ofValue, ofValue?_of_short c.short_toValue, Compiler.ofRead]
  refine ⟨fun sound => ?_, fun e fault => ?_, fun v short => ?_, fun text ms read short => ?_⟩
  · rw [full, Compiler.ofConfig, sound]
  · rw [full, Compiler.ofConfig, fault]
  · rw [full, Compiler.ofValue, ofValue?_of_short short, Compiler.ofRead]
  · have members : ofMembers? ms = some c := ofValue?_of_short short
    rw [full, Compiler.ofText, ofText?, read, Option.bind_some, members, Compiler.ofRead]

/-- One pass of which one member is left out, and a renderer of which only one is written. -/
def sparse : Config := ⟨[.self "this" "me"], .tagFile ⟨"ui", "/tags", "scriptless", true⟩⟩

def sparseMembers : Members :=
  [("passes", .array [.object [("pass", .string "self"), ("to", .string "me")]]),
    ("renderer", .object [("kind", .string "jsp"), ("tag-dir", .string "/tags")])]

def sparseText : String :=
  "\x7b\"passes\": [\x7b\"to\": \"me\", \"pass\": \"self\"\x7d]," ++
    " \"renderer\": \x7b\"kind\": \"jsp\", \"tag-dir\": \"/tags\"\x7d\x7d"

theorem short_sparse : sparse.Short (.object sparseMembers) := by
  have pass : (Pass.self "this" "me").Short
      (.object [("pass", .string "self"), ("to", .string "me")]) :=
    .of ⟨by simp [Pass.toValue, Value.members, Pass.name], by
      simp [Pass.toValue, Value.members, Pass.name, Pass.defaults]⟩
  have renderer : (Renderer.tagFile ⟨"ui", "/tags", "scriptless", true⟩).Short
      (.object [("kind", .string "jsp"), ("tag-dir", .string "/tags")]) :=
    .of ⟨by simp [Renderer.toValue, Value.members, Renderer.name], by
      simp [Renderer.toValue, Value.members, Renderer.name, Renderer.defaults]⟩
  have passes : sparse.GivesPasses
      [("passes", .array [.object [("pass", .string "self"), ("to", .string "me")]])] :=
    .written (.cons pass .nil)
  exact .of passes (.written renderer)

theorem written_configuration_reads_back_sparse :
    Json.membersOfText? isMember sparseText = some sparseMembers ∧ sparse.validate = .ok () ∧
      Compiler.ofText sparseText = .ok sparse := by
  have read : Json.membersOfText? isMember sparseText = some sparseMembers := by cbv
  have sound : sparse.validate = .ok () := by decide
  obtain ⟨whole, -, -, text⟩ := written_configuration_reads_back sparse
  exact ⟨read, sound, (text sparseText sparseMembers read short_sparse).trans (whole sound)⟩

end Config
end TagCompiler
