import Mathlib.Data.List.Basic
import TagCompiler.Content.OutputPath
/-!
# Output paths are told apart

The path of a compiled macro is one string, put together from the root, the site, the category and
the path of its entity, and the macro file with the extension. Below one root and with one extension
the string determines all the others, of the path of an entity its parts: the slashes in it that
separate nothing are not seen. The parts are found again by splitting, once what the root puts in
front and what the extension puts behind are taken away.
-/

namespace TagCompiler.Text

theorem splitChars_eq_splitOn (sep : Char) (s : List Char) : splitChars sep s = s.splitOn sep := by
  induction s with
  | nil => rfl
  | cons c s ih =>
    rw [splitChars, ih, List.splitOn_cons_eq_if_modifyHead]
    by_cases separates : c = sep
    · simp [separates]
    · cases parts : s.splitOn sep with
      | nil => exact absurd parts (List.splitOn_ne_nil sep s)
      | cons p ps => simp [separates]

theorem not_mem_of_mem_splitChars {sep : Char} {s p : List Char} (h : p ∈ splitChars sep s) :
    sep ∉ p := by
  induction s generalizing p with
  | nil =>
    rw [List.mem_singleton.mp h]
    exact List.not_mem_nil
  | cons c s ih =>
    rw [splitChars] at h
    by_cases separates : c = sep
    · rw [if_pos separates] at h
      rcases List.mem_cons.mp h with rfl | h
      · exact List.not_mem_nil
      · exact ih h
    · rw [if_neg separates] at h
      cases parts : splitChars sep s with
      | nil =>
        rw [parts] at h
        rw [List.mem_singleton.mp h]
        exact mt List.mem_singleton.mp (Ne.symm separates)
      | cons q qs =>
        rw [parts] at h ih
        rcases List.mem_cons.mp h with rfl | h
        · exact List.not_mem_cons_of_ne_of_not_mem (Ne.symm separates) (ih List.mem_cons_self)
        · exact ih (List.mem_cons_of_mem q h)

end TagCompiler.Text

namespace TagCompiler.OutputPath

/-! ### Parts of a path -/

/-- A text that can stand between two slashes. -/
def IsPathPart (s : String) : Prop := s ≠ "" ∧ '/' ∉ s.toList

instance (s : String) : Decidable (IsPathPart s) := inferInstanceAs (Decidable (_ ∧ _))

/-- The texts of a path between its slashes, without the empty ones. -/
def names (path : String) : List (List Char) := (path.toList.splitOn '/').filter (· ≠ [])

theorem segments_eq_map_names (path : String) : segments path = (names path).map String.ofList := by
  have same : ∀ p : List Char, (!(String.ofList p).isEmpty) = decide (p ≠ []) := by
    intro p
    rw [decide_not, Bool.eq_iff_iff]
    simp
  rw [segments, Text.split, Text.splitChars_eq_splitOn, names, List.filter_map]
  simp only [Function.comp_def, same]

theorem segments_eq_iff {p q : String} : segments p = segments q ↔ names p = names q := by
  rw [segments_eq_map_names, segments_eq_map_names]
  exact (List.map_injective_iff.mpr fun _ _ => String.ofList_inj.mp).eq_iff

theorem names_append_slash (p q : String) : names (p ++ "/" ++ q) = names p ++ names q := by
  have texts : (p ++ "/" ++ q).toList = p.toList ++ '/' :: q.toList := by simp
  rw [names, texts, List.splitOn_append_cons_self, List.filter_append, names, names]

theorem segments_append_slash (p q : String) :
    segments (p ++ "/" ++ q) = segments p ++ segments q := by
  simp only [segments_eq_map_names, names_append_slash, List.map_append]

theorem segments_empty : segments "" = [] := by decide

theorem segments_slash_append (p : String) : segments ("/" ++ p) = segments p := by
  have split := segments_append_slash "" p
  rwa [segments_empty, List.nil_append, String.empty_append] at split

theorem segments_append_end (p : String) : segments (p ++ "/") = segments p := by
  have split := segments_append_slash p ""
  rwa [segments_empty, List.append_nil, String.append_empty] at split

theorem segments_append_slashes (p q : String) :
    segments (p ++ "//" ++ q) = segments (p ++ "/" ++ q) := by
  have slashes : p ++ "//" ++ q = p ++ "/" ++ ("/" ++ q) := by
    have double : "//" = "/" ++ "/" := rfl
    simp only [double, String.append_assoc]
  rw [slashes, segments_append_slash, segments_slash_append, segments_append_slash]

theorem segments_of_isPathPart {s : String} (h : IsPathPart s) : segments s = [s] := by
  have nonempty : s.toList ≠ [] := mt String.toList_eq_nil_iff.mp h.1
  rw [segments_eq_map_names, names, List.splitOn_eq_singleton h.2]
  simp [nonempty]

theorem isPathPart_of_mem_segments {path s : String} (h : s ∈ segments path) : IsPathPart s := by
  obtain ⟨found, nonempty⟩ := List.mem_filter.mp h
  obtain ⟨p, part, rfl⟩ := List.mem_map.mp found
  refine ⟨?_, ?_⟩
  · rintro empty
    rw [empty] at nonempty
    cases nonempty
  · rw [String.toList_ofList]
    exact Text.not_mem_of_mem_splitChars part

/-! ### Going on from a path -/

/-- What stands before a part that goes on from `path`. -/
def lead (path : String) : String :=
  if path.isEmpty || path.toList.getLast? = some '/' then path else path ++ "/"

theorem push_eq_lead {part : String} (relative : part.toList.head? ≠ some '/') (path : String) :
    push path part = lead path ++ part := by
  rw [push, if_neg relative, lead]
  split <;> rfl

theorem IsPathPart.head {part : String} (h : IsPathPart part) (t : String) :
    (part ++ t).toList.head? ≠ some '/' := by
  obtain ⟨c, cs, front⟩ := List.exists_cons_of_ne_nil (mt String.toList_eq_nil_iff.mp h.1)
  intro slash
  rw [String.toList_append, front] at slash
  have slash : c = '/' := Option.some.inj slash
  exact h.2 (by rw [front, slash]; exact List.mem_cons_self)

theorem push_of_isPathPart {part : String} (h : IsPathPart part) (path : String) :
    push path part = lead path ++ part :=
  push_eq_lead (by simpa using h.head "") path

theorem push_append {part : String} (h : IsPathPart part) (path t : String) :
    push path (part ++ t) = push path part ++ t := by
  rw [push_eq_lead (h.head t), push_of_isPathPart h, String.append_assoc]

theorem lead_append {part : String} (h : IsPathPart part) (path : String) :
    lead (path ++ part) = path ++ part ++ "/" := by
  have nonempty : part.toList ≠ [] := mt String.toList_eq_nil_iff.mp h.1
  have last : (path ++ part).toList.getLast? ≠ some '/' := by
    intro slash
    rw [String.toList_append, List.getLast?_append_of_ne_nil _ nonempty] at slash
    exact h.2 (List.mem_of_getLast? slash)
  have filled : (path ++ part).isEmpty = false := by
    rw [Bool.eq_false_iff, ne_eq, String.isEmpty_iff, String.append_eq_empty_iff]
    exact fun empty => h.1 empty.2
  rw [lead, filled, Bool.false_or, if_neg (mt decide_eq_true_eq.mp last)]

/-- Parts one after the other, with a slash before each but the first. -/
def trail (first : String) (parts : List String) : String :=
  parts.foldl (fun path part => path ++ "/" ++ part) first

theorem trail_append (path first : String) (parts : List String) :
    trail (path ++ first) parts = path ++ trail first parts := by
  induction parts generalizing first with
  | nil => rfl
  | cons part parts ih =>
    have next := ih (first ++ "/" ++ part)
    simpa only [trail, List.foldl_cons, String.append_assoc] using next

/-- Going on by parts puts a slash before each of them. -/
theorem foldl_push {first : String} {parts : List String} (h : IsPathPart first)
    (hs : ∀ part ∈ parts, IsPathPart part) (path : String) :
    parts.foldl push (path ++ first) = trail (path ++ first) parts := by
  induction parts generalizing path first with
  | nil => rfl
  | cons part parts ih =>
    have own := hs part List.mem_cons_self
    rw [List.foldl_cons, push_of_isPathPart own, lead_append h]
    exact ih own (fun p later => hs p (List.mem_cons_of_mem part later)) _

/-- Splitting finds the parts of a trail. -/
theorem segments_trail {first : String} {parts : List String}
    (hs : ∀ part ∈ parts, IsPathPart part) :
    segments (trail first parts) = segments first ++ parts := by
  induction parts generalizing first with
  | nil => exact (List.append_nil _).symm
  | cons part parts ih =>
    have own := hs part List.mem_cons_self
    have rest : segments (trail (first ++ "/" ++ part) parts) =
        segments (first ++ "/" ++ part) ++ parts :=
      ih fun p later => hs p (List.mem_cons_of_mem part later)
    rw [segments_append_slash, segments_of_isPathPart own, List.append_assoc] at rest
    exact rest

/-! ### Whole paths -/

/-- The parts of an output path below the root, without the extension. -/
def parts (entity : Entity) (file : String) : List String :=
  entity.categoryPlural :: (segments entity.path ++ [file])

section
variable {site : String} {entity : Entity} {file : String}

theorem isPathPart_of_mem_parts (category : IsPathPart entity.categoryPlural)
    (named : IsPathPart file) : ∀ part ∈ parts entity file, IsPathPart part := by
  intro part h
  rcases List.mem_cons.mp h with rfl | h
  · exact category
  · rcases List.mem_append.mp h with h | h
    · exact isPathPart_of_mem_segments h
    · rw [List.mem_singleton.mp h]
      exact named

theorem ofMacro_eq (root extension : String) (own : IsPathPart site)
    (category : IsPathPart entity.categoryPlural) (named : IsPathPart file) :
    ofMacro root site entity file extension =
      lead root ++ trail site (parts entity file) ++ ("." ++ extension) := by
  have folders : push ((segments entity.path).foldl push
      (push (push root site) entity.categoryPlural)) file =
        (parts entity file).foldl push (lead root ++ site) := by
    rw [parts, List.foldl_cons, List.foldl_append, List.foldl_cons, List.foldl_nil,
      push_of_isPathPart own]
  rw [ofMacro, String.append_assoc, push_append named, folders,
    foldl_push own (isPathPart_of_mem_parts category named), trail_append]

/-- Of the path of an entity only the parts are used. -/
theorem ofMacro_congr {p q : String} (same : segments p = segments q) (root extension : String) :
    ofMacro root site { entity with path := p } file extension =
      ofMacro root site { entity with path := q } file extension := by
  rw [ofMacro, same, ofMacro]

end

/-- For names that can stand between slashes, two output paths below one root and with one extension
are equal exactly if they are made for the same site, the same category, the same macro file and the
same parts of the path of the entity. So it makes no difference whether a slash stands before that
path or after it, or next to another slash. -/
theorem output_path_determines_parts (root extension : String) {site site' file file' : String}
    {entity entity' : Entity} (own : IsPathPart site) (own' : IsPathPart site')
    (category : IsPathPart entity.categoryPlural) (category' : IsPathPart entity'.categoryPlural)
    (named : IsPathPart file) (named' : IsPathPart file') :
    (ofMacro root site entity file extension = ofMacro root site' entity' file' extension ↔
      site = site' ∧ entity.categoryPlural = entity'.categoryPlural ∧
        names entity.path = names entity'.path ∧ file = file') ∧
    ∀ p q, ofMacro root site { entity with path := "/" ++ p } file extension =
        ofMacro root site { entity with path := p } file extension ∧
      ofMacro root site { entity with path := p ++ "/" } file extension =
        ofMacro root site { entity with path := p } file extension ∧
      ofMacro root site { entity with path := p ++ "//" ++ q } file extension =
        ofMacro root site { entity with path := p ++ "/" ++ q } file extension := by
  have found := isPathPart_of_mem_parts category named
  have found' := isPathPart_of_mem_parts category' named'
  refine ⟨⟨fun same => ?_, ?_⟩, fun p q => ⟨?_, ?_, ?_⟩⟩
  · rw [ofMacro_eq root extension own category named,
      ofMacro_eq root extension own' category' named', String.append_left_inj,
      String.append_right_inj] at same
    have split := congrArg segments same
    rw [segments_trail found, segments_trail found', segments_of_isPathPart own,
      segments_of_isPathPart own'] at split
    obtain ⟨sites, split⟩ := List.cons.inj split
    obtain ⟨categories, split⟩ := List.cons.inj split
    obtain ⟨paths, files⟩ := List.append_inj' split rfl
    exact ⟨sites, categories, segments_eq_iff.mp paths, List.singleton_inj.mp files⟩
  · rintro ⟨rfl, categories, paths, rfl⟩
    rw [ofMacro, categories, segments_eq_iff.mpr paths, ofMacro]
  · exact ofMacro_congr (segments_slash_append p) root extension
  · exact ofMacro_congr (segments_append_end p) root extension
  · exact ofMacro_congr (segments_append_slashes p q) root extension

/-- Slashes without a part between them do not tell two paths apart; the place of a dot does. -/
theorem output_path_determines_dotted_parts :
    ofMacro "/" "base" ⟨"e", "atom", "atoms", "/forms//input/"⟩ "input" "tag" =
      ofMacro "/" "base" ⟨"f", "part", "atoms", "forms/input"⟩ "input" "tag" ∧
    ofMacro "/" "base" ⟨"e", "atom", "atoms", "forms/input"⟩ "x" "tag" ≠
      ofMacro "/" "base" ⟨"e", "atom", "atoms", "forms"⟩ "input.x" "tag" := by
  have site : IsPathPart "base" := by decide
  have category : IsPathPart "atoms" := by decide
  have input : IsPathPart "input" := by decide
  have x : IsPathPart "x" := by decide
  have dotted : IsPathPart "input.x" := by decide
  refine ⟨?_, fun same => ?_⟩
  · exact (output_path_determines_parts "/" "tag" site site category category input input).1.mpr
      ⟨rfl, rfl, by decide, rfl⟩
  · have split := (output_path_determines_parts "/" "tag" site site category category x
      dotted).1.mp same
    exact absurd split.2.2.2 (by decide)

end TagCompiler.OutputPath
