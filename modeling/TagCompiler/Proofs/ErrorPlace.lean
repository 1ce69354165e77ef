import TagCompiler.Proofs.StatementReads
import TagCompiler.Proofs.TrackedStatements
/-!
# The place of a syntax error

A template that cannot be read is rejected with a place of its own source: the line, the column and
the fragment of the error are those of one character boundary, and the cause of the error is found
there. The readers count lines and bytes on their way; that these counts are those of a place of the
source, and that the complaint holds there, is what `parse_eq` and `elementsFrom_reads` give.
-/

namespace TagCompiler.Template

open Text Grammar

/-- Line, column and fragment of the error are those of the place between `before` and `after`:
`line` is what stands between the last newline before the place, or the start, and the place. -/
structure SyntaxError.PointsAt (e : SyntaxError) (before after : String) : Prop where
  line_eq : e.line = 1 + before.toList.count '\n'
  column_eq : ∃ earlier line : String, before = earlier ++ line ∧
    (earlier = "" ∨ earlier.toList.getLast? = some '\n') ∧ '\n' ∉ line.toList ∧
    e.column = 1 + line.utf8ByteSize
  fragment_eq : e.fragment = String.ofList (after.toList.take 24)

theorem exists_lastLine (s : List Char) : ∃ earlier,
    s = earlier ++ lastLine s ∧ (earlier = [] ∨ earlier.getLast? = some '\n') := by
  refine ⟨(s.reverse.dropWhile (· != '\n')).reverse, ?_, ?_⟩
  · rw [lastLine, ← List.reverse_append, List.takeWhile_append_dropWhile, List.reverse_reverse]
  · rw [List.getLast?_reverse, List.reverse_eq_nil_iff]
    cases h : s.reverse.dropWhile (· != '\n') with
    | nil => exact .inl rfl
    | cons c r =>
      have newline := dropWhile_head (p := (· != '\n')) s.reverse c (by rw [h]; rfl)
      exact .inr (by simpa using newline)

theorem newline_notMem_lastLine (s : List Char) : '\n' ∉ lastLine s := by
  intro newline
  rw [lastLine, List.mem_reverse] at newline
  have := List.all_eq_true.mp List.all_takeWhile _ newline
  simp at this

theorem SyntaxError.locate_pointsAt (cause : Cause) (before after : List Char) :
    (locate (before ++ after) ⟨cause, after.length⟩).PointsAt (String.ofList before)
      (String.ofList after) := by
  constructor
  · simp [locate]
  · obtain ⟨earlier, split, ends⟩ := exists_lastLine before
    refine ⟨String.ofList earlier, String.ofList (lastLine before), ?_, ?_, ?_, ?_⟩
    · rw [← String.ofList_append, ← split]
    · simpa using ends
    · rw [String.toList_ofList]
      exact newline_notMem_lastLine before
    · simp [locate, byteLength_eq]
  · simp [locate, fragmentLength]

/-- An error of `parse` is at a character boundary `p` of the source, and what it complains about
is found there. -/
theorem exists_place_of_parse_error {source : String} {e : SyntaxError}
    (h : parse source = .error e) : ∃ (p : source.Pos) (before after : String),
      p.Splits before after ∧ e.PointsAt before after ∧
        e.cause.ShowsAt before.toList after.toList := by
  rw [parse_eq] at h
  have reads := elementsFrom_reads [] [] none false source.toList .nil
  split at h
  · cases h
  · rename_i f hf
    cases h
    rw [hf] at reads
    obtain ⟨before, after, split, unread, shows⟩ := reads
    have whole : source = String.ofList before ++ String.ofList after := by
      rw [← String.ofList_append, ← split, String.ofList_toList]
    have place : f = ⟨f.cause, after.length⟩ := by rw [← unread]
    refine ⟨⟨(String.ofList before).rawEndPos,
      String.Pos.Raw.isValid_iff_exists_append.mpr ⟨_, _, whole, rfl⟩⟩, _, _, ⟨whole, rfl⟩, ?_, ?_⟩
    · rw [split, place]
      exact SyntaxError.locate_pointsAt f.cause before after
    · rw [String.toList_ofList, String.toList_ofList]
      exact shows

theorem exists_place_of_unclosed_output :
    parse "é\n\x7b\x7b 'ü' ü" = .error ⟨2, 9, "ü", .unexpected "'\x7d\x7d'" "ü"⟩ ∧
    ∃ (p : ("é\n\x7b\x7b 'ü' ü").Pos) (before after : String), p.Splits before after ∧
      (⟨2, 9, "ü", .unexpected "'\x7d\x7d'" "ü"⟩ : SyntaxError).PointsAt before after ∧
      (Cause.unexpected "'\x7d\x7d'" "ü").ShowsAt before.toList after.toList := by
  have rejected : parse "é\n\x7b\x7b 'ü' ü" =
      .error ⟨2, 9, "ü", .unexpected "'\x7d\x7d'" "ü"⟩ := by cbv
  exact ⟨rejected, exists_place_of_parse_error rejected⟩

end TagCompiler.Template
