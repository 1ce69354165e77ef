import TagCompiler.Proofs.ExpressionRoundTrip
import TagCompiler.Proofs.Places
import TagCompiler.Proofs.StatementEquations
import TagCompiler.Proofs.TrackedStatements
/-!
# Reading templates that were written

Reading gets back every body that can be written: with single spaces, as `print` writes it, or with
any other blanks at the places where blanks may stand and with either kind of quote. No documented
macro, no floating point literal, no trim mark and no comment is written.
-/

namespace TagCompiler.Grammar

open Template Text

variable {s m rest : List Char} {n : Node}

/-! ### Tags -/

theorem tagStart?_append {opener : String} (nonempty : opener ≠ "")
    (gap : Piece.gap.Spelled m rest) :
    plain (tagStart? opener (opener.toList ++ m)) = some ((), m) := by
  obtain ⟨c, r, rfl, blank⟩ := Piece.blank_of_gap gap
  have noTrim : Avoids ['-'] (c :: r) := avoids_of_blank blank (by decide)
  rw [plain_tagStart?, word?_append nonempty]
  show (plain (word? "-" (c :: r))).or (some ((), c :: r)) = _
  rw [noTrim.word? (by decide)]
  rfl

theorem Fronts.tagEnd {closer : String} (h : Fronts closer s rest)
    (hc : closer ∈ ["%\x7d", "\x7d\x7d"]) : plain (tagEnd closer s) = .ok (false, rest) := by
  have words : ∀ w ∈ ["%\x7d", "\x7d\x7d"], w ≠ "" ∧
      w.toList.head?.all (fun c => !(['-'].contains c)) = true := by decide
  have noTrim : Avoids ['-'] (skipBlanks s) := h.avoids (words closer hc).1 (words closer hc).2
  rw [plain_tagEnd, noTrim.spaced? (by decide)]
  exact ok_bind (h.demandSpaced (words closer hc).1) rfl

/-- A statement tag with the keyword `keyword` at the front of `s`, and the rest after that. -/
structure TagWord (keyword : String) (s rest : List Char) : Prop where
  spelled : Spells [.word "\x7b%", .gap, .word keyword] s rest
  isName : isName keyword = true
  endsName : EndsName rest

namespace TagWord

variable {keyword : String}

theorem tagStart? (h : TagWord keyword s rest) :
    ∃ m, plain (tagStart? "\x7b%" s) = some ((), m) ∧ plain (name m) = .ok (keyword, rest) := by
  obtain ⟨m, rfl, r, gap, _, word, rfl⟩ := h.spelled
  refine ⟨m, tagStart?_append (by decide) gap, ?_⟩
  exact Fronts.name (fronts_of_name gap word h.isName) h.isName h.endsName

theorem statementKeyword? (h : TagWord keyword s rest) :
    plain (statementKeyword? s) = some (keyword, rest) := by
  obtain ⟨m, start, read⟩ := h.tagStart?
  rw [plain_statementKeyword?, start]
  show plain (name? m) = _
  rw [plain_name?, read]
  rfl

end TagWord

/-- At the front of `s` is no trim mark, no comment and no doc comment. -/
structure PlainFront (s : List Char) : Prop where
  trimsBefore : trimsBefore s = false
  docBlock? : ∀ trim, (docBlock? trim s).map plain = none

theorem plainFront_of_absent
    (absent : ∀ w ∈ ["\x7b\x7b-", "\x7b%-", "\x7b#-", "\x7b#", "/**"], plain (word? w s) = none) :
    PlainFront s := by
  have noTrim : ∀ w ∈ ["\x7b\x7b-", "\x7b%-", "\x7b#-"], startsWith w s = false := by
    intro w hw
    rw [startsWith, ← isSome_plain, absent w (List.mem_append_left ["\x7b#", "/**"] hw)]
    rfl
  constructor
  · simp [trimsBefore, noTrim]
  · intro trim
    have noComment : (comment? s).map plain = none := by
      rw [plain_comment?, plain_tagStart?, absent "\x7b#" (by simp)]
      rfl
    rw [plain_docBlock?, plain_docComment?, absent "/**" (by simp), noComment]
    rfl

theorem startsTag_of_gap {opener : String} (ho : opener ∈ ["\x7b\x7b", "\x7b%"])
    (gap : Piece.gap.Spelled m rest) :
    startsTag (opener.toList ++ m) = true ∧ PlainFront (opener.toList ++ m) := by
  have words : ∀ o ∈ ["\x7b\x7b", "\x7b%"],
      ∀ w ∈ ["\x7b\x7b-", "\x7b%-", "\x7b#-", "\x7b#", "/**"],
        (¬ w.toList <+: o.toList) ∧ isSolid w = true := by decide
  constructor
  · simp only [List.mem_cons, List.not_mem_nil, or_false] at ho
    rcases ho with rfl | rfl
    · rw [startsTag, startsWith_append (by decide)]
      rfl
    · rw [startsTag, startsWith_append (w := "\x7b%") (by decide)]
      simp
  · exact plainFront_of_absent fun w hw =>
      word?_before_gap (words opener ho w hw).1 (words opener ho w hw).2 gap

theorem TagWord.startsTag {keyword : String} (h : TagWord keyword s rest) :
    startsTag s = true ∧ PlainFront s := by
  obtain ⟨m, rfl, r, gap, -⟩ := h.spelled
  exact startsTag_of_gap (by decide) gap

/-! ### Text -/

/-- What may stand after text: nothing, or a tag. -/
def EndsText (rest : List Char) : Prop := rest = [] ∨ startsTag rest = true

theorem startsTag_cons {c : Char} {r : List Char} (h : startsTag (c :: r) = true) :
    ∃ d t, c = '\x7b' ∧ r = d :: t ∧ d ∈ ['\x7b', '%', '#'] := by
  simp only [startsTag, Bool.or_eq_true, startsWith_iff (show "\x7b\x7b" ≠ "" by decide),
    startsWith_iff (show "\x7b%" ≠ "" by decide), startsWith_iff (show "\x7b#" ≠ "" by decide)] at h
  rcases h with (⟨t, h⟩ | ⟨t, h⟩) | ⟨t, h⟩
  · exact ⟨'\x7b', t, (List.cons.inj h).1.symm, (List.cons.inj h).2.symm, by simp⟩
  · exact ⟨'%', t, (List.cons.inj h).1.symm, (List.cons.inj h).2.symm, by simp⟩
  · exact ⟨'#', t, (List.cons.inj h).1.symm, (List.cons.inj h).2.symm, by simp⟩

theorem startsTag_of_startsWith {opener : String} (ho : opener ∈ ["\x7b\x7b", "\x7b%", "\x7b#"])
    (h : startsWith opener s = true) : startsTag s = true := by
  simp only [List.mem_cons, List.not_mem_nil, or_false] at ho
  rcases ho with rfl | rfl | rfl <;> simp [startsTag, h]

theorem word?_of_not_startsTag (h : startsTag s = false) {opener w : String}
    (ho : opener ∈ ["\x7b\x7b", "\x7b%", "\x7b#"]) (hw : opener.toList <+: w.toList) :
    plain (word? w s) = none := by
  cases found : plain (word? w s) with
  | none => rfl
  | some p =>
    obtain ⟨-, split⟩ := plain_word?_eq_some.mp found
    have nonempty : ∀ o ∈ ["\x7b\x7b", "\x7b%", "\x7b#"], o ≠ "" := by decide
    have starts : startsWith opener s = true := by
      rw [startsWith_iff (nonempty opener ho), split]
      exact hw.trans (List.prefix_append _ _)
    rw [startsTag_of_startsWith ho starts] at h
    cases h

theorem tagStart?_of_not_startsTag (h : startsTag s = false) {opener : String}
    (ho : opener ∈ ["\x7b\x7b", "\x7b%", "\x7b#"]) : plain (tagStart? opener s) = none := by
  rw [plain_tagStart?, word?_of_not_startsTag h ho List.prefix_rfl]
  rfl

/-- No tag and no doc comment starts inside `t`, whatever tag comes after it. -/
structure CleanText (t : List Char) : Prop where
  clean : ∀ w ∈ ["\x7b\x7b", "\x7b%", "\x7b#", "/**"], ¬ w.toList <:+: t
  last : t.getLast? ≠ some '\x7b'

theorem CleanText.of_suffix {r t : List Char} (h : CleanText t) (end_ : r <:+ t) : CleanText r := by
  refine ⟨fun w hw inside => h.clean w hw (inside.trans end_.isInfix), fun last => h.last ?_⟩
  obtain ⟨front, rfl⟩ := end_
  rw [List.getLast?_append, last]
  rfl

theorem CleanText.tail {c : Char} {t : List Char} (h : CleanText (c :: t)) : CleanText t :=
  h.of_suffix (List.suffix_cons c t)

theorem CleanText.not_startsTag {c : Char} {t : List Char} (h : CleanText (c :: t))
    (rest : List Char) : startsTag (c :: t ++ rest) = false := by
  by_contra tag
  obtain ⟨d, u, rfl, hu, hd⟩ := startsTag_cons (by simpa using tag)
  cases t with
  | nil => exact h.last rfl
  | cons e t =>
    obtain ⟨rfl, -⟩ := List.cons.inj hu
    have inside : ['\x7b', e] <:+: '\x7b' :: e :: t := ⟨[], t, rfl⟩
    simp only [List.mem_cons, List.not_mem_nil, or_false] at hd
    rcases hd with rfl | rfl | rfl
    · exact h.clean "\x7b\x7b" (by simp) inside
    · exact h.clean "\x7b%" (by simp) inside
    · exact h.clean "\x7b#" (by simp) inside

theorem CleanText.not_docComment {c : Char} {t : List Char} (h : CleanText (c :: t))
    (ends : EndsText rest) : plain (word? "/**" (c :: t ++ rest)) = none := by
  cases found : plain (word? "/**" (c :: t ++ rest)) with
  | none => rfl
  | some p =>
    obtain ⟨-, split⟩ := plain_word?_eq_some.mp found
    have star : ∀ r, rest = '*' :: r → False := by
      rintro r rfl
      rcases ends with ends | ends
      · cases ends
      · obtain ⟨-, -, brace, -⟩ := startsTag_cons ends
        cases brace
    change c :: (t ++ rest) = '/' :: '*' :: '*' :: p.2 at split
    obtain ⟨rfl, split₁⟩ := List.cons.inj split
    rcases t with _ | ⟨d, _ | ⟨e, t⟩⟩
    · exact (star _ split₁).elim
    · exact (star _ (List.cons.inj split₁).2).elim
    · obtain ⟨rfl, split₂⟩ := List.cons.inj split₁
      obtain ⟨rfl, -⟩ := List.cons.inj split₂
      exact absurd ⟨[], t, rfl⟩ (h.clean "/**" (by simp))

theorem CleanText.isSome_docComment? {c : Char} {t : List Char} (h : CleanText (c :: t))
    (ends : EndsText rest) : (docComment? (c :: t ++ rest)).isSome = false := by
  rw [← isSome_plain, plain_docComment?, h.not_docComment ends]
  rfl

theorem CleanText.plainFront {c : Char} {t : List Char} (h : CleanText (c :: t))
    (ends : EndsText rest) : PlainFront (c :: t ++ rest) := by
  refine plainFront_of_absent fun w hw => ?_
  have words : ∀ w ∈ ["\x7b\x7b-", "\x7b%-", "\x7b#-", "\x7b#", "/**"], w = "/**" ∨
      ∃ o ∈ ["\x7b\x7b", "\x7b%", "\x7b#"], o.toList <+: w.toList := by decide
  rcases words w hw with rfl | ⟨o, ho, opens⟩
  · exact h.not_docComment ends
  · exact word?_of_not_startsTag (h.not_startsTag rest) ho opens

theorem textSpan_append {t : List Char} (h : CleanText t) (ends : EndsText rest) (top : Bool) :
    (textSpan top (t ++ rest)).value = t ∧ (textSpan top (t ++ rest)).rest = rest := by
  induction t with
  | nil =>
    rcases ends with rfl | tag
    · exact ⟨rfl, rfl⟩
    · obtain ⟨c, r, rfl⟩ : ∃ c r, rest = c :: r := by
        cases rest with
        | nil => cases tag
        | cons c r => exact ⟨c, r, rfl⟩
      rw [List.nil_append, textSpan, if_pos (by simp [tag])]
      exact ⟨rfl, rfl⟩
  | cons c t ih =>
    have noDoc := h.isSome_docComment? ends
    have noTag := h.not_startsTag rest
    rw [List.cons_append] at noTag noDoc ⊢
    obtain ⟨value, after⟩ := ih h.tail
    rw [textSpan, if_neg (by simp [noTag, noDoc])]
    simp only [Reading.loosen, Reading.cons, Reading.map]
    exact ⟨by rw [value], after⟩

/-! ### Heads of statements -/

def readDeclaration (s : List Char) : Except Failure (Node × List Char) := do
  let (n, r) ← plain (name s)
  let (value, r) ← plain (declarations.default r)
  return (.parameter (some n) value, r)

theorem readsList_declarations :
    ReadsList ")" readDeclaration (fun s => plain (declarations s)) := by
  intro s
  refine (plain_declarations s).trans ?_
  cases plain (spaced? ")" s) with
  | some p => rfl
  | none =>
    unfold readDeclaration
    rcases plain (name s) with f | ⟨n, r⟩
    · rfl
    · show (plain (declarations.default r) >>= _) = (plain (declarations.default r) >>= _) >>= _
      rcases plain (declarations.default r) with f | ⟨value, r⟩ <;> rfl

theorem fronts_of_pad_name {x : String} (hx : isName x = true) (pad : Piece.pad.Spelled s m)
    (word : m = x.toList ++ rest) : Fronts x s rest := by
  rw [Fronts, Piece.skipBlanks_of_pad pad, word, skipBlanks_name hx]

theorem IsDeclarations.readsBack {decls : List Node} (h : IsDeclarations .printable decls) :
    ∀ d ∈ decls, ReadsBack readDeclaration (argumentPieces d) d := by
  induction h with
  | nil => simp
  | @bare x _ hx _ ih =>
    refine List.forall_mem_cons.mpr ⟨?_, ih⟩
    rintro s rest ⟨m, pad, m₁, word, rfl⟩ ends
    have name := fronts_of_pad_name hx pad word
    refine ⟨name ▸ opens_of_isName hx m₁, m₁, rfl, ?_⟩
    have noDefault : plain (declarations.default m₁) = .ok (none, m₁) := by
      rw [plain_default, ends.noValue]
    exact ok_bind (name.name hx ends.endsName) (ok_bind noDefault rfl)
  | @defaulted x v _ hx hn _ ih =>
    refine List.forall_mem_cons.mpr ⟨?_, ih⟩
    rintro s rest ⟨m, pad, m₁, word, m₂, pad₁, m₃, equal, m₄, pad₂, spelled⟩ ends
    have name := fronts_of_pad_name hx pad word
    have value : Fronts "=" m₁ m₃ := fronts_of_pad rfl (by decide) ⟨m₂, pad₁, m₃, equal, rfl⟩
    have endsName : EndsName m₁ := by
      refine endsName_of_skipBlanks ?_
      rw [value]
      rintro c ⟨rfl⟩
      decide
    refine ⟨name ▸ opens_of_isName hx m₁, _, skipBlanks_skipBlanks rest, ?_⟩
    have read := condition_spelled hn spelled ends
    rw [← condition_congr (Piece.skipBlanks_of_pad pad₂)] at read
    have default : plain (declarations.default m₁) = .ok (some v, skipBlanks rest) := by
      rw [plain_default, value.spaced? (by decide)]
      exact ok_bind read rfl
    exact ok_bind (name.name hx endsName) (ok_bind default rfl)

theorem fronts_of_spells_gap {w : String} (hw : w ∈ ["%\x7d", "\x7d\x7d"])
    (h : Spells [.gap, .word w] s rest) : Fronts w s rest := by
  obtain ⟨m, gap, _, word, rfl⟩ := h
  have words : ∀ w ∈ ["%\x7d", "\x7d\x7d"], w ≠ "" ∧
      w.toList.head?.all (fun c => !isBlank c) = true := by decide
  exact fronts_of_gap gap word (words w hw).1 (words w hw).2

/-- A condition after a gap, up to the end of its tag. -/
theorem condition_of_spells {w : String} (hw : w ∈ ["%\x7d", "\x7d\x7d"]) {c : Node}
    {ps : List Piece} (hc : ReadsCondition ps c) (gap : Piece.gap.Spelled s m) {t : List Char}
    (h : Spells ps m t) (close : Spells [.gap, .word w] t rest) :
    plain (condition s) = .ok (c, skipBlanks t) ∧
      plain (tagEnd w (skipBlanks t)) = .ok (false, rest) := by
  have ends := fronts_of_spells_gap hw close
  have closes : ∀ w ∈ ["%\x7d", "\x7d\x7d"], w ∈ closers := by decide
  have read := hc h (endsCondition_of_closer (closes w hw) ends)
  rw [← condition_congr (Piece.skipBlanks_of_gap gap)] at read
  exact ⟨read, ends.afterBlanks.tagEnd hw⟩

theorem macroHead_spelled {x : String} {params : List Node} (hx : isName x = true)
    (hp : IsDeclarations .printable params)
    (h : Spells (.gap :: .word x :: bracketed "(" (argumentsPieces params) ")") s m)
    (close : Spells [.gap, .word "%\x7d"] m rest) :
    plain (macroHead s) = .ok ((x, params, false), rest) := by
  rw [argumentsPieces_eq_map] at h
  obtain ⟨m₁, gap, _, word, m₂, rfl, spelled⟩ := h
  have name : Fronts x s _ := fronts_of_name gap word hx
  have opener : Fronts "(" ("(".toList ++ m₂) m₂ := skipBlanks_word (by decide) (by decide) m₂
  have params := readsList_declarations.spelled (by decide) hp.readsBack spelled
  have ends := (fronts_of_spells_gap (by decide) close).tagEnd (by decide)
  rw [plain_macroHead]
  exact ok_bind (name.name hx (endsName_of_paren m₂)) (ok_bind (opener.demandSpaced (by decide))
    (ok_bind params (ok_bind ends rfl)))

theorem callHead_spelled {x : String} {args : List Node}
    (hx : ∃ root more, IsDottedNames x root more) (ha : IsArguments .printable args)
    (h : Spells (.gap :: .word x :: bracketed "(" (argumentsPieces args) ")") s m)
    (close : Spells [.gap, .word "%\x7d"] m rest) :
    plain (callHead s) = .ok ((x, args, false), rest) := by
  obtain ⟨root, more, dotted⟩ := hx
  rw [argumentsPieces_eq_map] at h
  obtain ⟨m₁, gap, _, word, m₂, rfl, spelled⟩ := h
  obtain ⟨r, split, segments⟩ := spells_of_isDottedNames dotted ("(".toList ++ m₂)
  have root : Fronts root s r := fronts_of_name gap (word.trans split) dotted.2.1
  have name : Fronts x s ("(".toList ++ m₂) := root.trans split.symm
  have noParameters : plain (callHead.blockParameters s) = .ok ((), s) := by
    have avoids : Avoids ['('] (skipBlanks s) := by
      obtain ⟨c, v, hv, start⟩ := exists_cons_of_isName dotted.2.1
      rw [root, hv]
      rintro d ⟨rfl⟩ mem
      rw [List.mem_singleton.mp mem] at start
      cases start
    rw [plain_blockParameters, avoids.spaced? (by decide)]
  have opener : Fronts "(" ("(".toList ++ m₂) m₂ := skipBlanks_word (by decide) (by decide) m₂
  have args := readsList_arguments.spelled (by decide) (arguments_spelled ha) spelled
  have ends := (fronts_of_spells_gap (by decide) close).tagEnd (by decide)
  rw [plain_callHead]
  exact ok_bind noParameters (ok_bind (dottedName_spelled dotted name (endsName_of_paren m₂)
    (avoids_of_paren m₂))
    (ok_bind (opener.demandSpaced (by decide)) (ok_bind args (ok_bind ends rfl))))

theorem loopNames_spelled {key : Option String} {item : String}
    (hk : ∀ k ∈ key, isName k = true) (hi : isName item = true)
    (h : Spells (.gap :: loopNamePieces key item) s rest) (ends : EndsName rest)
    (noComma : Avoids [','] (skipBlanks rest)) :
    plain (loopNames s) = .ok ((key, item), rest) := by
  rw [plain_loopNames]
  cases key with
  | none =>
    obtain ⟨m, gap, _, word, rfl⟩ := h
    have name : Fronts item s _ := fronts_of_name gap word hi
    refine ok_bind (name.name hi ends) ?_
    dsimp only
    rw [noComma.spaced? (by decide)]
    rfl
  | some k =>
    have hk := hk k rfl
    obtain ⟨m, gap, m₁, word, m₂, pad, m₃, comma, m₄, gap₂, _, word₂, rfl⟩ := h
    have name : Fronts k s m₁ := fronts_of_name gap word hk
    have front : Fronts "," m₁ m₃ := fronts_of_pad rfl (by decide) ⟨m₂, pad, m₃, comma, rfl⟩
    have endsKey : EndsName m₁ := by
      refine endsName_of_skipBlanks ?_
      rw [front]
      rintro c ⟨rfl⟩
      decide
    have name₂ : Fronts item m₃ _ := fronts_of_name gap₂ word₂ hi
    refine ok_bind (name.name hk endsKey) ?_
    dsimp only
    rw [front.spaced? (by decide)]
    exact ok_bind (name₂.name hi ends) rfl

theorem loopHead_spelled {key : Option String} {item : String} {source : Node}
    (hk : ∀ k ∈ key, isName k = true) (hi : isName item = true)
    (hs : IsCondition .printable source)
    (names : Spells (.gap :: loopNamePieces key item) s m)
    (h : Spells (.gap :: .word "in" :: .gap :: exprPieces source) m rest) {r : List Char}
    (close : Spells [.gap, .word "%\x7d"] rest r) :
    plain (loopHead s) = .ok (⟨key, item, source, false⟩, r) := by
  obtain ⟨m₁, gap, m₂, word, m₃, gap₂, spelled⟩ := h
  have front : Fronts "in" m m₂ := fronts_of_gap gap word (by decide) (by decide)
  have noComma : Avoids [','] (skipBlanks m) := front.avoids (by decide) (by decide)
  have keyword : plain (spacedKeyword? "in" m) = some ((), m₂) := by
    rw [plain_spacedKeyword?, front, keyword?_append (by decide) (endsName_of_gap gap₂)]
  obtain ⟨read, ends⟩ := condition_of_spells (by decide) (condition_spelled hs) gap₂ spelled close
  rw [plain_loopHead]
  refine ok_bind (loopNames_spelled hk hi names (endsName_of_gap gap) noComma) ?_
  dsimp only
  rw [keyword]
  exact ok_bind read (ok_bind ends rfl)

/-! ### The front of a statement -/

theorem spells_tag {inner : List Piece} (h : Spells (tag inner) s rest) :
    ∃ m r t, s = "\x7b%".toList ++ m ∧ Piece.gap.Spelled m r ∧ Spells inner r t ∧
      Spells [.gap, .word "%\x7d"] t rest := by
  obtain ⟨m, hs, r, gap, h⟩ := h
  obtain ⟨t, hi, close⟩ :=
    spells_append.mp (show Spells (inner ++ [.gap, .word "%\x7d"]) r rest from h)
  exact ⟨m, r, t, hs, gap, hi, close⟩

/-- A tag of which only the keyword is known so far. -/
theorem tagWord_of_spells {keyword : String} {inner : List Piece} (hk : isName keyword = true)
    (h : Spells (tag (.word keyword :: .gap :: inner)) s rest) : ∃ m r t, TagWord keyword s m ∧
      Piece.gap.Spelled m r ∧ Spells inner r t ∧ Spells [.gap, .word "%\x7d"] t rest := by
  obtain ⟨m, r, t, hs, gap, ⟨u, word, v, gap₂, hi⟩, close⟩ := spells_tag h
  exact ⟨u, v, t, ⟨⟨m, hs, r, gap, u, word, rfl⟩, hk, endsName_of_gap gap₂⟩, gap₂, hi, close⟩

/-- A tag that consists of its keyword. -/
theorem tagWord_of_keyword {keyword : String} (hk : isName keyword = true)
    (h : Spells (tag [.word keyword]) s rest) :
    ∃ m, TagWord keyword s m ∧ Spells [.gap, .word "%\x7d"] m rest := by
  obtain ⟨m, r, t, hs, gap, ⟨u, word, rfl⟩, close⟩ := spells_tag h
  have ends : EndsName u := by
    obtain ⟨_, gap₂, -⟩ := close
    exact endsName_of_gap gap₂
  exact ⟨u, ⟨⟨m, hs, r, gap, u, word, rfl⟩, hk, ends⟩, close⟩

/-- The element `n` is read from the front of `s`, and nothing there is taken for anything else. -/
structure ReadsElement (n : Node) (s rest : List Char) : Prop where
  front : PlainFront s
  keyword : ∀ p ∈ plain (statementKeyword? s), p.1 ∈ statementKeywords
  read : ∃ c r, s = c :: r ∧
    ∀ top, plain (element top none false c r) = .ok (⟨some n, false⟩, rest)

theorem readsElement_of_statement {keyword : String} {r : List Char} (h : TagWord keyword s r)
    (hk : keyword ∈ statementKeywords) (read : ∀ m, plain (name m) = .ok (keyword, r) →
      plain (statement none m) = .ok (⟨some n, false⟩, rest)) : ReadsElement n s rest := by
  obtain ⟨m, start, name⟩ := h.tagStart?
  refine ⟨h.startsTag.2, ?_, ?_⟩
  · rw [h.statementKeyword?]
    rintro p ⟨rfl⟩
    exact hk
  · obtain ⟨t, rfl, _, gap, -⟩ := h.spelled
    refine ⟨'\x7b', '%' :: t, rfl, fun top => ?_⟩
    have noOutput : plain (tagStart? "\x7b\x7b" ("\x7b%".toList ++ t)) = none := by
      rw [plain_tagStart?, word?_before_gap (by decide) (by decide) gap]
      rfl
    change plain (tagStart? _ ('\x7b' :: '%' :: t)) = none at noOutput
    change plain (tagStart? _ ('\x7b' :: '%' :: t)) = _ at start
    rw [plain_element, noOutput, start]
    exact read m name

theorem IsPrintableText.cleanText {v : String} (h : IsPrintableText v) : CleanText v.toList :=
  ⟨h.2.1, h.2.2⟩

theorem IsPrintableText.exists_cons {v : String} (h : IsPrintableText v) :
    ∃ c r, v.toList = c :: r :=
  List.exists_cons_of_ne_nil (mt String.toList_eq_nil_iff.mp h.1)

/-- Text that a tag or the end follows is one element. -/
theorem element_text {c : Char} {t : List Char} (clean : CleanText (c :: t)) (ends : EndsText rest)
    (top : Bool) (doc : Option String) (trim : Bool) :
    plain (element top doc trim c (t ++ rest)) = .ok (⟨some (.text (String.ofList
      (if trim then skipBlanks (c :: t) else c :: t))), false⟩, rest) := by
  have noTag := clean.not_startsTag rest
  rw [List.cons_append] at noTag
  obtain ⟨value, after⟩ := textSpan_append clean.tail ends top
  have node : (textFrom top trim c (t ++ rest)).value =
      .text (String.ofList (if trim then skipBlanks (c :: t) else c :: t)) := by
    dsimp only [textFrom, Reading.map, Reading.cons]
    rw [value]
  rw [plain_element, tagStart?_of_not_startsTag noTag (by simp),
    tagStart?_of_not_startsTag noTag (by simp), plain_comment?,
    tagStart?_of_not_startsTag noTag (by simp)]
  dsimp only
  rw [node, after]

theorem readsElement_text {v : String} (h : IsPrintableText v) (ends : EndsText rest) :
    ReadsElement (.text v) (v.toList ++ rest) rest := by
  obtain ⟨c, t, hv⟩ := h.exists_cons
  have clean := h.cleanText
  rw [hv] at clean ⊢
  have noStatement :=
    tagStart?_of_not_startsTag (clean.not_startsTag rest) (show "\x7b%" ∈ _ by simp)
  refine ⟨clean.plainFront ends, ?_, c, t ++ rest, rfl, fun top => ?_⟩
  · rw [plain_statementKeyword?, noStatement]
    rintro p ⟨⟩
  · rw [element_text clean ends, if_neg Bool.false_ne_true, ← hv, String.ofList_toList]

theorem readsElement_output {e : Node} {ps : List Piece} (he : ReadsCondition ps e)
    (output : outputOf e = n) (h : Spells (outputPieces ps) s rest) : ReadsElement n s rest := by
  obtain ⟨m, rfl, r, gap, h⟩ := h
  obtain ⟨t, spelled, close⟩ :=
    spells_append.mp (show Spells (ps ++ [.gap, .word "\x7d\x7d"]) r rest from h)
  obtain ⟨value, ends⟩ := condition_of_spells (by decide) he gap spelled close
  have front := (startsTag_of_gap (show "\x7b\x7b" ∈ _ by simp) gap).2
  refine ⟨front, ?_, '\x7b', '\x7b' :: m, rfl, fun top => ?_⟩
  · rw [plain_statementKeyword?, plain_tagStart?, word?_before_gap (by decide) (by decide) gap]
    rintro p ⟨⟩
  have start : plain (tagStart? "\x7b\x7b" ('\x7b' :: '\x7b' :: m)) = some ((), m) :=
    tagStart?_append (by decide) gap
  rw [plain_element, start]
  dsimp only
  rw [plain_outputTag, ← output]
  exact ok_bind value (ok_bind ends rfl)

/-! ### Statements with bodies -/

/-- The body `ns` is read back up to the tag that ends it. -/
def ReadsBody (ns : List Node) : Prop :=
  ∀ {ends : List String} {closer : String} {s m rest : List Char},
    (∀ k ∈ statementKeywords, k ∉ ends) → closer ∈ ends → Spells (bodyPieces ns) s m →
    TagWord closer m rest → plain (bodyFrom ends [] false s) = .ok (⟨ns, closer⟩, rest)

theorem ReadsBody.closed {ns : List Node} {ends : List String} {closer : String}
    (read : ReadsBody ns) (free : ∀ k ∈ statementKeywords, k ∉ ends) (hc : closer ∈ ends)
    (name : isName closer = true) (h : Spells (bodyPieces ns ++ tag [.word closer]) s rest) :
    ∃ m, plain (bodyFrom ends [] false s) = .ok (⟨ns, closer⟩, m) ∧
      plain (tagEnd "%\x7d" m) = .ok (false, rest) := by
  obtain ⟨m, body, close⟩ := spells_append.mp h
  obtain ⟨r, tagWord, close⟩ := tagWord_of_keyword name close
  exact ⟨r, read free hc body tagWord, (fronts_of_spells_gap (by decide) close).tagEnd (by decide)⟩

/-- A tag, a body and the tag that closes it. -/
theorem ReadsBody.block {ns : List Node} {ends : List String} {keyword closer : String}
    {inner : List Piece} (read : ReadsBody ns) (names : isName keyword = true ∧ isName closer = true)
    (free : ∀ k ∈ statementKeywords, k ∉ ends) (hc : closer ∈ ends)
    (h : Spells (tag (.word keyword :: .gap :: inner) ++ (bodyPieces ns ++ tag [.word closer])) s rest) :
    ∃ m r t b e, TagWord keyword s m ∧ Piece.gap.Spelled m r ∧ Spells inner r t ∧
      Spells [.gap, .word "%\x7d"] t b ∧ plain (bodyFrom ends [] false b) = .ok (⟨ns, closer⟩, e) ∧
      plain (tagEnd "%\x7d" e) = .ok (false, rest) := by
  obtain ⟨b, head, block⟩ := spells_append.mp h
  obtain ⟨m, r, t, tagWord, gap, spelled, close⟩ := tagWord_of_spells names.1 head
  obtain ⟨e, body, closing⟩ := read.closed free hc names.2 block
  exact ⟨m, r, t, b, e, tagWord, gap, spelled, close, body, closing⟩

theorem readsElement_set {x : String} {v : Node} (hx : isName x = true)
    (hv : IsCondition .printable v)
    (h : Spells (tag ([.word "set", .gap, .word x, .gap, .word "=", .gap] ++ exprPieces v)) s rest) :
    ReadsElement (.assign (.var [x]) v .set) s rest := by
  obtain ⟨m, r, t, tagWord, gap, ⟨m₁, word, m₂, gap₂, m₃, equal, m₄, gap₃, spelled⟩, close⟩ :=
    tagWord_of_spells (by decide) h
  have name : Fronts x m m₁ := fronts_of_name gap word hx
  have assign : Fronts "=" m₁ m₃ := fronts_of_gap gap₂ equal (by decide) (by decide)
  obtain ⟨value, ends⟩ := condition_of_spells (by decide) (condition_spelled hv) gap₃ spelled close
  have read : plain (setStatement m) = .ok (⟨.assign (.var [x]) v .set, false⟩, rest) := by
    rw [plain_setStatement]
    refine ok_bind (name.name hx (endsName_of_gap gap₂)) ?_
    dsimp only
    rw [assign.spaced? (by decide)]
    exact ok_bind value (ok_bind ends rfl)
  refine readsElement_of_statement tagWord (by decide) fun u keyword => ?_
  rw [plain_statement]
  exact ok_bind keyword (ok_bind read rfl)

theorem readsElement_blockSet {x : String} {body : List Node} (hx : isName x = true)
    (hb : ReadsBody body) (h : Spells (tag [.word "set", .gap, .word x] ++
      (bodyPieces body ++ tag [.word "endset"])) s rest) :
    ReadsElement (.assign (.var [x]) (.list body) .set) s rest := by
  have free : ∀ k ∈ statementKeywords, k ∉ ["endset"] := by decide
  obtain ⟨m, r, t, b, e, tagWord, gap, ⟨_, word, rfl⟩, close, inner, closing⟩ :=
    hb.block (by decide) free (by simp) h
  have name : Fronts x m _ := fronts_of_name gap word hx
  have ends := fronts_of_spells_gap (by decide) close
  have endsName : EndsName _ := (endsCondition_of_closer (by decide) ends).endsName
  have noValue : Avoids ['=', ','] (skipBlanks _) := ends.avoids (by decide) (by decide)
  have read : plain (setStatement m) = .ok (⟨.assign (.var [x]) (.list body) .set, false⟩, rest) := by
    rw [plain_setStatement]
    refine ok_bind (name.name hx endsName) ?_
    dsimp only
    rw [noValue.spaced? (by decide), noValue.startsWith (by decide)]
    exact ok_bind (ends.tagEnd (by decide)) (ok_bind inner (ok_bind closing rfl))
  refine readsElement_of_statement tagWord (by decide) fun u keyword => ?_
  rw [plain_statement]
  exact ok_bind keyword (ok_bind read rfl)

/-- The first tag of a branching. -/
theorem branch_head {c : Node} (hc : IsCondition .printable c)
    (h : Spells (tag ([.word "if", .gap] ++ exprPieces c)) s rest) :
    ∃ m t, TagWord "if" s m ∧ plain (condition m) = .ok (c, t) ∧ plain (tagEnd "%\x7d" t) =
      .ok (false, rest) := by
  obtain ⟨m, r, t, tagWord, gap, spelled, close⟩ := tagWord_of_spells (by decide) h
  obtain ⟨value, ends⟩ := condition_of_spells (by decide) (condition_spelled hc) gap spelled close
  exact ⟨m, _, tagWord, value, ends⟩

theorem readsElement_branch {c : Node} {yes no : List Node} (hc : IsCondition .printable c)
    (hyes : ReadsBody yes) (hno : ReadsBody no)
    (h : Spells (statementPieces (.branch c yes no)) s rest) :
    ReadsElement (.branch c yes no) s rest := by
  have free : ∀ k ∈ statementKeywords, k ∉ ["elif", "elseif", "else", "endif"] := by decide
  cases no with
  | nil =>
    rw [statementPieces] at h
    obtain ⟨b, head, block⟩ := spells_append.mp h
    obtain ⟨m, t, tagWord, value, ends⟩ := branch_head hc head
    obtain ⟨e, inner, closing⟩ := hyes.closed free (by simp) (by decide) block
    have read : plain (ifStatement m) = .ok (⟨.branch c yes [], false⟩, rest) := by
      rw [plain_ifStatement]
      exact ok_bind value (ok_bind ends (ok_bind inner (ok_bind closing rfl)))
    refine readsElement_of_statement tagWord (by decide) fun u keyword => ?_
    rw [plain_statement]
    exact ok_bind keyword (ok_bind read rfl)
  | cons n no =>
    rw [statementPieces] at h
    · obtain ⟨b, head, block⟩ := spells_append.mp h
      obtain ⟨m, t, tagWord, value, ends⟩ := branch_head hc head
      obtain ⟨e, first, block⟩ := spells_append.mp block
      obtain ⟨m₁, other, block⟩ := spells_append.mp block
      obtain ⟨r, elseWord, close⟩ := tagWord_of_keyword (by decide) other
      have elseEnds := fronts_of_spells_gap (by decide) close
      have avoids : Avoids ['i'] (skipBlanks r) := elseEnds.avoids (by decide) (by decide)
      have noIf : plain (spacedKeyword? "if" r) = none := by
        rw [plain_spacedKeyword?, avoids.keyword? (by decide)]
      have inner := hyes free (by simp) first elseWord
      have free₂ : ∀ k ∈ statementKeywords, k ∉ ["endif"] := by decide
      obtain ⟨m₂, second, closing⟩ := hno.closed free₂ (by simp) (by decide) block
      have read : plain (ifStatement m) = .ok (⟨.branch c yes (n :: no), false⟩, rest) := by
        rw [plain_ifStatement]
        refine ok_bind value (ok_bind ends (ok_bind inner ?_))
        dsimp only
        rw [noIf]
        exact ok_bind (elseEnds.tagEnd (by decide)) (ok_bind second (ok_bind closing rfl))
      refine readsElement_of_statement tagWord (by decide) fun u keyword => ?_
      rw [plain_statement]
      exact ok_bind keyword (ok_bind read rfl)
    · simp

theorem readsElement_loop {key : Option String} {item : String} {source : Node} {body : List Node}
    (hk : ∀ k ∈ key, isName k = true) (hi : isName item = true)
    (hs : IsCondition .printable source) (hb : ReadsBody body)
    (h : Spells (statementPieces (.loop key item source body)) s rest) :
    ReadsElement (.loop key item source body) s rest := by
  have free : ∀ k ∈ statementKeywords, k ∉ ["else", "endfor"] := by decide
  rw [statementPieces] at h
  obtain ⟨m, r, t, b, e, tagWord, gap, spelled, close, inner, closing⟩ :=
    hb.block (by decide) free (by simp) h
  obtain ⟨m₁, names, iterated⟩ :=
    spells_append.mp (show Spells (loopNamePieces key item ++ _) r t from spelled)
  have head := loopHead_spelled hk hi hs ⟨r, gap, names⟩ iterated close
  have read : plain (forStatement m) = .ok (⟨.loop key item source body, false⟩, rest) := by
    rw [plain_forStatement]
    exact ok_bind head (ok_bind inner (ok_bind closing rfl))
  refine readsElement_of_statement tagWord (by decide) fun u keyword => ?_
  rw [plain_statement]
  exact ok_bind keyword (ok_bind read rfl)

theorem readsElement_call {x : String} {args body : List Node}
    (hx : ∃ root more, IsDottedNames x root more) (ha : IsArguments .printable args)
    (hb : ReadsBody body) (h : Spells (statementPieces (.call x (.parameters args) body)) s rest) :
    ReadsElement (.call x (.parameters args) body) s rest := by
  have free : ∀ k ∈ statementKeywords, k ∉ ["endcall"] := by decide
  rw [statementPieces] at h
  obtain ⟨m, r, t, b, e, tagWord, gap, spelled, close, inner, closing⟩ :=
    hb.block (by decide) free (by simp) h
  have head := callHead_spelled hx ha ⟨r, gap, spelled⟩ close
  refine readsElement_of_statement tagWord (by decide) fun u keyword => ?_
  rw [plain_statement]
  exact ok_bind keyword (ok_bind head (ok_bind inner (ok_bind closing rfl)))

theorem readsElement_macroDef {x : String} {params body : List Node} (hx : isName x = true)
    (hp : IsDeclarations .printable params) (hb : ReadsBody body)
    (h : Spells (statementPieces (.macroDef x (.parameters params) body none)) s rest) :
    ReadsElement (.macroDef x (.parameters params) body none) s rest := by
  have free : ∀ k ∈ statementKeywords, k ∉ ["endmacro"] := by decide
  rw [statementPieces] at h
  obtain ⟨m, r, t, b, e, tagWord, gap, spelled, close, inner, closing⟩ :=
    hb.block (by decide) free (by simp) h
  have head := macroHead_spelled hx hp ⟨r, gap, spelled⟩ close
  refine readsElement_of_statement tagWord (by decide) fun u keyword => ?_
  rw [plain_statement]
  exact ok_bind keyword (ok_bind head (ok_bind inner (ok_bind closing rfl)))

/-! ### Bodies -/

/-- The element `n` is read back wherever it is written. -/
def Readable (n : Node) : Prop :=
  ∀ {s rest : List Char}, Spells (statementPieces n) s rest → (isText n = true → EndsText rest) →
    ReadsElement n s rest

theorem statementPieces_set {x : String} {v : Node} (h : IsCondition .printable v) :
    statementPieces (.assign (.var [x]) v .set) =
      tag ([.word "set", .gap, .word x, .gap, .word "=", .gap] ++ exprPieces v) := by
  have notList : ∀ body, v ≠ .list body := by
    rintro body rfl
    match h with
    | .expression (.operand (.term (.primary (.literal literal)))) => cases literal
  rw [statementPieces]
  exact notList

theorem exists_opener_of_isStatement (h : IsStatement .printable n) (other : isText n = false) :
    ∃ opener ∈ ["\x7b\x7b", "\x7b%"], ∃ ps, statementPieces n = .word opener :: .gap :: ps := by
  cases h with
  | text => cases other
  | output => exact ⟨"\x7b\x7b", by simp, _, rfl⟩
  | yield => exact ⟨"\x7b\x7b", by simp, _, rfl⟩
  | set _ hv => exact ⟨"\x7b%", by simp, _, statementPieces_set hv⟩
  | blockSet => exact ⟨"\x7b%", by simp, _, rfl⟩
  | @branch _ _ no =>
    refine ⟨"\x7b%", by simp, ?_⟩
    cases no with
    | nil => exact ⟨_, rfl⟩
    | cons n no => exact ⟨_, rfl⟩
  | loop => exact ⟨"\x7b%", by simp, _, rfl⟩
  | call => exact ⟨"\x7b%", by simp, _, rfl⟩
  | macroDef => exact ⟨"\x7b%", by simp, _, rfl⟩

theorem startsTag_of_spells (h : IsStatement .printable n) (other : isText n = false)
    (spelled : Spells (statementPieces n) s rest) : startsTag s = true := by
  obtain ⟨opener, ho, ps, hp⟩ := exists_opener_of_isStatement h other
  rw [hp] at spelled
  obtain ⟨m, rfl, r, gap, -⟩ := spelled
  exact (startsTag_of_gap ho gap).1

/-- Text is followed by something that is not text, or by what ends the body. -/
theorem endsText_of_spells {n : Node} {ns : List Node} (h : IsBody .printable (n :: ns))
    (spelled : Spells (bodyPieces ns) s rest) (ends : EndsText rest) (text : isText n = true) :
    EndsText s := by
  cases h with
  | cons _ apart hns =>
    cases hns with
    | nil =>
      obtain rfl : s = rest := spelled
      exact ends
    | @cons n' _ hn' _ _ =>
      have other : isText n' = false := by
        have := apart n' rfl
        rwa [Apart, text, Bool.true_and] at this
      obtain ⟨m, first, -⟩ := spells_append.mp spelled
      exact .inr (startsTag_of_spells hn' other first)

theorem pushAll_apart {done : List Node} (h : IsStatement .printable n)
    (apart : ∀ d ∈ done.head?, Apart d n) : pushAll done [n] = n :: done := by
  show push done n = n :: done
  cases h with
  | @text v hv =>
    have nonempty : v.isEmpty = false := by
      simpa [String.isEmpty_eq_false_iff] using hv.1
    cases done with
    | nil => simp [push, nonempty]
    | cons d done =>
      have other : isText d = false := by
        have := apart d rfl
        rwa [Apart, show isText (.text v) = true from rfl, Bool.and_true] at this
      cases d with
      | text => cases other
      | _ => simp [push, nonempty]
  | _ => rfl

theorem bodyFrom_spelled {ns : List Node} (h : IsBody .printable ns) (readable : ∀ n ∈ ns, Readable n)
    {ends : List String} {closer : String} {done : List Node}
    (free : ∀ k ∈ statementKeywords, k ∉ ends) (hc : closer ∈ ends)
    (spelled : Spells (bodyPieces ns) s m) (close : TagWord closer m rest)
    (apart : ∀ n ∈ ns.head?, ∀ d ∈ done.head?, Apart d n) :
    plain (bodyFrom ends done false s) = .ok (⟨done.reverse ++ ns, closer⟩, rest) := by
  induction ns generalizing done s with
  | nil =>
    obtain rfl : s = m := spelled
    have ended : plain (endTag? ends s) = some (closer, rest) := by
      rw [plain_endTag?, close.statementKeyword?]
      simp [Option.filter, hc]
    cases s with
    | nil => cases close.startsTag.1
    | cons c r =>
      rw [plain_bodyFrom_cons, ended, close.startsTag.2.trimsBefore, List.append_nil]
      rfl
  | cons n ns ih =>
    obtain ⟨t, first, others⟩ := spells_append.mp spelled
    have tagged : EndsText m := .inr close.startsTag.1
    have element := readable n (by simp) first (endsText_of_spells h others tagged)
    obtain ⟨c, r, rfl, read⟩ := element.read
    have noEnd : plain (endTag? ends (c :: r)) = none := by
      rw [plain_endTag?, Option.filter_eq_none_iff]
      intro p hp mem
      exact free p.1 (element.keyword p hp) (by simpa using mem)
    cases h with
    | cons hn next hns =>
      rw [plain_bodyFrom_cons, noEnd, element.front.trimsBefore]
      refine ok_bind (read false) ?_
      dsimp only [Option.toList_some]
      rw [if_neg Bool.false_ne_true, pushAll_apart hn (apart n rfl),
        ih hns (fun n' hn' => readable n' (List.mem_cons_of_mem n hn')) others]
      · simp
      · intro n' hn' d hd
        cases hd
        exact next n' hn'

theorem readsBody_of_readable {ns : List Node} (h : IsBody .printable ns)
    (readable : ∀ n ∈ ns, Readable n) : ReadsBody ns := by
  intro ends closer s m rest free hc spelled close
  exact bodyFrom_spelled h readable free hc spelled close (by simp)

theorem outputOf_of_ne (h : n ≠ .yield) : outputOf n = .output [n] := by
  unfold outputOf
  split
  · exact absurd rfl h
  · rfl

mutual

theorem readable_of_isStatement : {n : Node} → IsStatement .printable n → Readable n
  | _, .text hv, _, _, spelled, ends => by
    obtain ⟨_, rfl, rfl⟩ := spelled
    exact readsElement_text hv (ends rfl)
  | _, .output hn other, _, _, spelled, _ =>
    readsElement_output (condition_spelled hn) (outputOf_of_ne other) spelled
  | _, .yield, _, _, spelled, _ =>
    readsElement_output (condition_spelled (.expression (.operand (.term (.primary (.yield trivial))))))
      rfl spelled
  | _, .set hx hv, _, _, spelled, _ =>
    readsElement_set hx hv (statementPieces_set hv ▸ spelled)
  | _, .blockSet hx hb, _, _, spelled, _ =>
    readsElement_blockSet hx (readsBody_of_readable hb (readable_of_isBody hb)) spelled
  | _, .branch hc hyes hno, _, _, spelled, _ =>
    readsElement_branch hc (readsBody_of_readable hyes (readable_of_isBody hyes))
      (readsBody_of_readable hno (readable_of_isBody hno)) spelled
  | _, .loop hk hi hs hb, _, _, spelled, _ =>
    readsElement_loop hk hi hs (readsBody_of_readable hb (readable_of_isBody hb)) spelled
  | _, .call hx ha hb, _, _, spelled, _ =>
    readsElement_call hx ha (readsBody_of_readable hb (readable_of_isBody hb)) spelled
  | _, .macroDef hx hp hb, _, _, spelled, _ =>
    readsElement_macroDef hx hp (readsBody_of_readable hb (readable_of_isBody hb)) spelled

theorem readable_of_isBody : {ns : List Node} → IsBody .printable ns → ∀ n ∈ ns, Readable n
  | _, .nil => by simp
  | _, .cons hn _ hns =>
    List.forall_mem_cons.mpr ⟨readable_of_isStatement hn, readable_of_isBody hns⟩

end

/-! ### Templates -/

theorem pushRun_nil (done : List Node) : pushRun done [] = done := by
  cases done with
  | nil => rfl
  | cons d done => cases d <;> rfl

theorem elementsFrom_push (done : List Node) (element : ReadsElement n s rest) :
    elementsFrom done [] none false s = elementsFrom (push done n) [] none false rest := by
  obtain ⟨c, r, rfl, read⟩ := element.read
  rw [elementsFrom_cons, element.front.docBlock?, element.front.trimsBefore]
  refine ok_bind (read true) ?_
  dsimp only [Option.toList_some]
  rw [if_neg Bool.false_ne_true]
  rfl

theorem elementsFrom_element {done : List Node} (element : ReadsElement n s rest)
    (pushed : pushAll done [n] = n :: done) :
    elementsFrom done [] none false s = elementsFrom (n :: done) [] none false rest :=
  (elementsFrom_push done element).trans (congrArg (elementsFrom · [] none false rest) pushed)

theorem elementsFrom_spelled {ns : List Node} (h : IsBody .printable ns) {done : List Node}
    (spelled : Spells (bodyPieces ns) s []) (apart : ∀ n ∈ ns.head?, ∀ d ∈ done.head?, Apart d n) :
    elementsFrom done [] none false s = .ok (done.reverse ++ ns) := by
  induction ns generalizing done s with
  | nil =>
    obtain rfl : s = [] := spelled
    rw [elementsFrom_nil, pushRun_nil, List.append_nil]
  | cons n ns ih =>
    obtain ⟨t, first, others⟩ := spells_append.mp spelled
    have element := readable_of_isBody h n (by simp) first
      (endsText_of_spells h others (.inl rfl))
    cases h with
    | cons hn next hns =>
      rw [elementsFrom_element element (pushAll_apart hn (apart n rfl)), ih hns others]
      · simp
      · intro n' hn' d hd
        cases hd
        exact next n' hn'

/-- The tree of the template with the elements `ns`: a macro with only blanks around it stands for
itself. -/
inductive IsTreeOf (ns : List Node) : Node → Prop
  | macroDef {x : String} {params : Node} {body : List Node} {doc : Option String} :
      ns.filter (!·.isBlankText) = [.macroDef x params body doc] →
      IsTreeOf ns (.macroDef x params body doc)
  | list : (∀ x params body doc, ns.filter (!·.isBlankText) ≠ [.macroDef x params body doc]) →
      IsTreeOf ns (.list ns)

theorem ofElements_isTreeOf (ns : List Node) : IsTreeOf ns (ofElements ns) := by
  unfold ofElements
  split
  · rename_i lone
    exact .macroDef lone
  · rename_i other
    exact .list other

/-- A printed body is read as its tree. -/
theorem parse_printed {ns : List Node} (h : IsBody .printable ns) :
    parse (print ns) = .ok (ofElements ns) := by
  have printed := spells_render (bodyPieces ns) []
  rw [List.append_nil] at printed
  rw [parse_eq, print, String.toList_ofList, elementsFrom_spelled h printed (by simp)]
  rfl

/-- However a body is spelled, its tree is what is read; in particular from its printed form. -/
theorem parse_print {ns : List Node} (h : IsBody .printable ns) :
    ∃ t, IsTreeOf ns t ∧ parse (print ns) = .ok t ∧
      ∀ source : String, Spells (bodyPieces ns) source.toList [] → parse source = .ok t := by
  have all : ∀ source : String, Spells (bodyPieces ns) source.toList [] →
      parse source = .ok (ofElements ns) := by
    intro source spelled
    rw [parse_eq, elementsFrom_spelled h spelled (by simp)]
    rfl
  have printed := spells_render (bodyPieces ns) []
  rw [List.append_nil] at printed
  refine ⟨ofElements ns, ofElements_isTreeOf ns, all _ ?_, all⟩
  rwa [print, String.toList_ofList]

/-- A minus sign before a negative number, a path with a blank in it and a quote inside quotes. -/
theorem parse_print_signs_and_quotes :
    let ns : List Node := [.branch
      (.condition [.expression [.var ["x"], .operator "-", .int (-1)], .connective "and",
        .expression [.operator "not", .var ["y", "k k"]]])
      [.text "- "] [.call "a.b" (.parameters [.named "k" (.string "it's")]) [.yield]]]
    print ns = "\x7b% if x - -1 and not y['k k'] %\x7d- \x7b% else %\x7d" ++
        "\x7b% call a.b(k='it\\'s') %\x7d\x7b\x7b caller() \x7d\x7d\x7b% endcall %\x7d\x7b% endif %\x7d" ∧
      IsBody .printable ns ∧ parse (print ns) = .ok (.list ns) := by
  intro ns
  have var : ∀ root more, isName root = true → root ∉ reserved →
      IsTerm .printable (.var (root :: more)) :=
    fun root more name free => .primary (.var ⟨root, more, rfl, name, free⟩)
  have literal : ∀ n, IsPrintableLiteral n → IsTerm .printable n := fun n h => .primary (.literal h)
  have difference : IsExpression .printable (.expression [.var ["x"], .operator "-", .int (-1)]) :=
    .chain (.term (var "x" [] (by decide) (by decide)))
      (.cons (by decide) (.term (literal _ (.int (by decide) (by decide)))) .nil) (by simp)
  have negation : IsExpression .printable (.expression [.operator "not", .var ["y", "k k"]]) :=
    .operand (.negated (.term (var "y" ["k k"] (by decide) (by decide))))
  have call : IsStatement .printable
      (.call "a.b" (.parameters [.named "k" (.string "it's")]) [.yield]) :=
    .call ⟨"a", ["b"], by decide, by decide, by decide⟩
      (.named (by decide) (.expression (.operand (.term (literal _ (.string "it's"))))) .nil)
      (.cons .yield (by simp) .nil)
  have text : IsStatement .printable (.text "- ") := .text ⟨by decide, by decide, by decide⟩
  have printable : IsBody .printable ns :=
    .cons (.branch (.chain difference (.cons (.inl rfl) negation .nil) (by simp))
      (.cons text (by simp) .nil) (.cons call (by simp) .nil)) (by simp) .nil
  refine ⟨by decide +kernel, printable, ?_⟩
  obtain ⟨t, tree, read, -⟩ := parse_print printable
  cases tree with
  | macroDef lone => cases lone
  | list => exact read

end TagCompiler.Grammar
