import TagCompiler.Proofs.FollowedExpressions
import TagCompiler.Proofs.StatementReads
/-!
# Statements that a tag follows

A reader of a statement or of a body that succeeds gives the same value when a statement tag comes
after its input. A text is the exception: a brace at its end would make a tag with the brace after
it, so the input must not end in one.
-/

namespace TagCompiler.Template

open Text

/-- The text does not end in an opening brace. -/
def Shut (s : List Char) : Prop := s.getLast? ≠ some '\x7b'

theorem Shut.of_suffix {r s : List Char} (h : Shut s) (end_ : r <:+ s) : Shut r := by
  obtain ⟨before, rfl⟩ := end_
  intro last
  refine h ?_
  rw [List.getLast?_append, last]
  rfl

/-- What a reader of a shut text leaves is shut. -/
theorem Shut.of_reads {α : Type} {s r : List Char} {P : α → Prop} {v : α}
    {x : Except Failure (α × List Char)} (h : Shut s) (reads : Reads s P x) (ok : x = .ok (v, r)) :
    Shut r := by
  subst ok
  exact h.of_suffix reads.1

variable {t : List Char}

/-! ### Heads of statements -/

section
variable (brace : StartsWithBrace t)
include brace

theorem default_followed (s : List Char) : Extends t (plain (declarations.default s))
    (plain (declarations.default (s ++ t))) := by
  rw [plain_default, plain_default, spaced?_followed brace.stops (by decide)]
  rcases plain (spaced? "=" s) with _ | ⟨_, r⟩
  · exact .ok _ s
  · exact (condition_followed brace r).bind fun e r _ => .ok _ r

theorem declarations_followed (s : List Char) :
    Extends t (plain (declarations s)) (plain (declarations (s ++ t))) := by
  induction hn : s.length using Nat.strongRecOn generalizing s with
  | ind n ih =>
    rw [plain_declarations, plain_declarations, spaced?_followed brace.stops (by decide)]
    rcases plain (spaced? ")" s) with _ | ⟨_, r⟩
    · refine (name_followed brace s).bind fun n r h => ?_
      have := length_of_plain h
      refine (default_followed brace r).bind fun value r h => ?_
      have := length_of_plain h
      dsimp only
      rw [spaced?_followed brace.stops (by decide)]
      rcases found : plain (spaced? "," r) with _ | ⟨_, r⟩
      · exact (demandSpaced_followed brace (by decide) r).bind fun _ r _ => .ok _ r
      · have := length_of_plain_some found
        exact (ih _ (by omega) r rfl).bind fun more r _ => .ok _ r
    · exact .ok _ r

theorem macroHead_followed (s : List Char) :
    Extends t (plain (macroHead s)) (plain (macroHead (s ++ t))) := by
  rw [plain_macroHead, plain_macroHead]
  refine (name_followed brace s).bind fun n r _ => ?_
  refine (demandSpaced_followed brace (by decide) r).bind fun _ r _ => ?_
  refine (declarations_followed brace r).bind fun ps r _ => ?_
  exact (tagEnd_followed brace (by decide) r).bind fun trim r _ => .ok _ r

theorem blockParameters_followed (s : List Char) : Extends t (plain (callHead.blockParameters s))
    (plain (callHead.blockParameters (s ++ t))) := by
  rw [plain_blockParameters, plain_blockParameters, spaced?_followed brace.stops (by decide)]
  rcases plain (spaced? "(" s) with _ | ⟨_, r⟩
  · exact .ok _ s
  · exact (declarations_followed brace r).bind fun _ r _ => .ok _ r

theorem callHead_followed (s : List Char) :
    Extends t (plain (callHead s)) (plain (callHead (s ++ t))) := by
  rw [plain_callHead, plain_callHead]
  refine (blockParameters_followed brace s).bind fun _ r _ => ?_
  refine (dottedName_followed brace r).bind fun n r _ => ?_
  refine (demandSpaced_followed brace (by decide) r).bind fun _ r _ => ?_
  refine (arguments_followed brace r).bind fun args r _ => ?_
  exact (tagEnd_followed brace (by decide) r).bind fun trim r _ => .ok _ r

theorem loopNames_followed (s : List Char) :
    Extends t (plain (loopNames s)) (plain (loopNames (s ++ t))) := by
  rw [plain_loopNames, plain_loopNames]
  refine (name_followed brace s).bind fun first r _ => ?_
  dsimp only
  rw [spaced?_followed brace.stops (by decide)]
  rcases plain (spaced? "," r) with _ | ⟨_, u⟩
  · exact .ok _ r
  · exact (name_followed brace u).bind fun second r _ => .ok _ r

theorem loopHead_followed (s : List Char) :
    Extends t (plain (loopHead s)) (plain (loopHead (s ++ t))) := by
  rw [plain_loopHead, plain_loopHead]
  refine (loopNames_followed brace s).bind fun names r _ => ?_
  dsimp only
  rw [spacedKeyword?_followed brace.stops (by decide)]
  rcases plain (spacedKeyword? "in" r) with _ | ⟨_, r⟩
  · exact .error _
  · refine (condition_followed brace r).bind fun e r _ => ?_
    exact (tagEnd_followed brace (by decide) r).bind fun trim r _ => .ok _ r

theorem outputTag_followed (s : List Char) :
    Extends t (plain (outputTag s)) (plain (outputTag (s ++ t))) := by
  rw [plain_outputTag, plain_outputTag]
  refine (condition_followed brace s).bind fun e r _ => ?_
  exact (tagEnd_followed brace (by decide) r).bind fun trim r _ => .ok _ r

/-! ### Tags and comments -/

omit brace in
/-- The words at the front of a tag. -/
def tagWords : List String := ["\x7b\x7b", "\x7b%", "\x7b#", "\x7b\x7b-", "\x7b%-", "\x7b#-"]

omit brace in
/-- Where a word at the front of a tag goes on with a brace, it starts or has another brace. -/
theorem getLast?_of_mem_tagWords {w : String} (hw : w ∈ tagWords) {s b : List Char}
    (nonempty : s ≠ []) (h : w.toList = s ++ '\x7b' :: b) : s.getLast? = some '\x7b' := by
  have short : ∀ w ∈ tagWords, w.toList.length ≤ 3 := by decide
  have braces : ∀ w ∈ tagWords, ∀ i ∈ [1, 2], (w.toList.drop i).head? = some '\x7b' →
      (w.toList.take i).getLast? = some '\x7b' := by decide
  have size := short w hw
  rw [h, List.length_append, List.length_cons] at size
  have place : s.length ∈ [1, 2] := by
    have := List.length_pos_iff.mpr nonempty
    simp only [List.mem_cons, List.not_mem_nil, or_false]
    omega
  have last := braces w hw s.length place
  rw [h, List.drop_left, List.take_left] at last
  exact last rfl

theorem tagWord_followed {w : String} (hw : w ∈ tagWords) {s : List Char} (nonempty : s ≠ [])
    (shut : Shut s) : plain (word? w (s ++ t)) = (plain (word? w s)).map (followed t) :=
  word?_followed_of_apart fun c hc b h => by
    rw [Option.mem_def, brace] at hc
    cases hc
    exact shut (getLast?_of_mem_tagWords hw nonempty h)

theorem startsWith_tagWord_followed {w : String} (hw : w ∈ tagWords) {s : List Char}
    (nonempty : s ≠ []) (shut : Shut s) : startsWith w (s ++ t) = startsWith w s := by
  rw [startsWith_eq_isSome, startsWith_eq_isSome, tagWord_followed brace hw nonempty shut,
    Option.isSome_map]

theorem trimsBefore_followed {s : List Char} (nonempty : s ≠ []) (shut : Shut s) :
    trimsBefore (s ++ t) = trimsBefore s := by
  have same : ∀ w ∈ tagWords, startsWith w (s ++ t) = startsWith w s :=
    fun _ hw => startsWith_tagWord_followed brace hw nonempty shut
  rw [trimsBefore, trimsBefore, same _ (by decide), same _ (by decide), same _ (by decide)]

theorem startsTag_followed {s : List Char} (nonempty : s ≠ []) (shut : Shut s) :
    startsTag (s ++ t) = startsTag s := by
  have same : ∀ w ∈ tagWords, startsWith w (s ++ t) = startsWith w s :=
    fun _ hw => startsWith_tagWord_followed brace hw nonempty shut
  rw [startsTag, startsTag, same _ (by decide), same _ (by decide), same _ (by decide)]

theorem tagStart?_followed {opener : String} (ho : opener ∈ tagWords) {s : List Char}
    (nonempty : s ≠ []) (shut : Shut s) :
    plain (tagStart? opener (s ++ t)) = (plain (tagStart? opener s)).map (followed t) := by
  rw [plain_tagStart?, plain_tagStart?, tagWord_followed brace ho nonempty shut]
  rcases plain (word? opener s) with _ | ⟨_, r⟩
  · rfl
  · show (plain (word? "-" (r ++ t))).or (some ((), r ++ t)) =
      ((plain (word? "-" r)).or (some ((), r))).map (followed t)
    rw [dash_followed brace]
    cases plain (word? "-" r) <;> rfl

theorem statementKeyword?_followed {s : List Char} (nonempty : s ≠ []) (shut : Shut s) :
    plain (statementKeyword? (s ++ t)) = (plain (statementKeyword? s)).map (followed t) := by
  rw [plain_statementKeyword?, plain_statementKeyword?,
    tagStart?_followed brace (by decide) nonempty shut]
  rcases plain (tagStart? "\x7b%" s) with _ | ⟨_, r⟩
  · rfl
  · exact name?_followed brace.stops r

theorem endTag?_followed (ends : List String) {s : List Char} (nonempty : s ≠ []) (shut : Shut s) :
    plain (endTag? ends (s ++ t)) = (plain (endTag? ends s)).map (followed t) := by
  rw [plain_endTag?, plain_endTag?, statementKeyword?_followed brace nonempty shut,
    Option.filter_map]
  rfl

omit brace in
/-- What is found in a text is found in all texts that go on with it. -/
theorem upTo?_followed (t : List Char) {w s v r : List Char} (h : plain (upTo? w s) = some (v, r)) :
    plain (upTo? w (s ++ t)) = some (v, r ++ t) := by
  have found : ∀ {s r : List Char}, s = w ++ r →
      plain (after? w (s ++ t)) = some ((), r ++ t) := by
    rintro s r rfl
    rw [plain_after?_eq_some, List.append_assoc]
  induction s generalizing v with
  | nil =>
    obtain ⟨p, here, h⟩ := Option.map_eq_some_iff.mp ((plain_upTo?_nil w).symm.trans h)
    cases h
    have found := found (plain_after?_eq_some.mp here)
    cases t with
    | nil => rw [List.nil_append, plain_upTo?_nil, ← List.nil_append [], found]; rfl
    | cons d t => rw [List.nil_append, plain_upTo?_cons, ← List.nil_append (d :: t), found]; rfl
  | cons c s ih =>
    rw [plain_upTo?_cons] at h
    rw [List.cons_append, plain_upTo?_cons, ← List.cons_append]
    rcases here : plain (after? w (c :: s)) with _ | ⟨_, u⟩
    · rw [here] at h
      obtain ⟨p, later, h⟩ := Option.map_eq_some_iff.mp h
      cases h
      -- The word stands further on, so it is too short to reach from here to the end.
      have short : w.length ≤ (c :: s).length := by
        rw [eq_of_upTo? later]
        simp only [List.length_cons, List.length_append]
        omega
      have absent : plain (after? w (c :: s ++ t)) = none := by
        rcases reached : plain (after? w (c :: s ++ t)) with _ | ⟨_, u⟩
        · rfl
        · have reaches : w <+: c :: s ++ t := ⟨u, (plain_after?_eq_some.mp reached).symm⟩
          obtain ⟨x, front⟩ :=
            List.prefix_of_prefix_length_le reaches (List.prefix_append (c :: s) t) short
          rw [(plain_after?_eq_some (u := ())).mpr front.symm] at here
          cases here
      rw [absent, ih later]
      rfl
    · rw [here] at h
      cases h
      rw [found (plain_after?_eq_some.mp here)]

/-- A comment stands at the front of a text that goes on if and only if it stands there before. -/
theorem comment?_followed {s : List Char} (nonempty : s ≠ []) (shut : Shut s) :
    ((comment? s).map plain = none ∧ (comment? (s ++ t)).map plain = none) ∨
      ∃ x y, (comment? s).map plain = some x ∧ (comment? (s ++ t)).map plain = some y ∧
        Extends t x y := by
  rw [plain_comment?, plain_comment?, tagStart?_followed brace (by decide) nonempty shut]
  rcases plain (tagStart? "\x7b#" s) with _ | ⟨_, r⟩
  · exact .inl ⟨rfl, rfl⟩
  · refine .inr ?_
    dsimp only [Option.map_some, followed]
    rcases found : plain (upTo? ['#', '\x7d'] r) with _ | ⟨body, u⟩
    · rcases plain (upTo? ['#', '\x7d'] (r ++ t)) with _ | ⟨body, u⟩ <;>
        exact ⟨_, _, rfl, rfl, .error _⟩
    · rw [upTo?_followed t found]
      exact ⟨_, _, rfl, rfl, .ok _ u⟩

omit brace in
/-- Where the end of a tag stands, nothing is passed over. -/
theorem skipTag_tails {u : List Char} (tails : Tails t u) {r : List Char}
    (h : plain (skipTag t) = .ok ((), r)) (more : r ≠ []) :
    ∃ r₀, r = r₀ ++ t ∧ plain (skipTag u) = .ok ((), r₀ ++ u) := by
  have past : ∀ r, plain (skipTag ['-', '\x7d', '\x7d']) = .ok ((), r) → r = [] := by
    intro r h
    rw [plain_skipTag_cons, plain_skipTag_cons, plain_skipTag_cons, skipTag] at h
    cases h
    rfl
  have here : ∀ u, plain (skipTag ('-' :: '%' :: '\x7d' :: u)) =
      .ok ((), '-' :: '%' :: '\x7d' :: u) := fun u => plain_skipTag_cons _ _
  cases tails with
  | brace =>
    rw [skipTag] at h
    cases h
    exact absurd rfl more
  | trim u hw =>
    simp only [trimEnds, List.mem_cons, List.not_mem_nil, or_false] at hw
    rcases hw with rfl | rfl
    · exact absurd (past r h) more
    · rw [here []] at h
      cases h
      exact ⟨[], rfl, here u⟩

omit brace in
/-- The end of a tag is found where it is, whatever comes after it. -/
theorem skipTag_carries {u : List Char} (tails : Tails t u) {s r : List Char}
    (h : plain (skipTag (s ++ t)) = .ok ((), r)) (more : r ≠ []) :
    ∃ r₀, r = r₀ ++ t ∧ plain (skipTag (s ++ u)) = .ok ((), r₀ ++ u) := by
  induction hn : s.length using Nat.strongRecOn generalizing s with
  | ind n ih =>
    subst hn
    cases s with
    | nil => exact skipTag_tails tails h more
    | cons c s =>
      have same : ∀ {t w}, Stops t → stopSigns.any w.toList.tail.contains = false →
          startsWith w (c :: (s ++ t)) = startsWith w (c :: s) := fun stops free =>
        startsWith_followed_of_ne_nil stops free (List.cons_ne_nil c s)
      rw [List.cons_append, plain_skipTag_cons, same tails.left.stops (by decide),
        same tails.left.stops (by decide)] at h
      rw [List.cons_append, plain_skipTag_cons, same tails.right.stops (by decide),
        same tails.right.stops (by decide)]
      split at h
      · rename_i closed
        cases h
        rw [if_pos closed]
        exact ⟨c :: s, rfl, rfl⟩
      · rename_i opened
        rw [if_neg opened]
        split at h
        · rename_i quote
          rw [if_pos quote]
          rcases found : plain (quoted (c :: (s ++ t))) with f | ⟨v, r'⟩
          · rw [found] at h
            cases h
          · rw [found] at h
            obtain ⟨r', rfl, found'⟩ := quoted_carries tails quote s v r' found
            rw [found']
            have shorter := length_of_plain found
            exact ih _ (by simp at shorter; simp; omega) h rfl
        · rename_i plain_
          rw [if_neg plain_]
          exact ih _ (by simp) h rfl

theorem import_followed (s : List Char) :
    Extends t (do
      let (_, r) ← plain (skipTag s)
      let (trim, r) ← plain (tagEnd "%\x7d" r)
      return ((⟨none, trim⟩ : Element), r)) (do
      let (_, r) ← plain (skipTag (s ++ t))
      let (trim, r) ← plain (tagEnd "%\x7d" r)
      return (⟨none, trim⟩, r)) := by
  rcases found : plain (skipTag s) with f | ⟨_, r⟩
  · exact .error f
  · by_cases more : r = []
    · subst more
      -- The tag cannot end where the text does.
      exact .error _
    · have found' : plain (skipTag (s ++ [])) = .ok ((), r) := by rwa [List.append_nil]
      obtain ⟨r, rfl, skipped⟩ := skipTag_carries (.brace brace) found' more
      rw [skipped, List.append_nil]
      exact (tagEnd_followed brace (by decide) r).bind fun trim r _ => .ok _ r

end

/-! ### Text -/

theorem startsWithBrace_of_prefix (tag : "\x7b%".toList <+: t) : StartsWithBrace t := by
  obtain ⟨u, rfl⟩ := tag
  rfl

theorem textSpan_followed (tag : "\x7b%".toList <+: t) {s : List Char} (shut : Shut s) :
    (textSpan false (s ++ t)).value = (textSpan false s).value ∧
      (textSpan false (s ++ t)).rest = (textSpan false s).rest ++ t := by
  obtain ⟨u, rfl⟩ := tag
  have brace : StartsWithBrace ("\x7b%".toList ++ u) := rfl
  induction s with
  | nil => exact ⟨rfl, rfl⟩
  | cons c s ih =>
    have here : startsTag (c :: (s ++ ("\x7b%".toList ++ u))) = startsTag (c :: s) :=
      startsTag_followed brace (List.cons_ne_nil c s) shut
    obtain ⟨value, rest⟩ := ih (shut.of_suffix (List.suffix_cons c s))
    rw [List.cons_append, textSpan, textSpan, here, Bool.false_and, Bool.false_and]
    split
    · exact ⟨rfl, rfl⟩
    · exact ⟨congrArg (c :: ·) value, rest⟩

theorem text_followed (tag : "\x7b%".toList <+: t) (trim : Bool) (c : Char) (r : List Char)
    (shut : Shut r) :
    Extends t
      (.ok ((⟨some (textFrom false trim c r).value, false⟩ : Element), (textSpan false r).rest))
      (.ok (⟨some (textFrom false trim c (r ++ t)).value, false⟩,
        (textSpan false (r ++ t)).rest)) := by
  obtain ⟨value, rest⟩ := textSpan_followed tag shut
  have same : (textFrom false trim c (r ++ t)).value = (textFrom false trim c r).value := by
    dsimp only [textFrom, Reading.map, Reading.cons]
    rw [value]
  rw [same, rest]
  exact .ok _ _

/-! ### Statements -/

mutual

theorem bodyFrom_followed (tag : "\x7b%".toList <+: t) (ends : List String) (done : List Node)
    (trim : Bool) (s : List Char) (shut : Shut s) :
    Extends t (plain (bodyFrom ends done trim s)) (plain (bodyFrom ends done trim (s ++ t))) := by
  have brace := startsWithBrace_of_prefix tag
  cases hs : s with
  | nil =>
    rw [bodyFrom]
    exact .error _
  | cons c r =>
    rw [hs] at shut
    have size : s.length = r.length + 1 := by rw [hs, List.length_cons]
    have trims := trimsBefore_followed brace (List.cons_ne_nil c r) shut
    have closes := endTag?_followed brace ends (List.cons_ne_nil c r) shut
    rw [List.cons_append] at trims closes ⊢
    rw [plain_bodyFrom_cons, plain_bodyFrom_cons, trims, closes]
    dsimp only
    rcases plain (endTag? ends (c :: r)) with _ | ⟨closer, u⟩
    · refine (element_followed tag none trim c r shut).bind fun e u h => ?_
      have := length_of_plain h
      exact bodyFrom_followed tag ends _ e.trim u
        (shut.of_reads (element_reads false none trim c r) h)
    · exact .ok _ u
termination_by 8 * s.length + 3
decreasing_by all_goals simp only [List.length_cons] at *; omega

theorem element_followed (tag : "\x7b%".toList <+: t) (doc : Option String) (trim : Bool) (c : Char)
    (r : List Char) (shut : Shut (c :: r)) :
    Extends t (plain (element false doc trim c r)) (plain (element false doc trim c (r ++ t))) := by
  have brace := startsWithBrace_of_prefix tag
  have starts : ∀ opener ∈ tagWords, plain (tagStart? opener (c :: (r ++ t))) =
      (plain (tagStart? opener (c :: r))).map (followed t) :=
    fun _ ho => tagStart?_followed brace ho (List.cons_ne_nil c r) shut
  rw [plain_element, plain_element, starts _ (by decide), starts _ (by decide)]
  rcases plain (tagStart? "\x7b\x7b" (c :: r)) with _ | ⟨_, u⟩
  · rcases found : plain (tagStart? "\x7b%" (c :: r)) with _ | ⟨_, u⟩
    · rcases comment?_followed brace (List.cons_ne_nil c r) shut with
        ⟨none_, none_'⟩ | ⟨x, y, some_, some_', extends_⟩
      · rw [List.cons_append] at none_'
        dsimp only [Option.map_none]
        rw [none_, none_']
        exact text_followed tag trim c r (shut.of_suffix (List.suffix_cons c r))
      · rw [List.cons_append] at some_'
        dsimp only [Option.map_none]
        rw [some_, some_']
        exact extends_.bind fun b u _ => .ok _ u
    · have : u.length ≤ r.length := by simpa using length_of_plain_some found
      exact statement_followed tag doc u (shut.of_suffix (suffix_of_tagStart? found))
  · exact outputTag_followed brace u
termination_by 8 * (c :: r).length + 2
decreasing_by all_goals simp only [List.length_cons] at *; omega

theorem statement_followed (tag : "\x7b%".toList <+: t) (doc : Option String) (s : List Char)
    (shut : Shut s) :
    Extends t (plain (statement doc s)) (plain (statement doc (s ++ t))) := by
  have brace := startsWithBrace_of_prefix tag
  rw [plain_statement, plain_statement]
  refine (name_followed brace s).bind fun keyword r h => ?_
  have := length_of_plain h
  replace shut := shut.of_reads (name_reads s) h
  dsimp only
  split
  · refine (callHead_followed brace r).bind fun head r h => ?_
    have := length_of_plain h
    replace shut := shut.of_reads (callHead_reads _) h
    refine (bodyFrom_followed tag _ [] head.2.2 r shut).bind fun b r _ => ?_
    exact (tagEnd_followed brace (by decide) r).bind fun trim r _ => .ok _ r
  · refine (macroHead_followed brace r).bind fun head r h => ?_
    have := length_of_plain h
    replace shut := shut.of_reads (macroHead_reads _) h
    refine (bodyFrom_followed tag _ [] head.2.2 r shut).bind fun b r _ => ?_
    exact (tagEnd_followed brace (by decide) r).bind fun trim r _ => .ok _ r
  · exact (setStatement_followed tag r shut).bind fun u r _ => .ok _ r
  · exact (ifStatement_followed tag r shut).bind fun u r _ => .ok _ r
  · exact (forStatement_followed tag r shut).bind fun u r _ => .ok _ r
  · exact import_followed brace r
  · exact import_followed brace r
  · exact .error _
termination_by 8 * s.length + 1
decreasing_by all_goals omega

theorem setStatement_followed (tag : "\x7b%".toList <+: t) (s : List Char) (shut : Shut s) :
    Extends t (plain (setStatement s)) (plain (setStatement (s ++ t))) := by
  have brace := startsWithBrace_of_prefix tag
  rw [plain_setStatement, plain_setStatement]
  refine (name_followed brace s).bind fun n r h => ?_
  have := length_of_plain h
  replace shut := shut.of_reads (name_reads s) h
  dsimp only
  rw [spaced?_followed brace.stops (by decide), skipBlanks_followed brace.stops,
    startsWith_followed brace.stops (by decide)]
  rcases plain (spaced? "=" r) with _ | ⟨_, u⟩
  · dsimp only [Option.map_none]
    split
    · exact .error _
    · refine (tagEnd_followed brace (by decide) r).bind fun trim r h => ?_
      have := length_of_plain h
      replace shut := shut.of_reads (tagEnd_reads (by decide) _) h
      refine (bodyFrom_followed tag ["endset"] [] trim r shut).bind fun b r _ => ?_
      exact (tagEnd_followed brace (by decide) r).bind fun trim r _ => .ok _ r
  · refine (condition_followed brace u).bind fun e r _ => ?_
    exact (tagEnd_followed brace (by decide) r).bind fun trim r _ => .ok _ r
termination_by 8 * s.length
decreasing_by all_goals omega

theorem ifStatement_followed (tag : "\x7b%".toList <+: t) (s : List Char) (shut : Shut s) :
    Extends t (plain (ifStatement s)) (plain (ifStatement (s ++ t))) := by
  have brace := startsWithBrace_of_prefix tag
  rw [plain_ifStatement, plain_ifStatement]
  refine (condition_followed brace s).bind fun e r h => ?_
  have := length_of_plain h
  replace shut := shut.of_reads (condition_reads s) h
  refine (tagEnd_followed brace (by decide) r).bind fun trim r h => ?_
  have := length_of_plain h
  replace shut := shut.of_reads (tagEnd_reads (by decide) _) h
  refine (bodyFrom_followed tag _ [] trim r shut).bind fun yes r h => ?_
  have := length_of_plain h
  replace shut := shut.of_reads (bodyFrom_reads _ [] trim _ .nil) h
  dsimp only
  split
  · exact (ifStatement_followed tag r shut).bind fun other r _ => .ok _ r
  · exact (ifStatement_followed tag r shut).bind fun other r _ => .ok _ r
  · rw [spacedKeyword?_followed brace.stops (by decide)]
    rcases found : plain (spacedKeyword? "if" r) with _ | ⟨_, u⟩
    · refine (tagEnd_followed brace (by decide) r).bind fun trim r h => ?_
      have := length_of_plain h
      replace shut := shut.of_reads (tagEnd_reads (by decide) _) h
      refine (bodyFrom_followed tag _ [] trim r shut).bind fun no r _ => ?_
      exact (tagEnd_followed brace (by decide) r).bind fun trim r _ => .ok _ r
    · have := length_of_plain_some found
      rw [plain_spacedKeyword?] at found
      replace shut := shut.of_suffix ((suffix_of_keyword? found).trans (skipBlanks_suffix r))
      exact (ifStatement_followed tag u shut).bind fun other r _ => .ok _ r
  · exact (tagEnd_followed brace (by decide) r).bind fun trim r _ => .ok _ r
termination_by 8 * s.length
decreasing_by all_goals omega

theorem forStatement_followed (tag : "\x7b%".toList <+: t) (s : List Char) (shut : Shut s) :
    Extends t (plain (forStatement s)) (plain (forStatement (s ++ t))) := by
  have brace := startsWithBrace_of_prefix tag
  rw [plain_forStatement, plain_forStatement]
  refine (loopHead_followed brace s).bind fun head r h => ?_
  have := length_of_plain h
  replace shut := shut.of_reads (loopHead_reads s) h
  refine (bodyFrom_followed tag _ [] head.trim r shut).bind fun b r h => ?_
  have := length_of_plain h
  replace shut := shut.of_reads (bodyFrom_reads _ [] head.trim _ .nil) h
  refine (tagEnd_followed brace (by decide) r).bind fun trim r h => ?_
  have := length_of_plain h
  replace shut := shut.of_reads (tagEnd_reads (by decide) _) h
  dsimp only
  split
  · refine (bodyFrom_followed tag _ [] trim r shut).bind fun no r _ => ?_
    exact (tagEnd_followed brace (by decide) r).bind fun trim r _ => .ok _ r
  · exact .ok _ r
termination_by 8 * s.length
decreasing_by all_goals omega

end

end TagCompiler.Template
