import TagCompiler.Proofs.DocumentedMacros
import TagCompiler.Proofs.ElementInduction
import TagCompiler.Proofs.FollowedStatements
/-!
# Trim marks at the end of a tag

A tag that is closed with a trim mark drops the blanks at the start of the text after it. Outputs,
assignments and imports do so everywhere, and comments in every body. A comment at the top of a
template does not: it is held back with the blanks after it, which become text again.
-/

namespace TagCompiler.Template

open Text Grammar

/-! ### Tags -/

/-- What a tag of each kind starts and ends with. -/
def tagMarks : List (String × String) :=
  [("\x7b\x7b", "\x7d\x7d"), ("\x7b%", "%\x7d"), ("\x7b#", "#\x7d")]

/-- Whether a tag with this node, or with none, is all of its element: no block belongs to it. -/
def isInline : Option Node → Bool
  | none | some .yield | some (.output _) => true
  | some (.assign _ (.list _) _) => false
  | some (.assign _ _ _) => true
  | _ => false

/-- The text is one tag that is closed with a trim mark, and the node that the tag leaves. -/
structure TrimmingTag (g : List Char) (node? : Option Node) : Prop where
  closes : ∃ marks ∈ tagMarks, ∃ inner,
    plain (tagStart? marks.1 g) = some ((), inner ++ '-' :: marks.2.toList)
  reads : ∃ c r trim, g = c :: r ∧ plain (element true none false c r) = .ok (⟨node?, trim⟩, [])
  inline : isInline node? = true

/-- Whether the tag at the front of a text is a comment. -/
def startsComment (g : List Char) : Bool := startsWith "\x7b#" g

theorem eq_of_demand {w : String} {s r : List Char} {u : Unit}
    (h : plain (demand w s) = .ok (u, r)) : s = w.toList ++ r := by
  rw [plain_demand] at h
  rcases found : plain (word? w s) with _ | ⟨_, t⟩
  · rw [found] at h
    dsimp only at h
    split at h <;> cases h
  · rw [found] at h
    cases h
    exact (plain_word?_eq_some.mp found).2

theorem demand_append {w : String} (nonempty : w ≠ "") (r : List Char) :
    plain (demand w (w.toList ++ r)) = .ok ((), r) := by
  rw [plain_demand, word?_append nonempty]

/-- The end of a tag with a trim mark, whatever comes after it. -/
theorem tagEnd_trims {closer : String} (hc : '-' :: closer.toList ∈ trimEnds) {r : List Char}
    {trim : Bool} (h : plain (tagEnd closer (r ++ '-' :: closer.toList)) = .ok (trim, []))
    (u : List Char) :
    plain (tagEnd closer (r ++ ('-' :: closer.toList ++ u))) = .ok (true, u) := by
  have skipped : ∀ u, skipBlanks (r ++ ('-' :: closer.toList ++ u)) =
      skipBlanks r ++ ('-' :: closer.toList ++ u) :=
    fun u => skipBlanks_followed (Bounds.trim u hc).stops r
  have nonempty : closer ≠ "" := by
    rintro rfl
    exact absurd hc (by decide)
  have blank : skipBlanks r = [] := by
    have whole := skipped []
    rw [List.append_nil] at whole
    rw [plain_tagEnd, plain_spaced?, plain_demandSpaced, whole] at h
    -- Were there anything else before the mark, something would be left after the closer.
    rcases found : plain (word? "-" (skipBlanks r ++ '-' :: closer.toList)) with _ | ⟨_, t⟩
    · rw [found] at h
      obtain ⟨⟨_, t⟩, demanded, h⟩ := ok_of_bind h
      cases h
      have := congrArg List.length (eq_of_demand demanded)
      simp at this
      omega
    · rw [found] at h
      obtain ⟨⟨_, t⟩, demanded, h⟩ := ok_of_bind h
      cases h
      have dash := (plain_word?_eq_some.mp found).2
      rw [eq_of_demand demanded] at dash
      have := congrArg List.length dash
      simpa using this
  have dash : plain (word? "-" ('-' :: closer.toList ++ u)) = some ((), closer.toList ++ u) :=
    plain_word?_eq_some.mpr ⟨by decide, rfl⟩
  rw [plain_tagEnd, plain_spaced?, skipped, blank, List.nil_append, dash]
  exact ok_bind (demand_append nonempty u) rfl

/-! ### Outputs, assignments and imports -/

theorem outputTag_trims {s : List Char} {node? : Option Node} {trim : Bool}
    (h : plain (outputTag (s ++ '-' :: "\x7d\x7d".toList)) = .ok (⟨node?, trim⟩, []))
    (u : List Char) :
    plain (outputTag (s ++ ('-' :: "\x7d\x7d".toList ++ u))) = .ok (⟨node?, true⟩, u) := by
  have mark : '-' :: "\x7d\x7d".toList ∈ trimEnds := by decide
  rw [plain_outputTag] at h
  obtain ⟨⟨e, r⟩, value, h⟩ := ok_of_bind h
  obtain ⟨⟨_, r'⟩, ends, h⟩ := ok_of_bind h
  cases h
  obtain ⟨r, rfl, value'⟩ := condition_carries (.trim u mark) s e r value
  rw [plain_outputTag]
  exact ok_bind value' (ok_bind (tagEnd_trims mark ends u) rfl)

/-- A statement that is all of its element is an import, or an assignment of an expression. -/
theorem statement_inline {s r : List Char} {node? : Option Node} {trim : Bool}
    (h : plain (statement none s) = .ok (⟨node?, trim⟩, r)) (inline : isInline node? = true) :
    (∃ keyword ∈ ["from", "import"], ∃ s₁ s₂, plain (name s) = .ok (keyword, s₁) ∧
      plain (skipTag s₁) = .ok ((), s₂) ∧ plain (tagEnd "%\x7d" s₂) = .ok (trim, r) ∧
      node? = none) ∨
    ∃ x e s₁ s₂ s₃ s₄, plain (name s) = .ok ("set", s₁) ∧ plain (name s₁) = .ok (x, s₂) ∧
      plain (spaced? "=" s₂) = some ((), s₃) ∧ plain (condition s₃) = .ok (e, s₄) ∧
      plain (tagEnd "%\x7d" s₄) = .ok (trim, r) ∧ node? = some (.assign (.var [x]) e .set) := by
  rw [plain_statement] at h
  obtain ⟨⟨keyword, s₁⟩, named, h⟩ := ok_of_bind h
  dsimp only at h
  split at h
  · obtain ⟨_, -, h⟩ := ok_of_bind h
    obtain ⟨_, -, h⟩ := ok_of_bind h
    obtain ⟨_, -, h⟩ := ok_of_bind h
    cases h
    cases inline
  · obtain ⟨_, -, h⟩ := ok_of_bind h
    obtain ⟨_, -, h⟩ := ok_of_bind h
    obtain ⟨_, -, h⟩ := ok_of_bind h
    cases h
    cases inline
  · obtain ⟨⟨t, r₁⟩, set, h⟩ := ok_of_bind h
    cases h
    rw [plain_setStatement] at set
    obtain ⟨⟨x, s₂⟩, target, set⟩ := ok_of_bind set
    dsimp only at set
    split at set
    · rename_i s₃ equal
      obtain ⟨⟨e, s₄⟩, value, set⟩ := ok_of_bind set
      obtain ⟨⟨_, s₅⟩, ends, set⟩ := ok_of_bind set
      cases set
      exact .inr ⟨x, e, s₁, s₂, s₃, s₄, named, target, equal, value, ends, rfl⟩
    · split at set
      · cases set
      · obtain ⟨_, -, set⟩ := ok_of_bind set
        obtain ⟨_, -, set⟩ := ok_of_bind set
        obtain ⟨_, -, set⟩ := ok_of_bind set
        cases set
        cases inline
  · obtain ⟨⟨t, r₁⟩, branch, h⟩ := ok_of_bind h
    cases h
    obtain ⟨c, yes, no, same⟩ := ifStatement_isBranch branch
    rw [same] at inline
    cases inline
  · obtain ⟨⟨t, r₁⟩, loop, h⟩ := ok_of_bind h
    cases h
    obtain ⟨c, yes, no, same⟩ | ⟨key, item, items, body, same⟩ := forStatement_isLoop loop
    · rw [same] at inline
      cases inline
    · rw [same] at inline
      cases inline
  · obtain ⟨⟨_, s₂⟩, skipped, h⟩ := ok_of_bind h
    obtain ⟨⟨_, s₃⟩, ends, h⟩ := ok_of_bind h
    cases h
    exact .inl ⟨"from", by decide, s₁, s₂, named, skipped, ends, rfl⟩
  · obtain ⟨⟨_, s₂⟩, skipped, h⟩ := ok_of_bind h
    obtain ⟨⟨_, s₃⟩, ends, h⟩ := ok_of_bind h
    cases h
    exact .inl ⟨"import", by decide, s₁, s₂, named, skipped, ends, rfl⟩
  · cases h

theorem statement_trims {s : List Char} {node? : Option Node} {trim : Bool}
    (h : plain (statement none (s ++ '-' :: "%\x7d".toList)) = .ok (⟨node?, trim⟩, []))
    (inline : isInline node? = true) (doc : Option String) (u : List Char) :
    plain (statement doc (s ++ ('-' :: "%\x7d".toList ++ u))) = .ok (⟨node?, true⟩, u) := by
  have mark : '-' :: "%\x7d".toList ∈ trimEnds := by decide
  have tails : Tails ('-' :: "%\x7d".toList) ('-' :: "%\x7d".toList ++ u) := .trim u mark
  rw [plain_statement]
  rcases statement_inline h inline with ⟨keyword, hk, s₁, s₂, named, skipped, ends, rfl⟩ |
    ⟨x, e, s₁, s₂, s₃, s₄, named, target, equal, value, ends, rfl⟩
  · obtain ⟨s₁, rfl, named'⟩ := name_carries tails s _ _ named
    have more : s₂ ≠ [] := by
      rintro rfl
      cases ends
    obtain ⟨s₂, rfl, skipped'⟩ := skipTag_carries tails skipped more
    have ends' := tagEnd_trims mark ends u
    simp only [List.mem_cons, List.not_mem_nil, or_false] at hk
    rcases hk with rfl | rfl
    · exact ok_bind named' (ok_bind skipped' (ok_bind ends' rfl))
    · exact ok_bind named' (ok_bind skipped' (ok_bind ends' rfl))
  · obtain ⟨s₁, rfl, named'⟩ := name_carries tails s _ _ named
    obtain ⟨s₂, rfl, target'⟩ := name_carries tails s₁ _ _ target
    rw [spaced?_followed tails.left.stops (by decide)] at equal
    obtain ⟨⟨_, s₃⟩, sign, same⟩ := Option.map_eq_some_iff.mp equal
    cases same
    have equal' := spaced?_followed tails.right.stops (w := "=") (by decide) s₂
    rw [sign] at equal'
    obtain ⟨s₄, rfl, value'⟩ := condition_carries tails s₃ _ _ value
    have set : plain (setStatement (s₁ ++ ('-' :: "%\x7d".toList ++ u))) =
        .ok (⟨.assign (.var [x]) e .set, true⟩, u) := by
      rw [plain_setStatement]
      refine ok_bind target' ?_
      dsimp only
      rw [equal']
      exact ok_bind value' (ok_bind (tagEnd_trims mark ends u) rfl)
    exact ok_bind named' (ok_bind set rfl)

/-! ### Tags that more input follows -/

/-- A tag opener is found in a text that goes on, where there is more than the opener. -/
theorem tagStart?_of_more {opener : String} {g m : List Char}
    (start : plain (tagStart? opener g) = some ((), m)) (more : m ≠ []) (u : List Char) :
    plain (tagStart? opener (g ++ u)) = some ((), m ++ u) := by
  rw [plain_tagStart?] at start ⊢
  obtain ⟨⟨_, t⟩, opened, marked⟩ := Option.bind_eq_some_iff.mp start
  dsimp only at marked
  obtain ⟨nonempty, rfl⟩ := plain_word?_eq_some.mp opened
  rw [List.append_assoc, word?_append nonempty]
  show (plain (word? "-" (t ++ u))).or (some ((), t ++ u)) = _
  rcases dash : plain (word? "-" t) with _ | ⟨_, r⟩
  · rw [dash] at marked
    cases marked
    obtain ⟨c, t, rfl⟩ := List.exists_cons_of_ne_nil more
    have absent : plain (word? "-" (c :: t ++ u)) = none := by
      rcases found : plain (word? "-" (c :: t ++ u)) with _ | ⟨_, r⟩
      · rfl
      · obtain ⟨rfl, -⟩ := List.cons.inj (plain_word?_eq_some.mp found).2
        cases dash
    rw [absent]
    rfl
  · rw [dash] at marked
    cases marked
    obtain ⟨-, rfl⟩ := plain_word?_eq_some.mp dash
    rfl

/-- A comment with a trim mark, whatever comes after it. -/
theorem comment?_trims {c : Char} {r inner : List Char} {node? : Option Node} {trim : Bool}
    (start : plain (tagStart? "\x7b#" (c :: r)) = some ((), inner ++ '-' :: "#\x7d".toList))
    (read : plain (element true none false c r) = .ok (⟨node?, trim⟩, [])) :
    node? = none ∧ ∀ u, (comment? (c :: r ++ u)).map plain = some (.ok ((inner, true), u)) := by
  rw [plain_element, tagStart?_of_other (by decide) (by decide) (by decide) start,
    tagStart?_of_other (by decide) (by decide) (by decide) start, plain_comment?, start] at read
  dsimp only at read
  rcases found : plain (upTo? ['#', '\x7d'] (inner ++ '-' :: "#\x7d".toList)) with _ | ⟨v, rest⟩
  · rw [found] at read
    cases read
  · rw [found] at read
    cases read
    refine ⟨rfl, fun u => ?_⟩
    -- The comment ends at its last characters, so that the mark is the last one of its body.
    have whole : inner ++ ['-'] = v := by
      have same : (inner ++ ['-']) ++ ['#', '\x7d'] = v ++ ['#', '\x7d'] := by
        simpa using eq_of_upTo? found
      exact List.append_cancel_right same
    subst whole
    rw [plain_comment?, tagStart?_of_more start (by simp) u]
    dsimp only
    rw [upTo?_followed u found]
    simp

/-- A tag with a trim mark is one element of every text that starts with it, and asks for the blanks
after it to be dropped. -/
theorem TrimmingTag.element {c : Char} {r : List Char} {node? : Option Node}
    (tag : TrimmingTag (c :: r) node?) (top : Bool) (doc : Option String) (trim : Bool)
    (u : List Char) : plain (element top doc trim c (r ++ u)) = .ok (⟨node?, true⟩, u) := by
  obtain ⟨⟨opener, closer⟩, marks, inner, start⟩ := tag.closes
  obtain ⟨_, _, trim', same, read⟩ := tag.reads
  cases same
  have start' := tagStart?_of_more start (by simp) u
  rw [List.cons_append] at start'
  simp only [tagMarks, List.mem_cons, Prod.mk.injEq, List.not_mem_nil, or_false] at marks
  rcases marks with ⟨rfl, rfl⟩ | ⟨rfl, rfl⟩ | ⟨rfl, rfl⟩
  · rw [plain_element, start] at read
    rw [plain_element, start', List.append_assoc]
    exact outputTag_trims read u
  · rw [plain_element, tagStart?_of_other (by decide) (by decide) (by decide) start, start] at read
    rw [plain_element, tagStart?_of_other (by decide) (by decide) (by decide) start', start',
      List.append_assoc]
    exact statement_trims read tag.inline doc u
  · obtain ⟨rfl, more⟩ := comment?_trims start read
    have more := more u
    rw [List.cons_append] at more
    rw [plain_element, tagStart?_of_other (by decide) (by decide) (by decide) start',
      tagStart?_of_other (by decide) (by decide) (by decide) start', more]
    rfl

/-! ### Text at the end -/

theorem push_no_text (done : List Node) (trim : Bool) :
    push done (.text (String.ofList (if trim then skipBlanks [] else []))) = done := by
  have nothing : (if trim then skipBlanks [] else []) = [] := by cases trim <;> rfl
  rw [nothing]
  exact pushRun_nil done

/-- Text at the end of a template is added to the elements before it. -/
theorem elementsFrom_clean {t : List Char} (clean : CleanText t) (done : List Node) (trim : Bool) :
    elementsFrom done [] none trim t =
      .ok (push done (.text (String.ofList (if trim then skipBlanks t else t)))).reverse := by
  cases t with
  | nil =>
    rw [elementsFrom_nil, pushRun_nil, push_no_text]
  | cons c t =>
    have ends : EndsText [] := .inl rfl
    have front := clean.plainFront ends
    have read := element_text clean ends true none trim
    rw [List.append_nil] at front read
    rw [elementsFrom_cons, front.docBlock?, front.trimsBefore]
    refine ok_bind read ?_
    dsimp only
    rw [elementsFrom_nil, pushRun_nil]
    rfl

/-- The text starts with the tag that ends a body, and the tag drops no blanks before it. -/
structure EndsBody (closer : String) (tail rest : List Char) : Prop where
  keyword : plain (statementKeyword? tail) = some (closer, rest)
  noTrim : trimsBefore tail = false

theorem EndsBody.bodyFrom {closer : String} {tail rest : List Char} (h : EndsBody closer tail rest)
    {ends : List String} (hc : closer ∈ ends) (done : List Node) (trim : Bool) :
    plain (bodyFrom ends done trim tail) = .ok (⟨done.reverse, closer⟩, rest) := by
  cases tail with
  | nil => cases h.keyword
  | cons c r =>
    have closes : plain (endTag? ends (c :: r)) = some (closer, rest) := by
      rw [plain_endTag?, h.keyword]
      simp [Option.filter, hc]
    rw [plain_bodyFrom_cons, closes, h.noTrim]
    rfl

theorem EndsBody.endsText {closer : String} {tail rest : List Char}
    (h : EndsBody closer tail rest) : EndsText tail := by
  have keyword := h.keyword
  rw [plain_statementKeyword?] at keyword
  obtain ⟨⟨_, m⟩, start, -⟩ := Option.bind_eq_some_iff.mp keyword
  obtain ⟨t, rfl, -⟩ := tagStart?_finds start
  exact .inr (startsTag_of_startsWith (by decide) ((startsWith_iff (by decide)).mpr ⟨t, rfl⟩))

/-- Text at the end of a body is added to the elements before it. -/
theorem bodyFrom_clean {t tail rest : List Char} (clean : CleanText t) {closer : String}
    (closes : EndsBody closer tail rest) {ends : List String} (hc : closer ∈ ends)
    (done : List Node) (trim : Bool) : plain (bodyFrom ends done trim (t ++ tail)) =
      .ok (⟨(push done (.text (String.ofList (if trim then skipBlanks t else t)))).reverse, closer⟩,
        rest) := by
  cases t with
  | nil =>
    rw [List.nil_append, closes.bodyFrom hc, push_no_text]
  | cons c t =>
    have ends_ := closes.endsText
    have front := clean.plainFront ends_
    have noStatement : plain (endTag? ends (c :: t ++ tail)) = none := by
      rw [plain_endTag?, plain_statementKeyword?,
        tagStart?_of_not_startsTag (clean.not_startsTag tail) (by simp)]
      rfl
    rw [List.cons_append] at noStatement ⊢
    rw [plain_bodyFrom_cons, noStatement, show trimsBefore (c :: (t ++ tail)) = false from
      front.trimsBefore]
    refine ok_bind (element_text clean ends_ false none trim) ?_
    exact closes.bodyFrom hc _ false

/-- Text after an element that is no text is an element of its own, if there is any. -/
theorem push_text_reverse (done : List Node) (apart : ∀ d ∈ done.head?, isText d = false)
    (t : List Char) :
    (push done (.text (String.ofList t))).reverse = done.reverse ++ textNodes t := by
  have pushed : push done (.text (String.ofList t)) = textNodes t ++ done := by
    cases done with
    | nil => exact (push_textNodes [] t).trans (List.append_nil _).symm
    | cons d done =>
      have other := apart d rfl
      cases d with
      | text s => cases other
      | _ => cases t <;> simp [push, textNodes]
  rw [pushed, List.reverse_append, reverse_textNodes]

theorem isInline_some {n : Node} (h : isInline (some n) = true) :
    isText n = false ∧ n.isMacroDef = false := by
  cases n with
  | text => cases h
  | macroDef => cases h
  | _ => exact ⟨rfl, rfl⟩

theorem TrimmingTag.node {g : List Char} {node? : Option Node} (tag : TrimmingTag g node?) :
    ∀ n ∈ node?, isText n = false ∧ n.isMacroDef = false := by
  rintro n rfl
  exact isInline_some tag.inline

theorem TrimmingTag.exists_cons {g : List Char} {node? : Option Node} (tag : TrimmingTag g node?) :
    ∃ c r, g = c :: r := by
  obtain ⟨c, r, -, same, -⟩ := tag.reads
  exact ⟨c, r, same⟩

/-- The node of a tag, as the elements of a body that has nothing else, and text after it. -/
theorem TrimmingTag.push_text {g : List Char} {node? : Option Node} (tag : TrimmingTag g node?)
    (t : List Char) :
    (push (pushAll [] node?.toList) (.text (String.ofList t))).reverse =
      node?.toList ++ textNodes t := by
  cases node? with
  | none => exact push_text_reverse [] (by simp) t
  | some n =>
    have apart := (tag.node n rfl).1
    have pushed : pushAll [] [n] = [n] := by
      cases n with
      | text => cases apart
      | _ => rfl
    rw [Option.toList_some, pushed]
    exact push_text_reverse [n] (by simpa using apart) t

/-! ### At the top of a template -/

/-- A tag other than a comment at the start of a template, and the text after it. -/
theorem TrimmingTag.elementsFrom {g t : List Char} {node? : Option Node}
    (tag : TrimmingTag g node?) (noComment : startsComment g = false) (clean : CleanText t) :
    elementsFrom [] [] none false (g ++ t) = .ok (node?.toList ++ textNodes (skipBlanks t)) := by
  obtain ⟨c, r, rfl⟩ := tag.exists_cons
  have noBlock : (docBlock? false (c :: (r ++ t))).map plain = none := by
    obtain ⟨⟨opener, closer⟩, marks, inner, start⟩ := tag.closes
    simp only [tagMarks, List.mem_cons, Prod.mk.injEq, List.not_mem_nil, or_false] at marks
    rcases marks with ⟨rfl, rfl⟩ | ⟨rfl, rfl⟩ | ⟨rfl, rfl⟩
    · exact docBlock?_of_tagStart? (by decide) (tagStart?_of_more start (by simp) t) false
    · exact docBlock?_of_tagStart? (by decide) (tagStart?_of_more start (by simp) t) false
    · obtain ⟨v, same, -⟩ := tagStart?_finds start
      rw [same, startsComment, startsWith_append (by decide)] at noComment
      cases noComment
  rw [List.cons_append, elementsFrom_cons, noBlock, show trimTail [] = [] from rfl, ite_self]
  refine ok_bind (tag.element true none false t) ?_
  dsimp only
  rw [elementsFrom_clean clean, if_pos rfl, tag.push_text]

/-- A comment at the start of a template, and the text after it: the blanks that the comment should
drop are held back with it, and come back as text. -/
theorem TrimmingTag.elementsFrom_comment {g t : List Char} {node? : Option Node}
    (tag : TrimmingTag g node?) (comment : startsComment g = true) (clean : CleanText t) :
    node? = none ∧ Template.elementsFrom [] [] none false (g ++ t) = .ok (textNodes t) := by
  obtain ⟨⟨opener, closer⟩, marks, inner, start⟩ := tag.closes
  obtain ⟨c, r, trim, rfl, read⟩ := tag.reads
  obtain ⟨v, same, -⟩ := tagStart?_finds start
  simp only [tagMarks, List.mem_cons, Prod.mk.injEq, List.not_mem_nil, or_false] at marks
  rcases marks with ⟨rfl, rfl⟩ | ⟨rfl, rfl⟩ | ⟨rfl, rfl⟩
  · rw [same] at comment
    cases comment
  · rw [same] at comment
    cases comment
  · obtain ⟨rfl, more⟩ := comment?_trims start read
    refine ⟨rfl, ?_⟩
    have noDoc : plain (docComment? (c :: r ++ t)) = none := by
      rw [same, plain_docComment?]
      rfl
    have block : (docBlock? false (c :: r ++ t)).map plain =
        some (.ok ((⟨docText inner, t.takeWhile isBlank⟩, true), skipBlanks t)) := by
      rw [plain_docBlock?, noDoc, more t]
      rfl
    have left : CleanText (skipBlanks t) := clean.of_suffix (skipBlanks_suffix t)
    have noStatement : plain (statementKeyword? (skipBlanks t)) = none := by
      have absent := statementKeyword?_commented left []
      rwa [commented, List.append_nil] at absent
    have noBlock : startsDocBlock (skipBlanks t) = false := by
      cases rest : skipBlanks t with
      | nil => rfl
      | cons d u => simpa using startsDocBlock_append (rest ▸ left) (.inl rfl)
    have held : pushRun [] [⟨docText inner, t.takeWhile isBlank⟩] =
        textNodes (t.takeWhile isBlank) := by
      refine (pushRun_textNodes [] _).trans ?_
      simp
    rw [List.cons_append] at block ⊢
    rw [elementsFrom_cons, block, show trimTail [] = [] from rfl, ite_self]
    show (if (plain (statementKeyword? (skipBlanks t))).any _ then _ else
      if startsDocBlock (skipBlanks t) then _ else
        Template.elementsFrom (pushRun [] [_]) [] none true _) = _
    rw [noStatement, noBlock, held, elementsFrom_clean left, if_pos rfl, skipBlanks_skipBlanks,
      push_textNodes, reverse_textNodes, skipBlanks, List.takeWhile_append_dropWhile]
    rfl

/-! ### In the body of a block -/

theorem TrimmingTag.bodyFrom {g t tail rest : List Char} {node? : Option Node}
    (tag : TrimmingTag g node?) (clean : CleanText t) {closer : String}
    (closes : EndsBody closer tail rest) {ends : List String}
    (free : ∀ k ∈ statementKeywords, k ∉ ends) (hc : closer ∈ ends) (trim : Bool) :
    plain (bodyFrom ends [] trim (g ++ t ++ tail)) =
      .ok (⟨node?.toList ++ textNodes (skipBlanks t), closer⟩, rest) := by
  obtain ⟨c, r, rfl⟩ := tag.exists_cons
  have read := tag.element false none trim (t ++ tail)
  rw [List.append_assoc, List.cons_append, plain_bodyFrom_cons, endTag?_of_element free read,
    show trimTail [] = [] from rfl, ite_self]
  refine ok_bind read ?_
  dsimp only
  rw [bodyFrom_clean clean closes hc, if_pos rfl, tag.push_text]

/-- The text is the tag that ends a block, and nothing else. -/
def ClosesBlock (closer : String) (tail : List Char) : Prop :=
  ∃ rest trim, EndsBody closer tail rest ∧ plain (tagEnd "%\x7d" rest) = .ok (trim, [])

/-- `head` and `tail` are the two tags of a block, and the template of the block with a body. -/
inductive Encloses : List Char → List Char → (List Node → Node) → Prop
  | macroDef {head tail r : List Char} {n : String} {ps : List Node} {trim : Bool} :
      plain (statementKeyword? head) = some ("macro", r) →
      plain (macroHead r) = .ok ((n, ps, trim), []) → ClosesBlock "endmacro" tail →
      Encloses head tail fun body => .macroDef n (.parameters ps) body none
  | call {head tail r : List Char} {n : String} {args : List Node} {trim : Bool} :
      plain (statementKeyword? head) = some ("call", r) →
      plain (callHead r) = .ok ((n, args, trim), []) → ClosesBlock "endcall" tail →
      Encloses head tail fun body => .list [.call n (.parameters args) body]
  | branch {head tail r r' : List Char} {e : Node} {trim : Bool} :
      plain (statementKeyword? head) = some ("if", r) → plain (condition r) = .ok (e, r') →
      plain (tagEnd "%\x7d" r') = .ok (trim, []) → ClosesBlock "endif" tail →
      Encloses head tail fun body => .list [.branch e body []]
  | loop {head tail r : List Char} {h : LoopHead} :
      plain (statementKeyword? head) = some ("for", r) → plain (loopHead r) = .ok (h, []) →
      ClosesBlock "endfor" tail →
      Encloses head tail fun body => .list [.loop h.key h.item h.source body]
  | assign {head tail r r' : List Char} {x : String} {trim : Bool} :
      plain (statementKeyword? head) = some ("set", r) → plain (name r) = .ok (x, r') →
      plain (tagEnd "%\x7d" r') = .ok (trim, []) → ClosesBlock "endset" tail →
      Encloses head tail fun body => .list [.assign (.var [x]) (.list body) .set]

/-- A statement tag is found where a brace follows it. -/
theorem statementKeyword?_opened {s r t : List Char} {keyword : String}
    (h : plain (statementKeyword? s) = some (keyword, r)) (brace : StartsWithBrace t) :
    ∃ m, plain (tagStart? "\x7b%" (s ++ t)) = some ((), m) ∧
      plain (name m) = .ok (keyword, r ++ t) := by
  rw [plain_statementKeyword?] at h
  obtain ⟨⟨_, m⟩, start, named⟩ := Option.bind_eq_some_iff.mp h
  dsimp only at named
  rw [plain_name?] at named
  have named : plain (name m) = .ok (keyword, r) := by
    cases read : plain (name m) with
    | error f =>
      rw [read] at named
      cases named
    | ok p =>
      rw [read] at named
      exact congrArg Except.ok (Option.some.inj named)
  have more : m ≠ [] := by
    rintro rfl
    cases named
  exact ⟨m ++ t, tagStart?_of_more start more t, name_followed brace m keyword r named⟩

theorem tagEnd_front {s r : List Char} {trim : Bool}
    (h : plain (tagEnd "%\x7d" s) = .ok (trim, r)) :
    ∃ c t, skipBlanks s = c :: t ∧ c ∈ ['-', '%'] := by
  rw [plain_tagEnd, plain_spaced?, plain_demandSpaced] at h
  rcases found : plain (word? "-" (skipBlanks s)) with _ | ⟨_, t⟩
  · rw [found] at h
    obtain ⟨⟨_, t⟩, demanded, -⟩ := ok_of_bind h
    exact ⟨'%', '\x7d' :: t, eq_of_demand demanded, by simp⟩
  · exact ⟨'-', t, (plain_word?_eq_some.mp found).2, by simp⟩

/-- A statement that is all of a template is its only element. -/
theorem elementsFrom_statement {head u r : List Char} {keyword : String} {n : Node}
    (opened : plain (statementKeyword? head) = some (keyword, r)) (brace : StartsWithBrace u)
    (other : isText n = false) (read : ∀ m, plain (name m) = .ok (keyword, r ++ u) →
      ∃ trim, plain (statement none m) = .ok (⟨some n, trim⟩, [])) :
    elementsFrom [] [] none false (head ++ u) = .ok [n] := by
  obtain ⟨m, start, named⟩ := statementKeyword?_opened opened brace
  obtain ⟨trim, statement⟩ := read m named
  cases text : head ++ u with
  | nil =>
    rw [text] at start
    cases start
  | cons c s =>
    rw [text] at start
    have element : plain (element true none false c s) = .ok (⟨some n, trim⟩, []) := by
      rw [plain_element, tagStart?_of_other (by decide) (by decide) (by decide) start, start]
      exact statement
    rw [elementsFrom_cons, docBlock?_of_tagStart? (by decide) start,
      show trimTail [] = [] from rfl, ite_self]
    refine ok_bind element ?_
    dsimp only
    rw [elementsFrom_nil, pushRun_nil]
    cases n with
    | text => cases other
    | _ => rfl

/-- A block is all of its template, with the body that is read between its tags. -/
theorem Encloses.elementsFrom {head tail : List Char} {tree : List Node → Node}
    (h : Encloses head tail tree) (content : List Char) (body : List Node)
    (brace : StartsWithBrace (content ++ tail))
    (inside : ∀ (ends : List String) (closer : String) (rest : List Char) (trim : Bool),
      (∀ k ∈ statementKeywords, k ∉ ends) → closer ∈ ends → EndsBody closer tail rest →
      plain (bodyFrom ends [] trim (content ++ tail)) = .ok (⟨body, closer⟩, rest)) :
    ∃ n, elementsFrom [] [] none false (head ++ (content ++ tail)) = .ok [n] ∧
      ofElements [n] = tree body := by
  cases h with
  | @macroDef r n ps start opened read closes =>
    obtain ⟨rest, trim, ends, closed⟩ := closes
    have head := macroHead_followed brace r _ _ read
    have filled := inside ["endmacro"] "endmacro" rest start (by decide) (by decide) ends
    refine ⟨.macroDef _ _ _ none, elementsFrom_statement opened brace rfl fun m named => ?_, rfl⟩
    rw [plain_statement]
    exact ⟨trim, ok_bind named (ok_bind head (ok_bind filled (ok_bind closed rfl)))⟩
  | @call r n args start opened read closes =>
    obtain ⟨rest, trim, ends, closed⟩ := closes
    have head := callHead_followed brace r _ _ read
    have filled := inside ["endcall"] "endcall" rest start (by decide) (by decide) ends
    refine ⟨.call _ _ _, elementsFrom_statement opened brace rfl fun m named => ?_, rfl⟩
    rw [plain_statement]
    exact ⟨trim, ok_bind named (ok_bind head (ok_bind filled (ok_bind closed rfl)))⟩
  | @branch r r' e start opened value tagEnds closes =>
    obtain ⟨rest, trim, ends, closed⟩ := closes
    have value := condition_followed brace r _ _ value
    have tagEnds := tagEnd_followed brace (by decide) r' _ _ tagEnds
    have filled := inside ["elif", "elseif", "else", "endif"] "endif" rest start (by decide)
      (by decide) ends
    have read : plain (ifStatement (r ++ (content ++ tail))) =
        .ok (⟨.branch e body [], trim⟩, []) := by
      rw [plain_ifStatement]
      exact ok_bind value (ok_bind tagEnds (ok_bind filled (ok_bind closed rfl)))
    refine ⟨.branch _ _ _, elementsFrom_statement opened brace rfl fun m named => ?_, rfl⟩
    rw [plain_statement]
    exact ⟨trim, ok_bind named (ok_bind read rfl)⟩
  | @loop r h opened head closes =>
    obtain ⟨rest, trim, ends, closed⟩ := closes
    have head := loopHead_followed brace r _ _ head
    have filled := inside ["else", "endfor"] "endfor" rest h.trim (by decide) (by decide) ends
    have read : plain (forStatement (r ++ (content ++ tail))) =
        .ok (⟨.loop h.key h.item h.source body, trim⟩, []) := by
      rw [plain_forStatement]
      exact ok_bind head (ok_bind filled (ok_bind closed rfl))
    refine ⟨.loop _ _ _ _, elementsFrom_statement opened brace rfl fun m named => ?_, rfl⟩
    rw [plain_statement]
    exact ⟨trim, ok_bind named (ok_bind read rfl)⟩
  | @assign r r' x start opened target tagEnds closes =>
    obtain ⟨rest, trim, ends, closed⟩ := closes
    obtain ⟨c, t, front, hc⟩ := tagEnd_front tagEnds
    have target := name_followed brace r _ _ target
    have tagEnds := tagEnd_followed brace (by decide) r' _ _ tagEnds
    have filled := inside ["endset"] "endset" rest start (by decide) (by decide) ends
    -- Before the end of the tag stands neither an equals sign nor a comma.
    have absent : ∀ w : String, w.toList.head?.any ['=', ','].contains = true →
        plain (word? w (skipBlanks (r' ++ (content ++ tail)))) = none := by
      intro w hw
      have avoids : Avoids ['=', ','] (skipBlanks (r' ++ (content ++ tail))) := by
        rw [skipBlanks_followed brace.stops, front]
        rintro d ⟨⟩ mem
        simp only [List.mem_cons, List.not_mem_nil, or_false] at hc mem
        rcases hc with rfl | rfl <;> exact absurd mem (by decide)
      exact avoids.word? hw
    have noValue : plain (spaced? "=" (r' ++ (content ++ tail))) = none := by
      rw [plain_spaced?, absent "=" (by decide)]
    have noComma : startsWith "," (skipBlanks (r' ++ (content ++ tail))) = false := by
      rw [startsWith_eq_isSome, absent "," (by decide)]
      rfl
    have read : plain (setStatement (r ++ (content ++ tail))) =
        .ok (⟨.assign (.var [x]) (.list body) .set, trim⟩, []) := by
      rw [plain_setStatement]
      refine ok_bind target ?_
      dsimp only
      rw [noValue, noComma]
      exact ok_bind tagEnds (ok_bind filled (ok_bind closed rfl))
    refine ⟨.assign _ _ _, elementsFrom_statement opened brace rfl fun m named => ?_, rfl⟩
    rw [plain_statement]
    exact ⟨trim, ok_bind named (ok_bind read rfl)⟩

/-! ### The text after a tag -/

theorem TrimmingTag.opens {g : List Char} {node? : Option Node} (tag : TrimmingTag g node?)
    (t : List Char) : StartsWithBrace (g ++ t) := by
  obtain ⟨⟨opener, closer⟩, marks, inner, start⟩ := tag.closes
  obtain ⟨v, rfl, -⟩ := tagStart?_finds start
  simp only [tagMarks, List.mem_cons, Prod.mk.injEq, List.not_mem_nil, or_false] at marks
  rcases marks with ⟨rfl, rfl⟩ | ⟨rfl, rfl⟩ | ⟨rfl, rfl⟩ <;> rfl

/-- A tag that is closed with a trim mark, and a text after it. As a template they are read as the
node of the tag, if it has one, and the text without the blanks at its start, if anything is left of
it; but after a comment the text keeps its blanks. As all of the body of a block they are read as
the same elements, and there comments drop the blanks too. -/
theorem trim_mark_drops_blanks_after {g text : String} {node? : Option Node}
    (tag : TrimmingTag g.toList node?) (clean : CleanText text.toList) :
    parse (g ++ text) = .ok (.list (node?.toList ++
      textNodes (if startsComment g.toList then text.toList else (trimStart text).toList))) ∧
    (∀ (ends : List String) (closer : String) (tail rest : List Char) (trim : Bool),
      (∀ k ∈ statementKeywords, k ∉ ends) → closer ∈ ends → EndsBody closer tail rest →
      plain (bodyFrom ends [] trim (g.toList ++ text.toList ++ tail)) =
        .ok (⟨node?.toList ++ textNodes (trimStart text).toList, closer⟩, rest)) ∧
    ∀ (head tail : String) (tree : List Node → Node), Encloses head.toList tail.toList tree →
      parse (head ++ (g ++ text) ++ tail) =
        .ok (tree (node?.toList ++ textNodes (trimStart text).toList)) := by
  have trimmed : (trimStart text).toList = skipBlanks text.toList := String.toList_ofList
  rw [trimmed]
  refine ⟨?_, fun ends closer tail rest trim free hc closes => ?_, fun head tail tree block => ?_⟩
  · have lists : ∀ t, ofElements (node?.toList ++ textNodes t) =
        .list (node?.toList ++ textNodes t) := by
      refine fun t => ofElements_eq_list fun n hn => ?_
      rcases List.mem_append.mp hn with hn | hn
      · exact (tag.node n (Option.mem_toList.mp hn)).2
      · exact isMacroDef_of_mem_textNodes n hn
    rw [parse_eq, String.toList_append]
    by_cases comment : startsComment g.toList = true
    · obtain ⟨rfl, read⟩ := tag.elementsFrom_comment comment clean
      rw [read, if_pos comment]
      exact congrArg Except.ok (lists _)
    · rw [tag.elementsFrom (Bool.eq_false_iff.mpr comment) clean, if_neg comment]
      exact congrArg Except.ok (lists _)
  · exact tag.bodyFrom clean closes free hc trim
  · have brace : StartsWithBrace (g.toList ++ text.toList ++ tail.toList) := by
      rw [List.append_assoc]
      exact tag.opens _
    obtain ⟨n, read, same⟩ := block.elementsFrom (g.toList ++ text.toList)
      (node?.toList ++ textNodes (skipBlanks text.toList)) brace
      fun ends closer rest trim free hc closes => tag.bodyFrom clean closes free hc trim
    rw [parse_eq, String.toList_append, String.toList_append, String.toList_append,
      List.append_assoc, read]
    exact congrArg Except.ok same

/-- A closer in a string of the tag, a brace in the text, and a branching around them. -/
theorem trim_mark_drops_blanks_after_output :
    (TrimmingTag "\x7b\x7b'-\x7d\x7d'-\x7d\x7d".toList (some (.output [.string "-\x7d\x7d"])) ∧
      CleanText " \n\x7b y ".toList ∧
      Encloses "\x7b%if x%\x7d".toList "\x7b%endif%\x7d".toList
        fun body => .list [.branch (.var ["x"]) body []]) ∧
    parse ("\x7b\x7b'-\x7d\x7d'-\x7d\x7d" ++ " \n\x7b y ") =
      .ok (.list [.output [.string "-\x7d\x7d"], .text "\x7b y "]) ∧
    parse ("\x7b%if x%\x7d" ++ ("\x7b\x7b'-\x7d\x7d'-\x7d\x7d" ++ " \n\x7b y ") ++
        "\x7b%endif%\x7d") =
      .ok (.list [.branch (.var ["x"]) [.output [.string "-\x7d\x7d"], .text "\x7b y "] []]) := by
  have tag : TrimmingTag "\x7b\x7b'-\x7d\x7d'-\x7d\x7d".toList
      (some (.output [.string "-\x7d\x7d"])) := by
    refine ⟨⟨("\x7b\x7b", "\x7d\x7d"), by decide, "'-\x7d\x7d'".toList, ?_⟩, ⟨'\x7b',
      ['\x7b', '\'', '-', '\x7d', '\x7d', '\'', '-', '\x7d', '\x7d'], true, by decide +kernel, ?_⟩,
      rfl⟩
    · rw [plain_tagStart?]
      decide +kernel
    · cbv
  have clean : CleanText " \n\x7b y ".toList := by decide +kernel
  have opens : plain (statementKeyword? "\x7b%if x%\x7d".toList) =
      some ("if", [' ', 'x', '%', '\x7d']) := by
    rw [show "\x7b%if x%\x7d".toList = ['\x7b', '%', 'i', 'f', ' ', 'x', '%', '\x7d'] by
      decide +kernel]
    cbv
  have ends : plain (statementKeyword? "\x7b%endif%\x7d".toList) =
      some ("endif", ['%', '\x7d']) := by
    rw [show "\x7b%endif%\x7d".toList = ['\x7b', '%', 'e', 'n', 'd', 'i', 'f', '%', '\x7d'] by
      decide +kernel]
    cbv
  have closes : plain (tagEnd "%\x7d" ['%', '\x7d']) = .ok (false, []) := by cbv
  have block : Encloses "\x7b%if x%\x7d".toList "\x7b%endif%\x7d".toList
      fun body => .list [.branch (.var ["x"]) body []] :=
    .branch opens (by cbv) closes ⟨_, _, ⟨ends, by decide +kernel⟩, closes⟩
  obtain ⟨top, -, inside⟩ := trim_mark_drops_blanks_after tag clean
  have trimmed : trimStart " \n\x7b y " = "\x7b y " := by decide +kernel
  have after : textNodes "\x7b y ".toList = [.text "\x7b y "] := by simp [textNodes]
  rw [show startsComment "\x7b\x7b'-\x7d\x7d'-\x7d\x7d".toList = false by decide +kernel,
    if_neg Bool.false_ne_true, trimmed, after] at top
  have inside := inside _ _ _ block
  rw [trimmed, after] at inside
  exact ⟨⟨tag, clean, block⟩, top, inside⟩

/-- A comment at the top of a template, after which the blank stays. -/
theorem trim_mark_keeps_blank_after_comment :
    TrimmingTag "\x7b# c -#\x7d".toList none ∧ CleanText " x".toList ∧ trimStart " x" = "x" ∧
      parse ("\x7b# c -#\x7d" ++ " x") = .ok (.list [.text " x"]) := by
  refine ⟨⟨⟨("\x7b#", "#\x7d"), by decide, " c ".toList, ?_⟩,
    ⟨'\x7b', ['#', ' ', 'c', ' ', '-', '#', '\x7d'], true, by decide +kernel, by cbv⟩, rfl⟩,
    by decide +kernel, by decide +kernel, ?_⟩
  · rw [plain_tagStart?]
    decide +kernel
  · rw [Template.parse_eq]
    cbv

end TagCompiler.Template
