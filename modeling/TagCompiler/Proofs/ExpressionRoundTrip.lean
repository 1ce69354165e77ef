import TagCompiler.Proofs.SpelledLexemes
/-!
# Reading expressions that were written

Every expression reader gets back the tree that the text was written from, if what comes after the
text ends an expression of its level. The text decides itself at its left end: it starts with a
character of a value, and a name that it starts with is no name of an argument.
-/

namespace TagCompiler.Grammar

open Template Text

variable {σ : Style} {L : Lexicon} {s t m rest : List Char} {n : Node}

/-- Trees with leaves from the lexicon are read back when they are written in the style. -/
structure Style.Fits (σ : Style) (L : Lexicon) : Prop where
  isName_null : isName σ.null = true
  null : namedLiteral? σ.null = some .null
  literal : ∀ {n}, L.literal n → IsPrintableLiteral n
  path : ∀ {p}, L.path p → ∃ root more, p = root :: more ∧ isName root = true ∧ root ∉ reserved ∧
    ∀ part ∈ more, ReadsSegment (σ.segment part) part
  callee : ∀ {name}, L.callee name →
    name ≠ "caller" ∧ ∃ root more, IsDottedNames name root more ∧ root ∉ reserved

/-! ### Blanks in front of an expression -/

theorem negation?_congr (h : skipBlanks s = skipBlanks t) :
    plain (negation? s) = plain (negation? t) := by
  rw [plain_negation?, plain_negation?, h]

theorem operand_congr (h : skipBlanks s = skipBlanks t) : plain (operand s) = plain (operand t) := by
  rw [plain_operand, plain_operand, negation?_congr h, h]

theorem expression_congr (h : skipBlanks s = skipBlanks t) :
    plain (expression s) = plain (expression t) := by
  rw [plain_expression, plain_expression, operand_congr h]

theorem condition_congr (h : skipBlanks s = skipBlanks t) :
    plain (condition s) = plain (condition t) := by
  rw [plain_condition, plain_condition, expression_congr h]

theorem operators_congr (h : skipBlanks s = skipBlanks t) :
    plain (operators s) = plain (operators t) := by
  rw [plain_operators, plain_operators, plain_operator?, plain_operator?, h]

theorem connectives_congr (h : skipBlanks s = skipBlanks t) :
    plain (connectives s) = plain (connectives t) := by
  rw [plain_connectives, plain_connectives, plain_connective?, plain_connective?, h]

/-! ### The left end of an expression -/

/-- The characters that a value can start with. -/
def startsValue (c : Char) : Bool := isQuote c || isNameChar c || ['-', '(', '[', '\x7b'].contains c

/-- A value starts at the front of `s`. -/
def Opens (s : List Char) : Prop := ∃ c r, s = c :: r ∧ startsValue c = true

theorem Opens.avoids (h : Opens s) {cs : List Char}
    (hcs : cs.all (fun c => !startsValue c) = true) : Avoids cs s := by
  obtain ⟨c, r, rfl, value⟩ := h
  rintro d ⟨rfl⟩ mem
  have := List.all_eq_true.mp hcs c mem
  simp [value] at this

theorem Opens.skipBlanks (h : Opens s) : skipBlanks s = s := by
  obtain ⟨c, r, rfl, value⟩ := h
  refine skipBlanks_cons ?_ r
  simp only [startsValue, Bool.or_eq_true] at value
  rcases value with (quote | name) | sign
  · exact solid_of_isQuote quote
  · exact solid_of_isNameChar name
  · simp only [List.contains_iff_mem, List.mem_cons, List.not_mem_nil, or_false] at sign
    rcases sign with rfl | rfl | rfl | rfl <;> decide

/-- What comes after a name is not the value of an argument of that name. -/
def Unassigned (rest : List Char) : Prop :=
  plain (spaced? "=" rest) = none ∨ startsWith "==" (skipBlanks rest) = true

theorem unassigned_of_avoids (h : Avoids ['='] (skipBlanks s)) : Unassigned s :=
  .inl (h.spaced? (by decide))

theorem keywordArgument?_of_unassigned {name : String} (front : Fronts name s m)
    (hn : isName name = true) (ends : EndsName m) (h : Unassigned m) :
    plain (keywordArgument? s) = none := by
  rw [plain_keywordArgument?, plain_name?, front.name hn ends]
  show (if startsWith "==" (skipBlanks m) then none
    else plain (spaced? "=" m) >>= fun p => some (name, p.2)) = none
  split
  · rfl
  · rename_i notEqual
    rcases h with absent | equal
    · rw [absent]
      rfl
    · exact absurd equal notEqual

theorem keywordArgument?_of_head {c : Char} {r : List Char} (hs : skipBlanks s = c :: r)
    (start : isNameStart c = false) : plain (keywordArgument? s) = none := by
  have fails : (plain (nameHere (c :: r))).toOption = none := by
    unfold nameHere
    simp only [start, Bool.false_eq_true, ↓reduceDIte]
    split <;> rfl
  rw [plain_keywordArgument?, plain_name?, plain_name, hs, fails]
  rfl

structure Leads (s rest : List Char) : Prop where
  opens : Opens s
  unnamed : Unassigned rest → plain (keywordArgument? s) = none

/-- The left end of an operand that is not negated. -/
structure LeadsTerm (s rest : List Char) : Prop extends Leads s rest where
  noNot : plain (keyword? "not" s) = none

theorem opens_of_isName {name : String} (hn : isName name = true) (m : List Char) :
    Opens (name.toList ++ m) := by
  obtain ⟨c, v, hv, start⟩ := exists_cons_of_isName hn
  refine ⟨c, v ++ m, by rw [hv, List.cons_append], ?_⟩
  simp [startsValue, isNameChar_of_isNameStart start]

theorem leadsTerm_of_name {name : String} (hn : isName name = true) (ne : name ≠ "not")
    (ends : EndsName m) (h : Unassigned rest → Unassigned m) :
    LeadsTerm (name.toList ++ m) rest where
  opens := opens_of_isName hn m
  unnamed free := keywordArgument?_of_unassigned (skipBlanks_name hn m) hn ends (h free)
  noNot := keyword?_name hn ne ends (by decide)

theorem leadsTerm_of_head {c : Char} {r : List Char} (value : startsValue c = true)
    (start : isNameStart c = false) : LeadsTerm (c :: r) rest where
  opens := ⟨c, r, rfl, value⟩
  unnamed _ := by
    have opens : Opens (c :: r) := ⟨c, r, rfl, value⟩
    exact keywordArgument?_of_head opens.skipBlanks start
  noNot := by
    have avoids : Avoids ['n'] (c :: r) := by
      rintro d ⟨rfl⟩ mem
      rw [List.mem_singleton.mp mem] at start
      cases start
    exact avoids.keyword? (by decide)

theorem LeadsTerm.negation? (h : LeadsTerm s rest) : plain (negation? s) = none := by
  have noBang : Avoids ['!'] s := h.opens.avoids (by decide)
  rw [plain_negation?, h.opens.skipBlanks, h.noNot, noBang.startsWith (by decide),
    noBang.word? (by decide)]
  rfl

theorem unassigned_of_segments {segment : String → List Piece} {more : List String}
    (reads : ∀ part ∈ more, ReadsSegment (segment part) part)
    (h : Spells (more.flatMap segment) m rest) (free : Unassigned rest) : Unassigned m := by
  have avoids : ∀ {c r}, c ≠ '=' → isBlank c = false → Unassigned (c :: r) := by
    intro c r ne solid
    refine unassigned_of_avoids ?_
    rw [skipBlanks_cons solid]
    rintro d ⟨rfl⟩ mem
    exact ne (List.mem_singleton.mp mem)
  rcases opens_of_segments reads h with rfl | ⟨c, r, rfl, rfl | rfl⟩
  · exact free
  · exact avoids (by decide) (by decide)
  · exact avoids (by decide) (by decide)

theorem leadsTerm_of_path {root : String} {segment : String → List Piece} {more : List String}
    (hr : isName root = true) (free : root ∉ reserved)
    (reads : ∀ part ∈ more, ReadsSegment (segment part) part)
    (h : Spells (more.flatMap segment) m rest) (ends : EndsName rest) :
    LeadsTerm (root.toList ++ m) rest := by
  refine leadsTerm_of_name hr ?_ (endsName_of_segments reads h ends) (unassigned_of_segments reads h)
  rintro rfl
  exact free (by decide)

theorem startsValue_of_isQuote {q : Char} (h : isQuote q = true) :
    startsValue q = true ∧ isNameStart q = false := by
  simp only [isQuote, Bool.or_eq_true, beq_iff_eq] at h
  rcases h with rfl | rfl <;> decide

theorem startsValue_of_isDigit {c : Char} (h : isDigit c = true) :
    startsValue c = true ∧ isNameStart c = false := by
  refine ⟨by simp [startsValue, isNameChar_of_isDigit h], ?_⟩
  simp only [isDigit, Bool.and_eq_true, decide_eq_true_eq, Char.le_def,
    UInt32.le_iff_toNat_le] at h
  by_contra start
  simp only [isNameStart, Bool.not_eq_false, Bool.or_eq_true, Bool.and_eq_true, decide_eq_true_eq,
    beq_iff_eq, Char.le_def, UInt32.le_iff_toNat_le] at start
  have upper : c.val.toNat ≤ 57 := h.2
  rcases start with (⟨lower, -⟩ | ⟨lower, -⟩) | rfl
  · exact absurd (Nat.le_trans lower upper) (by decide)
  · exact absurd (Nat.le_trans lower upper) (by decide)
  · exact absurd upper (by decide)

theorem leadsTerm_signed (negative : Bool) {d : Char} {r : List Char} (digit : isDigit d = true) :
    LeadsTerm (sign negative ++ d :: r) rest := by
  cases negative with
  | true => exact leadsTerm_of_head (by decide) (by decide)
  | false => exact leadsTerm_of_head (startsValue_of_isDigit digit).1 (startsValue_of_isDigit digit).2

theorem IsPrintableLiteral.leads (fits : σ.Fits L) (h : IsPrintableLiteral n)
    (spelled : Spells (σ.expr n) s rest) (ends : EndsName rest) : LeadsTerm s rest := by
  cases h with
  | string v =>
    obtain ⟨_, quoted, rfl⟩ := spelled
    obtain ⟨⟨q, r, rfl, quote⟩, -⟩ := quoted_spelled quoted
    exact leadsTerm_of_head (startsValue_of_isQuote quote).1 (startsValue_of_isQuote quote).2
  | @int k lower upper =>
    obtain ⟨_, rfl, rfl⟩ := spelled
    rw [toList_toString_int]
    obtain ⟨d, ds, hd⟩ := List.exists_cons_of_ne_nil (Nat.toDigits_ne_nil (n := k.natAbs) (b := 10))
    have digit : isDigit d = true := isDigit_of_mem_toDigits (n := k.natAbs) (by simp [hd])
    rw [hd, List.append_assoc, List.cons_append]
    exact leadsTerm_signed _ digit
  | bool b =>
    obtain ⟨_, rfl, rfl⟩ := spelled
    cases b with
    | true => exact leadsTerm_of_name (by decide) (by decide) ends id
    | false => exact leadsTerm_of_name (by decide) (by decide) ends id
  | null =>
    obtain ⟨_, rfl, rfl⟩ := spelled
    refine leadsTerm_of_name fits.isName_null (fun same => ?_) ends id
    have null := fits.null
    rw [same] at null
    cases null

theorem endsName_of_paren (m : List Char) : EndsName ("(".toList ++ m) := by
  rintro c ⟨rfl⟩
  decide

theorem avoids_of_paren (m : List Char) : Avoids ['.', '['] ("(".toList ++ m) := by
  rintro c ⟨rfl⟩
  decide

theorem unassigned_of_paren (m : List Char) : Unassigned ("(".toList ++ m) := by
  refine unassigned_of_avoids ?_
  rintro c ⟨rfl⟩
  decide

theorem IsPrimary.leads (fits : σ.Fits L) (h : IsPrimary L n) (spelled : Spells (σ.expr n) s rest)
    (ends : EndsName rest) : LeadsTerm s rest := by
  cases h with
  | literal h => exact (fits.literal h).leads fits spelled ends
  | var h =>
    obtain ⟨root, more, rfl, hr, free, reads⟩ := fits.path h
    obtain ⟨m, rfl, spelled⟩ := spelled
    exact leadsTerm_of_path hr free reads spelled ends
  | yield =>
    rw [Style.expr] at spelled
    obtain ⟨_, rfl, m, rfl, -⟩ := spelled
    exact leadsTerm_of_name (by decide) (by decide) (endsName_of_paren m)
      fun _ => unassigned_of_paren m
  | call h =>
    obtain ⟨-, root, more, dotted, free⟩ := fits.callee h
    rw [Style.expr] at spelled
    obtain ⟨_, rfl, m, rfl, -⟩ := spelled
    obtain ⟨r, split, segments⟩ := spells_of_isDottedNames dotted ("(".toList ++ m)
    rw [split]
    have lead := leadsTerm_of_path dotted.2.1 free (fun part _ => readsSegment part) segments
      (endsName_of_paren m)
    exact ⟨⟨lead.opens, fun _ => lead.unnamed (unassigned_of_paren m)⟩, lead.noNot⟩
  | group h =>
    rw [Style.expr] at spelled
    obtain ⟨_, rfl, -⟩ := spelled
    exact leadsTerm_of_head (by decide) (by decide)
  | array h =>
    rw [Style.expr] at spelled
    obtain ⟨_, rfl, -⟩ := spelled
    exact leadsTerm_of_head (by decide) (by decide)
  | map h =>
    rw [Style.expr] at spelled
    obtain ⟨_, rfl, -⟩ := spelled
    exact leadsTerm_of_head (by decide) (by decide)

/-- After a filter sign no value of a name stands. -/
theorem unassigned_of_gap {w : String} (gap : Piece.gap.Spelled s m) (hm : m = w.toList ++ rest)
    (nonempty : w ≠ "") (solid : w.toList.head?.all (fun c => !isBlank c && c != '=') = true) :
    Unassigned s := by
  obtain ⟨c, v, hv⟩ := List.exists_cons_of_ne_nil (mt String.toList_eq_nil_iff.mp nonempty)
  rw [hv] at solid
  simp only [List.head?_cons, Option.all_some, Bool.and_eq_true, Bool.not_eq_true',
    bne_iff_ne] at solid
  refine unassigned_of_avoids ?_
  rw [Piece.skipBlanks_of_gap gap, hm, hv, List.cons_append, skipBlanks_cons solid.1]
  rintro d ⟨rfl⟩ mem
  exact solid.2 (List.mem_singleton.mp mem)

theorem IsTerm.leads (fits : σ.Fits L) {n : Node} (h : IsTerm L n) {s rest : List Char}
    (spelled : Spells (σ.expr n) s rest) (ends : EndsName rest) : LeadsTerm s rest := by
  cases h with
  | primary h => exact h.leads fits spelled ends
  | filtered _ hs _ =>
    rw [Style.expr, spells_append] at spelled
    obtain ⟨m, subject, _, gap, _, pipe, -⟩ := spelled
    have lead := hs.leads fits subject (endsName_of_gap gap)
    have free := unassigned_of_gap gap pipe (by decide) (by decide)
    exact ⟨⟨lead.opens, fun _ => lead.unnamed free⟩, lead.noNot⟩

theorem IsOperand.leads (fits : σ.Fits L) : {n : Node} → IsOperand L n → {s rest : List Char} →
    Spells (σ.expr n) s rest → EndsName rest → Leads s rest
  | _, .negated h, _, _, spelled, ends => by
    rw [Style.expr_expression, Style.chain_cons, Style.chain_nil, List.append_nil] at spelled
    obtain ⟨m, rfl, r, gap, spelled⟩ := spelled
    have opens := (h.leads fits spelled ends).opens
    have free : Unassigned m := by
      refine unassigned_of_avoids ?_
      rw [Piece.skipBlanks_of_gap gap, opens.skipBlanks]
      exact opens.avoids (by decide)
    refine ⟨⟨'n', _, rfl, by decide⟩, fun _ => ?_⟩
    exact keywordArgument?_of_unassigned (skipBlanks_name (n := "not") (by decide) m) (by decide)
      (endsName_of_gap gap) free
  | _, .term h, _, _, spelled, ends => (h.leads fits spelled ends).toLeads

/-- A chain goes on with a gap and a sign that is no `=`. -/
theorem IsOperated.unassigned {more : List Node} (h : IsOperated L more)
    (spelled : Spells (σ.chain more) s rest) (ends : EndsName rest) :
    EndsName s ∧ (Unassigned rest → Unassigned s) := by
  cases h with
  | nil =>
    cases spelled
    exact ⟨ends, id⟩
  | @cons op _ _ hop =>
    rw [Style.chain_cons, Style.expr] at spelled
    obtain ⟨m, gap, r, hm, -⟩ := spelled
    refine ⟨endsName_of_gap gap, fun _ => ?_⟩
    by_cases equal : op = "=="
    · refine .inr ?_
      rw [Piece.skipBlanks_of_gap gap, hm, equal]
      exact startsWith_append (by decide) r
    · have signs : ∀ op ∈ binaryOperators, op ≠ "==" → op ≠ "" ∧
          op.toList.head?.all (fun c => !isBlank c && c != '=') = true := by decide
      exact unassigned_of_gap gap hm (signs op hop equal).1 (signs op hop equal).2

theorem IsConnected.unassigned {more : List Node} (h : IsConnected L more)
    (spelled : Spells (σ.chain more) s rest) (ends : EndsName rest) :
    EndsName s ∧ (Unassigned rest → Unassigned s) := by
  cases h with
  | nil =>
    cases spelled
    exact ⟨ends, id⟩
  | cons hop =>
    rw [Style.chain_cons, Style.expr] at spelled
    obtain ⟨m, gap, r, hm, -⟩ := spelled
    refine ⟨endsName_of_gap gap, fun _ => ?_⟩
    rcases hop with rfl | rfl
    · exact unassigned_of_gap gap hm (by decide) (by decide)
    · exact unassigned_of_gap gap hm (by decide) (by decide)

theorem IsExpression.leads (fits : σ.Fits L) (h : IsExpression L n)
    (spelled : Spells (σ.expr n) s rest) (ends : EndsName rest) : Leads s rest := by
  cases h with
  | operand h => exact h.leads fits spelled ends
  | chain hn hm =>
    rw [Style.expr_expression, spells_append] at spelled
    obtain ⟨m, first, more⟩ := spelled
    obtain ⟨endsFirst, free⟩ := hm.unassigned more ends
    have lead := hn.leads fits first endsFirst
    exact ⟨lead.opens, fun h => lead.unnamed (free h)⟩

theorem IsCondition.leads (fits : σ.Fits L) (h : IsCondition L n)
    (spelled : Spells (σ.expr n) s rest) (ends : EndsName rest) : Leads s rest := by
  cases h with
  | expression h => exact h.leads fits spelled ends
  | chain hn hm =>
    rw [Style.expr_condition, spells_append] at spelled
    obtain ⟨m, first, more⟩ := spelled
    obtain ⟨endsFirst, free⟩ := hm.unassigned more ends
    have lead := hn.leads fits first endsFirst
    exact ⟨lead.opens, fun h => lead.unnamed (free h)⟩

/-! ### Signs between the members of a chain -/

/-- No blank is in the word. -/
def isSolid (w : String) : Bool := w.toList.all fun c => !isBlank c

/-- A word without blanks that stands before a gap ends before it. -/
theorem prefix_of_solid {w v : String} (h : w.toList <+: v.toList ++ m) (solid : isSolid w = true)
    (gap : Piece.gap.Spelled m rest) : w.toList <+: v.toList := by
  rcases List.prefix_or_prefix_of_prefix h (List.prefix_append v.toList m) with inside | ⟨u, hu⟩
  · exact inside
  · rw [← hu] at h ⊢
    cases u with
    | nil => simp
    | cons c u =>
      obtain ⟨b, r, rfl, blank⟩ := Piece.blank_of_gap gap
      obtain ⟨e, he⟩ := (List.prefix_append_right_inj v.toList).mp h
      cases he
      have := List.all_eq_true.mp solid c (by rw [← hu]; simp)
      rw [blank] at this
      cases this

theorem word?_before_gap {w v : String} (hw : ¬ w.toList <+: v.toList)
    (solid : isSolid w = true) (gap : Piece.gap.Spelled m rest) :
    plain (word? w (v.toList ++ m)) = none := by
  cases found : plain (word? w (v.toList ++ m)) with
  | none => rfl
  | some p =>
    obtain ⟨-, split⟩ := plain_word?_eq_some.mp found
    exact absurd (prefix_of_solid ⟨p.2, split.symm⟩ solid gap) hw

theorem startsWith_before_gap {w v : String} (hw : ¬ w.toList <+: v.toList)
    (solid : isSolid w = true) (gap : Piece.gap.Spelled m rest) :
    startsWith w (v.toList ++ m) = false := by
  have absent := word?_before_gap hw solid gap
  unfold startsWith
  cases found : word? w (v.toList ++ m) with
  | none => rfl
  | some x =>
    rw [found] at absent
    cases absent

theorem connective?_spelled {op : String} (hop : op = "and" ∨ op = "or")
    (front : Fronts op s m) (ends : EndsName m) : plain (connective? s) = some (op, m) := by
  rw [plain_connective?, front]
  rcases hop with rfl | rfl
  · rw [keyword?_append (by decide) ends]
    rfl
  · have other : Avoids ['a', '&'] ("or".toList ++ m) := by
      rintro c ⟨rfl⟩
      decide
    rw [keyword?_append (by decide) ends, other.keyword? (by decide), other.word? (by decide)]
    rfl

theorem operator?_spelled {op : String} (hop : op ∈ binaryOperators) (front : Fronts op s m)
    (gap : Piece.gap.Spelled m rest) : plain (operator? s) = some (op, m) := by
  have noEnd : ∀ op ∈ binaryOperators, ∀ w ∈ ["-\x7d\x7d", "-%\x7d", "%\x7d"],
      (¬ w.toList <+: op.toList) ∧ isSolid w = true := by decide
  have absent : ∀ w ∈ ["-\x7d\x7d", "-%\x7d", "%\x7d"], startsWith w (op.toList ++ m) = false :=
    fun w hw => startsWith_before_gap (noEnd op hop w hw).1 (noEnd op hop w hw).2 gap
  rw [plain_operator?, front, absent _ (by simp), absent _ (by simp), absent _ (by simp)]
  simp only [Bool.or_self, Bool.false_eq_true, if_false]
  rcases List.mem_cons.mp hop with rfl | hop
  · rw [keyword?_append (by decide) (endsName_of_gap gap)]
  · have heads : ∀ op ∈ operatorSigns, op ≠ "" ∧ ¬ "in".toList <+: op.toList := by decide
    have noIn : plain (keyword? "in" (op.toList ++ m)) = none := by
      rw [plain_keyword?, word?_before_gap (heads op hop).2 (by decide) gap]
      rfl
    -- a sign that starts with another one stands before it in the list
    have first : ∀ op ∈ operatorSigns,
        operatorSigns = operatorSigns.takeWhile (· != op) ++
          op :: (operatorSigns.dropWhile (· != op)).tail ∧
        ∀ w ∈ operatorSigns.takeWhile (· != op),
          (¬ w.toList <+: op.toList) ∧ isSolid w = true := by decide
    rw [noIn]
    obtain ⟨split, before⟩ := first op hop
    refine List.findSome?_eq_some_iff.mpr ⟨_, op, _, split, ?_, fun w hw => ?_⟩
    · rw [word?_append (heads op hop).1]
      rfl
    · rw [word?_before_gap (before w hw).1 (before w hw).2 gap]
      rfl

theorem skipBlanks_word {w : String} (nonempty : w ≠ "")
    (solid : w.toList.head?.all (fun c => !isBlank c) = true) (r : List Char) :
    skipBlanks (w.toList ++ r) = w.toList ++ r := by
  obtain ⟨c, v, hv⟩ := List.exists_cons_of_ne_nil (mt String.toList_eq_nil_iff.mp nonempty)
  rw [hv] at solid ⊢
  rw [List.cons_append, skipBlanks_cons (by simpa using solid)]

theorem fronts_of_gap {w : String} (gap : Piece.gap.Spelled s m) (hm : m = w.toList ++ rest)
    (nonempty : w ≠ "") (solid : w.toList.head?.all (fun c => !isBlank c) = true) :
    Fronts w s rest := by
  rw [Fronts, Piece.skipBlanks_of_gap gap, hm, skipBlanks_word nonempty solid]

theorem binaryOperators_solid : ∀ op ∈ binaryOperators, op ≠ "" ∧
    op.toList.head?.all (fun c => !isBlank c) = true := by decide

theorem IsOperated.endsOperand {more : List Node} (h : IsOperated L more)
    (spelled : Spells (σ.chain more) s rest) (ends : EndsExpression rest) : EndsOperand s := by
  cases h with
  | nil =>
    cases spelled
    exact ends.toEndsOperand
  | @cons op _ _ hop =>
    rw [Style.chain_cons, Style.expr] at spelled
    obtain ⟨m, gap, r, hm, -⟩ := spelled
    have front := fronts_of_gap gap hm (binaryOperators_solid op hop).1 (binaryOperators_solid op hop).2
    have heads : ∀ op ∈ binaryOperators,
        op.toList.head?.all (fun c => !(['(', '|'].contains c)) = true := by decide
    have avoids := front.avoids (binaryOperators_solid op hop).1 (heads op hop)
    have args : Avoids ['('] (skipBlanks s) := fun c hc mem => avoids c hc (by simp_all)
    have pipe : Avoids ['|'] (skipBlanks s) := fun c hc mem => avoids c hc (by simp_all)
    exact ⟨breaks_of_gap gap (Piece.skipBlanks_of_gap gap ▸ args), pipe.pipe?⟩

theorem IsConnected.endsExpression {more : List Node} (h : IsConnected L more)
    (spelled : Spells (σ.chain more) s rest) (ends : EndsCondition rest) : EndsExpression s := by
  cases h with
  | nil =>
    cases spelled
    exact ends.toEndsExpression
  | @cons op _ _ hop =>
    rw [Style.chain_cons, Style.expr] at spelled
    obtain ⟨m, gap, r, hm, -⟩ := spelled
    have words : op ≠ "" ∧ op.toList.head?.all (fun c => !isBlank c) = true ∧
        op.toList.head?.all (fun c => !('(' :: '|' :: operatorHeads).contains c) = true := by
      rcases hop with rfl | rfl <;> decide
    have front := fronts_of_gap gap hm words.1 words.2.1
    have avoids := front.avoids words.1 words.2.2
    have args : Avoids ['('] (skipBlanks s) := fun c hc mem => avoids c hc (by simp_all)
    have pipe : Avoids ['|'] (skipBlanks s) := fun c hc mem => avoids c hc (by simp_all)
    have signs : Avoids operatorHeads (skipBlanks s) :=
      fun c hc mem => avoids c hc (List.mem_cons_of_mem _ (List.mem_cons_of_mem _ mem))
    exact ⟨⟨breaks_of_gap gap (Piece.skipBlanks_of_gap gap ▸ args), pipe.pipe?⟩, signs.operator?⟩

/-! ### Lists -/

/-- `f` reads elements with commas between them, up to `closer`. -/
def ReadsList (closer : String) (elem : List Char → Except Failure (Node × List Char))
    (f : List Char → Except Failure (List Node × List Char)) : Prop :=
  ∀ s, f s = match plain (spaced? closer s) with
    | some (_, r) => .ok ([], r)
    | none => do
      let (a, r) ← elem s
      match plain (spaced? "," r) with
      | some (_, r) =>
        let (more, r) ← f r
        return (a :: more, r)
      | none =>
        let (_, r) ← plain (demandSpaced closer r)
        return ([a], r)

/-- The element `n` is read back from the pieces `ps`, also with blanks before it. Blanks after it
may be left over. -/
def ReadsBack (elem : List Char → Except Failure (Node × List Char)) (ps : List Piece) (n : Node) :
    Prop :=
  ∀ {s rest : List Char}, Spells (.pad :: ps) s rest → EndsCondition rest →
    Opens (skipBlanks s) ∧ ∃ r, skipBlanks r = skipBlanks rest ∧ elem s = .ok (n, r)

theorem commaSeparated_cons_cons (x y : List Piece) (xs : List (List Piece)) :
    commaSeparated (x :: y :: xs) =
      x ++ ([.pad, .word ",", .gap] ++ commaSeparated (y :: xs)) := rfl

theorem spells_pad_pad {ps : List Piece} (h : Spells (.pad :: .pad :: ps) s rest) :
    Spells (.pad :: ps) s rest := by
  obtain ⟨_, ⟨b, blank, rfl⟩, _, ⟨d, blank', rfl⟩, h⟩ := h
  refine ⟨_, ⟨b ++ d, ?_, by rw [List.append_assoc]⟩, h⟩
  intro c hc
  rcases List.mem_append.mp hc with hc | hc
  · exact blank c hc
  · exact blank' c hc

theorem spells_pad_append {ps qs : List Piece} (h : Spells (.pad :: (ps ++ qs)) s rest) :
    ∃ m, Spells (.pad :: ps) s m ∧ Spells qs m rest :=
  spells_append.mp (show Spells ((.pad :: ps) ++ qs) s rest from h)

theorem ReadsList.spelled {closer : String} {elem : List Char → Except Failure (Node × List Char)}
    {f : List Char → Except Failure (List Node × List Char)} (reads : ReadsList closer elem f)
    (hc : closer ∈ [")", "]", "\x7d"]) {pieces : Node → List Piece} {ns : List Node}
    (elements : ∀ n ∈ ns, ReadsBack elem (pieces n) n)
    (spelled : Spells (.pad :: (commaSeparated (ns.map pieces) ++ [.pad, .word closer])) s rest) :
    f s = .ok (ns, rest) := by
  have closes : ∀ w ∈ [")", "]", "\x7d"], w ≠ "" ∧ w ∈ closers ∧
      ∃ c ∈ w.toList.head?, isBlank c = false ∧ startsValue c = false ∧ c ≠ ',' := by
    simp [closers, isBlank, startsValue, isQuote, isNameChar, isNameStart, isDigit]
  obtain ⟨nonempty, isCloser, c, head, solid, notValue, notComma⟩ := closes closer hc
  induction ns generalizing s with
  | nil =>
    have front := fronts_of_pad head solid (spells_pad_pad spelled)
    rw [reads, front.spaced? nonempty]
  | cons n ns ih =>
    obtain ⟨hn, elements⟩ := List.forall_mem_cons.mp elements
    have absent : Opens (skipBlanks s) → plain (spaced? closer s) = none := by
      intro opens
      have avoids : Avoids [c] (skipBlanks s) := opens.avoids (by simp [notValue])
      exact avoids.spaced? (by simp [Option.mem_def.mp head])
    cases ns with
    | nil =>
      obtain ⟨m, first, close⟩ := spells_pad_append spelled
      have front := fronts_of_pad head solid close
      obtain ⟨opens, r, blanks, read⟩ := hn first (endsCondition_of_closer isCloser front)
      have front' : Fronts closer r rest := blanks.trans front
      have noComma : plain (spaced? "," r) = none := by
        have avoids : Avoids [','] (skipBlanks r) :=
          front'.avoids nonempty (by simp [Option.mem_def.mp head, notComma])
        exact avoids.spaced? (by decide)
      rw [reads, absent opens]
      refine ok_bind read ?_
      dsimp only
      rw [noComma]
      exact ok_bind (front'.demandSpaced nonempty) rfl
    | cons n' ns =>
      rw [List.map_cons, List.map_cons, commaSeparated_cons_cons, List.append_assoc,
        List.append_assoc] at spelled
      obtain ⟨m, first, more⟩ := spells_pad_append spelled
      obtain ⟨m₁, pad, m₂, comma, m₃, gap, more⟩ := more
      have front : Fronts "," m m₂ := fronts_of_pad rfl (by decide) ⟨m₁, pad, m₂, comma, rfl⟩
      obtain ⟨opens, r, blanks, read⟩ := hn first (endsCondition_of_closer (by decide) front)
      have front' : Fronts "," r m₂ := blanks.trans front
      rw [reads, absent opens]
      refine ok_bind read ?_
      dsimp only
      rw [front'.spaced? (by decide)]
      exact ok_bind (ih elements ⟨m₃, Piece.pad_of_gap gap, more⟩) rfl

theorem readsList_arguments :
    ReadsList ")" (fun s => plain (argument s)) (fun s => plain (arguments s)) := plain_arguments

theorem readsList_items :
    ReadsList "]" (fun s => plain (condition s)) (fun s => plain (items s)) := plain_items

/-- An entry of a map. -/
def readEntry (s : List Char) : Except Failure (Node × List Char) := do
  let (key, r) ← plain (mapKey s)
  let (_, r) ← plain (demandSpaced ":" r)
  let (e, r) ← plain (condition r)
  return (.named key e, r)

theorem readsList_entries : ReadsList "\x7d" readEntry (fun s => plain (entries s)) := by
  intro s
  refine (plain_entries s).trans ?_
  cases plain (spaced? "\x7d" s) with
  | some p => rfl
  | none =>
    unfold readEntry
    rcases plain (mapKey s) with f | ⟨key, r⟩
    · rfl
    · show (plain (demandSpaced ":" r) >>= _) = (plain (demandSpaced ":" r) >>= _) >>= _
      rcases plain (demandSpaced ":" r) with f | ⟨u, r⟩
      · rfl
      · show (plain (condition r) >>= _) = (plain (condition r) >>= _) >>= _
        rcases plain (condition r) with f | ⟨e, r⟩ <;> rfl

/-! ### Expressions -/

theorem reference_literal {w : String} {e : Node} (hw : isName w = true)
    (literal : namedLiteral? w = some e) (ends : EndsName rest) :
    plain (reference (w.toList ++ rest)) = .ok (e, rest) := by
  rw [plain_reference]
  refine ok_bind (nameHere_append hw ends) ?_
  dsimp only
  rw [literal]
  rfl

theorem namedLiteral?_of_free {root : String} (free : root ∉ reserved) :
    namedLiteral? root = none := by
  unfold namedLiteral?
  split
  all_goals first | exact absurd (by decide) free | rfl

/-- A name at the front is read as a reference. -/
theorem primary_name {w : String} (hw : isName w = true) (r : List Char) :
    plain (primary (w.toList ++ r)) = plain (reference (w.toList ++ r)) := by
  obtain ⟨c, v, hv, start⟩ := exists_cons_of_isName hw
  rw [hv, List.cons_append]
  have ne : ∀ d, isNameStart d = false → c ≠ d := by
    rintro d notStart rfl
    rw [start] at notStart
    cases notStart
  have notDigit : isDigit c = false := by
    by_contra digit
    rw [(startsValue_of_isDigit (by simpa using digit)).2] at start
    cases start
  have notQuote : isQuote c = false := by
    simp [isQuote, ne '"' (by decide), ne '\'' (by decide)]
  have notNumber : number? (c :: (v ++ r)) = none := number?_other notDigit (ne '-' (by decide))
  rw [plain_primary_other (ne _ (by decide)) (ne _ (by decide)) (ne _ (by decide)), notNumber]
  simp [notQuote, start]

theorem primary_number {c : Char} {r : List Char} {x : Except Failure (Node × List Char)}
    (head : isDigit c = true ∨ c = '-') (h : (number? (c :: r)).map plain = some x) :
    plain (primary (c :: r)) = x := by
  have ne : ∀ d, isDigit d = false → d ≠ '-' → c ≠ d := by
    rintro d notDigit notMinus rfl
    rcases head with digit | minus
    · rw [digit] at notDigit
      cases notDigit
    · exact notMinus minus
  have notQuote : isQuote c = false := by
    simp [isQuote, ne '"' (by decide) (by decide), ne '\'' (by decide) (by decide)]
  obtain ⟨y, hy, rfl⟩ := Option.map_eq_some_iff.mp h
  rw [plain_primary_other (ne _ (by decide) (by decide)) (ne _ (by decide) (by decide))
    (ne _ (by decide) (by decide)), notQuote, hy]
  rfl

theorem primary_signed (negative : Bool) {d : Char} {r : List Char} (digit : isDigit d = true)
    {x : Except Failure (Node × List Char)}
    (h : (number? (sign negative ++ d :: r)).map plain = some x) :
    plain (primary (sign negative ++ d :: r)) = x := by
  cases negative with
  | true => exact primary_number (.inr rfl) h
  | false => exact primary_number (.inl digit) h

theorem IsPrintableLiteral.read (fits : σ.Fits L) (h : IsPrintableLiteral n)
    (spelled : Spells (σ.expr n) s rest) (breaks : Breaks rest) : plain (primary s) = .ok (n, rest) := by
  cases h with
  | string v =>
    obtain ⟨_, quoted, rfl⟩ := spelled
    obtain ⟨⟨q, r, rfl, quote⟩, read⟩ := quoted_spelled quoted
    have ne : ∀ d, isQuote d = false → q ≠ d := by
      rintro d notQuote rfl
      rw [quote] at notQuote
      cases notQuote
    rw [plain_primary_other (ne _ (by decide)) (ne _ (by decide)) (ne _ (by decide)), if_pos quote]
    exact ok_bind read rfl
  | @int k lower upper =>
    obtain ⟨_, rfl, rfl⟩ := spelled
    have read := number_spelled lower upper breaks
    obtain ⟨d, ds, hd⟩ := List.exists_cons_of_ne_nil (Nat.toDigits_ne_nil (n := k.natAbs) (b := 10))
    have digit : isDigit d = true := isDigit_of_mem_toDigits (n := k.natAbs) (by simp [hd])
    rw [toList_toString_int, hd, List.append_assoc, List.cons_append] at read ⊢
    exact primary_signed _ digit read
  | bool b =>
    obtain ⟨_, rfl, rfl⟩ := spelled
    cases b with
    | true =>
      rw [primary_name (by decide)]
      exact reference_literal (by decide) rfl breaks.endsName
    | false =>
      rw [primary_name (by decide)]
      exact reference_literal (by decide) rfl breaks.endsName
  | null =>
    obtain ⟨_, rfl, rfl⟩ := spelled
    rw [primary_name fits.isName_null]
    exact reference_literal fits.isName_null fits.null breaks.endsName

theorem callOrYield_of_ne {path : List String} {name : String} {args : List Node}
    (joined : name = ".".intercalate path) (ne : name ≠ "caller") :
    callOrYield path args = .call name (.parameters args) [] := by
  unfold callOrYield
  dsimp only
  rw [← joined, if_neg ne]

theorem keywordArgument?_congr (h : skipBlanks s = skipBlanks t) :
    plain (keywordArgument? s) = plain (keywordArgument? t) := by
  rw [plain_keywordArgument?, plain_keywordArgument?, plain_name?, plain_name?, plain_name,
    plain_name, h]

theorem keywordArgument?_spelled {name : String} {value : List Char} (front : Fronts name s m)
    (hn : isName name = true) (assign : Fronts "=" m t) (pad : Piece.pad.Spelled t value)
    (opens : Opens value) : plain (keywordArgument? s) = some (name, t) := by
  have ends : EndsName m := by
    refine endsName_of_skipBlanks ?_
    rw [assign]
    rintro c ⟨rfl⟩
    decide
  have single : startsWith "==" (skipBlanks m) = false := by
    have value' : Avoids ['='] (skipBlanks t) := by
      rw [Piece.skipBlanks_of_pad pad, opens.skipBlanks]
      exact opens.avoids (by decide)
    rw [assign, ← Bool.not_eq_true, startsWith_iff (by decide)]
    rintro ⟨r, hr⟩
    cases hr
    exact value'.of_skipBlanks (by decide) '=' rfl (by simp)
  rw [plain_keywordArgument?, plain_name?, front.name hn ends]
  show (if startsWith "==" (skipBlanks m) then none
    else plain (spaced? "=" m) >>= fun p => some (name, p.2)) = _
  rw [single, assign.spaced? (by decide)]
  rfl

theorem pipe?_spelled (front : Fronts "|" s m) (gap : Piece.gap.Spelled m rest) :
    plain (pipe? s) = some ((), m) := by
  have single : startsWith "||" ("|".toList ++ m) = false :=
    startsWith_before_gap (by decide) (by decide) gap
  rw [plain_pipe?, front, single, word?_append (by decide)]
  rfl

theorem fronts_of_name {name : String} (gap : Piece.gap.Spelled s m) (hm : m = name.toList ++ rest)
    (hn : isName name = true) : Fronts name s rest := by
  rw [Fronts, Piece.skipBlanks_of_gap gap, hm, skipBlanks_name hn]

theorem Breaks.noCall (h : Breaks rest) : plain (word? "(" rest) = none := by
  exact (h.noArguments.of_skipBlanks (by decide)).word? (by decide)

theorem filterArguments_cases {args : List (List Piece)} {P : Prop}
    (h : Spells (filterArguments args) s rest) (none : args = [] → s = rest → P)
    (some : ∀ m, s = "(".toList ++ m →
      Spells (.pad :: (commaSeparated args ++ [.pad, .word ")"])) m rest → P) : P := by
  unfold filterArguments at h
  split at h
  · rename_i empty
    exact none (List.isEmpty_iff.mp empty) h
  · obtain ⟨m, hm, h⟩ := h
    exact some m hm h

mutual

theorem condition_styled (fits : σ.Fits L) : {n : Node} → IsCondition L n → {s rest : List Char} →
    Spells (σ.expr n) s rest → EndsCondition rest →
    plain (condition s) = .ok (n, skipBlanks rest)
  | _, .expression h, _, rest, spelled, ends => by
    have noMore : plain (connectives (skipBlanks rest)) = .ok ([], skipBlanks rest) := by
      rw [connectives_congr (skipBlanks_skipBlanks rest), plain_connectives, ends.noConnective]
    rw [plain_condition]
    exact ok_bind (expression_styled fits h spelled ends.toEndsExpression) (ok_bind noMore rfl)
  | _, .chain hn hm nonempty, _, rest, spelled, ends => by
    rw [Style.expr_condition, spells_append] at spelled
    obtain ⟨m, first, more⟩ := spelled
    have read := connectives_styled fits hm more ends
    rw [← connectives_congr (skipBlanks_skipBlanks m)] at read
    rw [plain_condition]
    refine ok_bind (expression_styled fits hn first (hm.endsExpression more ends)) (ok_bind read ?_)
    simp [chain, nonempty]
    rfl

theorem connectives_styled (fits : σ.Fits L) : {more : List Node} → IsConnected L more →
    {s rest : List Char} → Spells (σ.chain more) s rest → EndsCondition rest →
    plain (connectives s) = .ok (more, skipBlanks rest)
  | _, .nil, _, _, spelled, ends => by
    cases spelled
    rw [plain_connectives, ends.noConnective]
  | _, .cons hop hn hm, _, _, spelled, ends => by
    rw [Style.chain_cons, Style.chain_cons, Style.expr] at spelled
    obtain ⟨m₁, gap₁, m₂, word, m₃, gap₂, spelled⟩ := spelled
    obtain ⟨m, first, more⟩ := spells_append.mp spelled
    have front : Fronts _ _ _ := fronts_of_gap gap₁ word (by rcases hop with rfl | rfl <;> decide)
      (by rcases hop with rfl | rfl <;> decide)
    have read := expression_styled fits hn first (hm.endsExpression more ends)
    rw [← expression_congr (Piece.skipBlanks_of_gap gap₂)] at read
    have rest := connectives_styled fits hm more ends
    rw [← connectives_congr (skipBlanks_skipBlanks m)] at rest
    rw [plain_connectives, connective?_spelled hop front (endsName_of_gap gap₂)]
    exact ok_bind read (ok_bind rest rfl)

theorem expression_styled (fits : σ.Fits L) : {n : Node} → IsExpression L n → {s rest : List Char} →
    Spells (σ.expr n) s rest → EndsExpression rest →
    plain (expression s) = .ok (n, skipBlanks rest)
  | _, .operand h, _, rest, spelled, ends => by
    have noMore : plain (operators (skipBlanks rest)) = .ok ([], skipBlanks rest) := by
      rw [operators_congr (skipBlanks_skipBlanks rest), plain_operators, ends.noOperator]
    rw [plain_expression]
    exact ok_bind (operand_styled fits h spelled ends.toEndsOperand) (ok_bind noMore rfl)
  | _, .chain hn hm nonempty, _, rest, spelled, ends => by
    rw [Style.expr_expression, spells_append] at spelled
    obtain ⟨m, first, more⟩ := spelled
    have read := operators_styled fits hm more ends
    rw [← operators_congr (skipBlanks_skipBlanks m)] at read
    rw [plain_expression]
    refine ok_bind (operand_styled fits hn first (hm.endsOperand more ends)) (ok_bind read ?_)
    simp [chain, nonempty]
    rfl

theorem operators_styled (fits : σ.Fits L) : {more : List Node} → IsOperated L more →
    {s rest : List Char} → Spells (σ.chain more) s rest → EndsExpression rest →
    plain (operators s) = .ok (more, skipBlanks rest)
  | _, .nil, _, _, spelled, ends => by
    cases spelled
    rw [plain_operators, ends.noOperator]
  | _, .cons hop hn hm, _, _, spelled, ends => by
    rw [Style.chain_cons, Style.chain_cons, Style.expr] at spelled
    obtain ⟨m₁, gap₁, m₂, word, m₃, gap₂, spelled⟩ := spelled
    obtain ⟨m, first, more⟩ := spells_append.mp spelled
    have front : Fronts _ _ _ := fronts_of_gap gap₁ word (binaryOperators_solid _ hop).1
      (binaryOperators_solid _ hop).2
    have read := operand_styled fits hn first (hm.endsOperand more ends)
    rw [← operand_congr (Piece.skipBlanks_of_gap gap₂)] at read
    have rest := operators_styled fits hm more ends
    rw [← operators_congr (skipBlanks_skipBlanks m)] at rest
    rw [plain_operators, operator?_spelled hop front gap₂]
    exact ok_bind read (ok_bind rest rfl)

theorem operand_styled (fits : σ.Fits L) : {n : Node} → IsOperand L n → {s rest : List Char} →
    Spells (σ.expr n) s rest → EndsOperand rest → plain (operand s) = .ok (n, skipBlanks rest)
  | _, .negated h, _, rest, spelled, ends => by
    rw [Style.expr_expression, Style.chain_cons, Style.chain_nil, List.append_nil] at spelled
    obtain ⟨m, rfl, r, gap, spelled⟩ := spelled
    have read := operand_styled fits h spelled ends
    rw [← operand_congr (Piece.skipBlanks_of_gap gap)] at read
    have found : plain (negation? ("not".toList ++ m)) = some ((), m) := by
      rw [plain_negation?, skipBlanks_name (n := "not") (by decide),
        keyword?_append (by decide) (endsName_of_gap gap)]
    rw [plain_operand, found]
    exact ok_bind read rfl
  | _, .term h, s, rest, spelled, ends => by
    have lead := h.leads fits spelled ends.endsName
    rw [plain_operand, lead.negation?]
    dsimp only
    rw [lead.opens.skipBlanks, term_styled fits h spelled ends.toBreaks, plain_filters, ends.noFilter]

theorem term_styled (fits : σ.Fits L) : {n : Node} → IsTerm L n → {s rest : List Char} →
    Spells (σ.expr n) s rest → Breaks rest →
    (plain (primary s) >>= fun p => plain (filters p.1 p.2)) = plain (filters n rest)
  | _, .primary h, _, _, spelled, breaks => ok_bind (primary_styled fits h spelled breaks) rfl
  | _, .filtered hn hs ha, _, _, spelled, breaks => by
    rw [Style.expr, Style.arguments_eq_map, spells_append] at spelled
    obtain ⟨m, subject, m₁, gap₁, m₂, pipe, m₃, gap₂, m₄, word, args⟩ := spelled
    have front := fronts_of_gap gap₁ pipe (by decide) (by decide)
    have noArgs : Avoids ['('] (skipBlanks m) := front.avoids (by decide) (by decide)
    rw [term_styled fits hs subject (breaks_of_gap gap₁ (Piece.skipBlanks_of_gap gap₁ ▸ noArgs)),
      plain_filters, pipe?_spelled front gap₂]
    have name : Fronts _ m₂ m₄ := fronts_of_name gap₂ word hn
    refine filterArguments_cases args ?_ ?_
    · rintro empty rfl
      cases List.map_eq_nil_iff.mp empty
      refine ok_bind (name.name hn breaks.endsName) ?_
      dsimp only
      rw [breaks.noArguments.spaced? (by decide)]
    · rintro m₅ rfl args
      refine ok_bind (name.name hn (endsName_of_paren m₅)) ?_
      dsimp only
      have opener : Fronts "(" ("(".toList ++ m₅) m₅ := skipBlanks_word (by decide) (by decide) m₅
      rw [opener.spaced? (by decide)]
      exact ok_bind (readsList_arguments.spelled (by decide) (arguments_styled fits ha) args) rfl

theorem primary_styled (fits : σ.Fits L) : {n : Node} → IsPrimary L n → {s rest : List Char} →
    Spells (σ.expr n) s rest → Breaks rest → plain (primary s) = .ok (n, rest)
  | _, .literal h, _, _, spelled, breaks => (fits.literal h).read fits spelled breaks
  | _, .var h, _, _, spelled, breaks => by
    obtain ⟨root, more, rfl, hr, free, reads⟩ := fits.path h
    obtain ⟨m, rfl, segments⟩ := spelled
    rw [primary_name hr, plain_reference]
    refine ok_bind (nameHere_append hr (endsName_of_segments reads segments breaks.endsName)) ?_
    dsimp only
    rw [namedLiteral?_of_free free]
    refine ok_bind (pathTail_spelled reads segments breaks.endsName breaks.noPath) ?_
    dsimp only
    rw [breaks.noCall]
    rfl
  | _, .yield _, _, _, spelled, _ => by
    rw [Style.expr] at spelled
    obtain ⟨_, rfl, m, rfl, args⟩ := spelled
    have elements : ∀ a ∈ ([] : List Node),
        ReadsBack (fun s => plain (argument s)) (σ.argument a) a := by simp
    have noArguments := readsList_arguments.spelled (by decide) elements args
    rw [primary_name (by decide), plain_reference]
    refine ok_bind (nameHere_append (by decide) (endsName_of_paren m)) ?_
    refine ok_bind (pathTail_end (avoids_of_paren m)) ?_
    dsimp only
    rw [word?_append (by decide)]
    exact ok_bind noArguments rfl
  | _, .call h ha, _, _, spelled, _ => by
    obtain ⟨notCaller, root, more, dotted, free⟩ := fits.callee h
    have reads : ∀ part ∈ more, ReadsSegment (segmentPieces part) part := fun part _ => readsSegment part
    rw [Style.expr, Style.arguments_eq_map] at spelled
    obtain ⟨_, rfl, m, rfl, args⟩ := spelled
    obtain ⟨r, split, segments⟩ := spells_of_isDottedNames dotted ("(".toList ++ m)
    have ends := endsName_of_paren m
    rw [split, primary_name dotted.2.1, plain_reference]
    refine ok_bind (nameHere_append dotted.2.1 (endsName_of_segments reads segments ends)) ?_
    dsimp only
    rw [namedLiteral?_of_free free]
    refine ok_bind (pathTail_spelled reads segments ends (avoids_of_paren m)) ?_
    dsimp only
    rw [word?_append (by decide)]
    refine ok_bind (readsList_arguments.spelled (by decide) (arguments_styled fits ha) args) ?_
    rw [← callOrYield_of_ne dotted.1 notCaller]
    rfl
  | _, .group h, _, _, spelled, _ => by
    rw [Style.expr, Style.exprs_eq_map] at spelled
    obtain ⟨m, rfl, spelled⟩ := spelled
    change Spells (.pad :: (σ.expr _ ++ [.pad, .word ")"])) m _ at spelled
    obtain ⟨r, ⟨t, pad, inner⟩, close⟩ := spells_pad_append spelled
    have front := fronts_of_pad rfl (by decide) close
    have read := condition_styled fits h inner (endsCondition_of_closer (by decide) front)
    rw [← condition_congr (Piece.skipBlanks_of_pad pad)] at read
    rw [show "(".toList ++ m = '(' :: m from rfl, plain_primary_group]
    exact ok_bind read (ok_bind (front.afterBlanks.demandSpaced (by decide)) rfl)
  | _, .array h, _, _, spelled, _ => by
    rw [Style.expr, Style.exprs_eq_map] at spelled
    obtain ⟨m, rfl, spelled⟩ := spelled
    rw [show "[".toList ++ m = '[' :: m from rfl, plain_primary_array]
    exact ok_bind (readsList_items.spelled (by decide) (items_styled fits h) spelled) rfl
  | _, .map h, _, _, spelled, _ => by
    rw [Style.expr, Style.entries_eq_map] at spelled
    obtain ⟨m, rfl, spelled⟩ := spelled
    rw [show "\x7b".toList ++ m = '\x7b' :: m from rfl, plain_primary_map]
    exact ok_bind (readsList_entries.spelled (by decide) (entries_styled fits h) spelled) rfl

theorem arguments_styled (fits : σ.Fits L) : {args : List Node} → IsArguments L args →
    ∀ a ∈ args, ReadsBack (fun s => plain (argument s)) (σ.argument a) a
  | _, .nil => by simp
  | _, .positional hn hm => by
    refine List.forall_mem_cons.mpr ⟨?_, arguments_styled fits hm⟩
    rintro s rest ⟨m, pad, spelled⟩ ends
    have blanks := Piece.skipBlanks_of_pad pad
    have lead := hn.leads fits spelled ends.endsName
    have unnamed : plain (keywordArgument? s) = none := by
      rw [keywordArgument?_congr blanks]
      exact lead.unnamed (.inl ends.noValue)
    refine ⟨by rw [blanks, lead.opens.skipBlanks]; exact lead.opens, _, skipBlanks_skipBlanks rest, ?_⟩
    dsimp only
    rw [plain_argument, unnamed]
    exact ok_bind ((condition_congr blanks).trans (condition_styled fits hn spelled ends)) rfl
  | _, @IsArguments.named _ x _ _ hx hn hm => by
    refine List.forall_mem_cons.mpr ⟨?_, arguments_styled fits hm⟩
    rintro s rest ⟨m, pad, m₁, word, m₂, pad₁, m₃, equal, m₄, pad₂, spelled⟩ ends
    have opens := (hn.leads fits spelled ends.endsName).opens
    have name : Fronts x s m₁ := by
      rw [Fronts, Piece.skipBlanks_of_pad pad, word, skipBlanks_name hx]
    have value : Fronts "=" m₁ m₃ := fronts_of_pad rfl (by decide) ⟨m₂, pad₁, m₃, equal, rfl⟩
    refine ⟨name ▸ opens_of_isName hx m₁, _, skipBlanks_skipBlanks rest, ?_⟩
    dsimp only
    rw [plain_argument, keywordArgument?_spelled name hx value pad₂ opens]
    have read := condition_styled fits hn spelled ends
    rw [← condition_congr (Piece.skipBlanks_of_pad pad₂)] at read
    exact ok_bind read rfl

theorem items_styled (fits : σ.Fits L) : {items : List Node} → IsItems L items →
    ∀ n ∈ items, ReadsBack (fun s => plain (condition s)) (σ.expr n) n
  | _, .nil => by simp
  | _, .cons hn hm => by
    refine List.forall_mem_cons.mpr ⟨?_, items_styled fits hm⟩
    rintro s rest ⟨m, pad, spelled⟩ ends
    have blanks := Piece.skipBlanks_of_pad pad
    have opens := (hn.leads fits spelled ends.endsName).opens
    refine ⟨by rw [blanks, opens.skipBlanks]; exact opens, _, skipBlanks_skipBlanks rest, ?_⟩
    exact (condition_congr blanks).trans (condition_styled fits hn spelled ends)

theorem entries_styled (fits : σ.Fits L) : {entries : List Node} → IsEntries L entries →
    ∀ e ∈ entries, ReadsBack readEntry (σ.entry e) e
  | _, .nil => by simp
  | _, @IsEntries.cons _ key _ _ hn hm => by
    refine List.forall_mem_cons.mpr ⟨?_, entries_styled fits hm⟩
    rintro s rest ⟨m, pad, m₁, quoted, m₂, pad₁, m₃, colon, m₄, gap, spelled⟩ ends
    obtain ⟨⟨q, r, rfl, quote⟩, read⟩ := quoted_spelled quoted
    have front : skipBlanks s = q :: r := by
      rw [Piece.skipBlanks_of_pad pad, skipBlanks_cons (solid_of_isQuote quote)]
    refine ⟨⟨q, r, front, (startsValue_of_isQuote quote).1⟩, _, skipBlanks_skipBlanks rest, ?_⟩
    have found : plain (mapKey s) = .ok (key, m₁) := by
      rw [plain_mapKey, front, if_pos (by simpa using quote), read]
    have value : Fronts ":" m₁ m₃ := fronts_of_pad rfl (by decide) ⟨m₂, pad₁, m₃, colon, rfl⟩
    have read := condition_styled fits hn spelled ends
    rw [← condition_congr (Piece.skipBlanks_of_gap gap)] at read
    exact ok_bind found (ok_bind (value.demandSpaced (by decide)) (ok_bind read rfl))

end

/-! ### Templates -/

theorem fits_template : Style.template.Fits .printable where
  isName_null := by decide
  null := rfl
  literal h := h
  path h := by
    obtain ⟨root, more, rfl, hr, free⟩ := h
    exact ⟨root, more, rfl, hr, free, fun part _ => readsSegment part⟩
  callee h := h

/-- The condition `n` is read back from the pieces `ps`. -/
def ReadsCondition (ps : List Piece) (n : Node) : Prop :=
  ∀ {s rest : List Char}, Spells ps s rest → EndsCondition rest →
    plain (condition s) = .ok (n, skipBlanks rest)

theorem condition_spelled (h : IsCondition .printable n) : ReadsCondition (exprPieces n) n := by
  intro s rest spelled
  exact condition_styled fits_template h spelled

theorem arguments_spelled {args : List Node} (h : IsArguments .printable args) :
    ∀ a ∈ args, ReadsBack (fun s => plain (argument s)) (argumentPieces a) a :=
  fun a ha => arguments_styled fits_template h a ha

end TagCompiler.Grammar
