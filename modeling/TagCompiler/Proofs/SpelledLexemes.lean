import TagCompiler.Proofs.ExpressionEquations
import TagCompiler.Proofs.Printing
/-!
# Reading lexemes that were written

A name, a string, a number or a path is read back from the pieces it was written as, if what comes
after it cannot go on with it. `EndsOperand`, `EndsExpression` and `EndsCondition` are what must not
come after the three levels of an expression; closing brackets, commas and the ends of tags never
go on with any of them.
-/

namespace TagCompiler.Grammar

open Template Text

variable {s m rest : List Char}

/-- A reader that succeeds hands its result to the next one. -/
theorem ok_bind {ε α β : Type} {x : Except ε α} {f : α → Except ε β} {a : α} {y : Except ε β}
    (first : x = .ok a) (next : f a = y) : (x >>= f) = y := by
  rw [first]
  exact next

/-! ### Blanks -/

theorem Piece.skipBlanks_of_pad (h : Piece.pad.Spelled s rest) : skipBlanks s = skipBlanks rest := by
  obtain ⟨b, blank, rfl⟩ := h
  exact skipBlanks_append blank rest

theorem Piece.pad_of_gap (h : Piece.gap.Spelled s rest) : Piece.pad.Spelled s rest := by
  obtain ⟨b, -, blank, rfl⟩ := h
  exact ⟨b, blank, rfl⟩

theorem Piece.skipBlanks_of_gap (h : Piece.gap.Spelled s rest) : skipBlanks s = skipBlanks rest :=
  skipBlanks_of_pad (pad_of_gap h)

theorem Piece.blank_of_gap (h : Piece.gap.Spelled s rest) : ∃ c r, s = c :: r ∧ isBlank c = true := by
  obtain ⟨b, nonempty, blank, rfl⟩ := h
  obtain ⟨c, r, rfl⟩ := List.exists_cons_of_ne_nil nonempty
  exact ⟨c, r ++ rest, rfl, blank c List.mem_cons_self⟩

theorem head_blank_or_solid (s : List Char) :
    ∀ c ∈ s.head?, isBlank c = true ∨ c ∈ (skipBlanks s).head? := by
  intro c hc
  by_cases blank : isBlank c = true
  · exact .inl blank
  · obtain ⟨r, rfl⟩ := List.head?_eq_some_iff.mp hc
    rw [skipBlanks_cons (by simpa using blank)]
    exact .inr rfl

theorem solid_of_isNameChar {c : Char} (h : isNameChar c = true) : isBlank c = false := by
  have range : 48 ≤ c.toNat ∧ c.toNat ≤ 122 := by
    simp only [isNameChar, isNameStart, isDigit, Bool.or_eq_true, Bool.and_eq_true,
      decide_eq_true_eq, beq_iff_eq, Char.le_def, UInt32.le_iff_toNat_le] at h
    rcases h with ((h | h) | rfl) | h
    · exact ⟨Nat.le_trans (by decide) h.1, h.2⟩
    · exact ⟨Nat.le_trans (by decide) h.1, Nat.le_trans h.2 (by decide)⟩
    · decide
    · exact ⟨h.1, Nat.le_trans h.2 (by decide)⟩
  simp only [isBlank, Bool.or_eq_false_iff, Bool.and_eq_false_iff, decide_eq_false_iff_not,
    beq_eq_false_iff_ne]
  omega

theorem not_isNameChar_of_blank {c : Char} (h : isBlank c = true) : isNameChar c = false := by
  by_contra name
  rw [solid_of_isNameChar (by simpa using name)] at h
  cases h

theorem endsName_of_gap (h : Piece.gap.Spelled s rest) : EndsName s := by
  obtain ⟨c, r, rfl, blank⟩ := Piece.blank_of_gap h
  rintro d ⟨rfl⟩
  exact not_isNameChar_of_blank blank

/-! ### Words -/

theorem word?_append {w : String} (nonempty : w ≠ "") (r : List Char) :
    plain (word? w (w.toList ++ r)) = some ((), r) :=
  plain_word?_eq_some.mpr ⟨nonempty, rfl⟩

/-- `s` does not start with one of the characters `cs`. -/
def Avoids (cs s : List Char) : Prop := ∀ c ∈ s.head?, c ∉ cs

theorem Avoids.word? {cs : List Char} (h : Avoids cs s) {w : String}
    (hw : w.toList.head?.any cs.contains = true) : plain (word? w s) = none := by
  cases found : plain (Text.word? w s) with
  | none => rfl
  | some p =>
    obtain ⟨-, rfl⟩ := plain_word?_eq_some.mp found
    obtain ⟨c, hc, mem⟩ := (Option.any_eq_true _ _).mp hw
    obtain ⟨v, hv⟩ := List.head?_eq_some_iff.mp hc
    exact absurd (List.contains_iff_mem.mp mem) (h c (by rw [hv]; rfl))

theorem Avoids.startsWith {cs : List Char} (h : Avoids cs s) {w : String}
    (hw : w.toList.head?.any cs.contains = true) : startsWith w s = false := by
  have absent := h.word? hw
  unfold Text.startsWith
  cases found : Text.word? w s with
  | none => rfl
  | some x =>
    rw [found] at absent
    cases absent

theorem Avoids.keyword? {cs : List Char} (h : Avoids cs s) {w : String}
    (hw : w.toList.head?.any cs.contains = true) : plain (keyword? w s) = none := by
  rw [plain_keyword?, h.word? hw]
  rfl

theorem keyword?_append {w : String} (nonempty : w ≠ "") {r : List Char} (ends : EndsName r) :
    plain (keyword? w (w.toList ++ r)) = some ((), r) :=
  plain_keyword?_eq_some.mpr ⟨nonempty, rfl, ends⟩

theorem startsWith_append {w : String} (nonempty : w ≠ "") (r : List Char) :
    startsWith w (w.toList ++ r) = true :=
  (startsWith_iff nonempty).mpr ⟨r, rfl⟩

/-- The word `w` stands at the front of `s`, perhaps after blanks. -/
def Fronts (w : String) (s rest : List Char) : Prop := skipBlanks s = w.toList ++ rest

theorem Fronts.afterBlanks {w : String} (h : Fronts w s rest) : Fronts w (skipBlanks s) rest := by
  rwa [Fronts, skipBlanks_skipBlanks]

theorem fronts_of_pad {w : String} {c : Char} (hw : w.toList.head? = some c)
    (solid : isBlank c = false) (h : Spells [.pad, .word w] s rest) : Fronts w s rest := by
  obtain ⟨m, pad, t, rfl, rfl⟩ := h
  obtain ⟨v, hv⟩ := List.head?_eq_some_iff.mp hw
  rw [Fronts, Piece.skipBlanks_of_pad pad, hv, List.cons_append, skipBlanks_cons solid]

theorem Fronts.spaced? {w : String} (h : Fronts w s rest) (nonempty : w ≠ "") :
    plain (spaced? w s) = some ((), rest) := by
  rw [plain_spaced?, h, word?_append nonempty]

theorem Fronts.demandSpaced {w : String} (h : Fronts w s rest) (nonempty : w ≠ "") :
    plain (demandSpaced w s) = .ok ((), rest) := by
  rw [plain_demandSpaced, h, plain_demand, word?_append nonempty]

theorem Avoids.spaced? {cs : List Char} (h : Avoids cs (skipBlanks s)) {w : String}
    (hw : w.toList.head?.any cs.contains = true) : plain (spaced? w s) = none := by
  rw [plain_spaced?, h.word? hw]

/-! ### What may follow an expression -/

/-- Neither a name nor a path goes on in `rest`, and no arguments stand there. -/
structure Breaks (rest : List Char) : Prop where
  endsName : EndsName rest
  noPath : Avoids ['.', '['] rest
  noArguments : Avoids ['('] (skipBlanks rest)

structure EndsOperand (rest : List Char) : Prop extends Breaks rest where
  noFilter : plain (pipe? rest) = none

structure EndsExpression (rest : List Char) : Prop extends EndsOperand rest where
  noOperator : plain (operator? rest) = none

/-- No condition goes on in `rest`, nor is it the value of a name before it. -/
structure EndsCondition (rest : List Char) : Prop extends EndsExpression rest where
  noConnective : plain (connective? rest) = none
  noValue : plain (spaced? "=" rest) = none

theorem avoids_of_blank {c : Char} {r cs : List Char} (blank : isBlank c = true)
    (solid : cs.all (fun d => !isBlank d) = true) : Avoids cs (c :: r) := by
  rintro d ⟨rfl⟩ mem
  have := List.all_eq_true.mp solid c mem
  simp [blank] at this

theorem breaks_of_gap (h : Piece.gap.Spelled s rest) (args : Avoids ['('] (skipBlanks rest)) :
    Breaks s := by
  obtain ⟨c, r, rfl, blank⟩ := Piece.blank_of_gap h
  refine ⟨endsName_of_gap h, avoids_of_blank blank (by decide), ?_⟩
  rwa [Piece.skipBlanks_of_gap h]

/-- What the first character after blanks does not start, a blank before it does not start
either. -/
theorem Avoids.of_skipBlanks {cs : List Char} (h : Avoids cs (skipBlanks s))
    (solid : cs.all (fun d => !isBlank d) = true) : Avoids cs s := by
  intro c hc mem
  rcases head_blank_or_solid s c hc with blank | front
  · have avoids : Avoids cs [c] := avoids_of_blank blank solid
    exact avoids c rfl mem
  · exact h c front mem

theorem endsName_of_skipBlanks (h : EndsName (skipBlanks s)) : EndsName s := by
  intro c hc
  rcases head_blank_or_solid s c hc with blank | front
  · exact not_isNameChar_of_blank blank
  · exact h c front

theorem breaks_of_solid (name : EndsName (skipBlanks s)) (path : Avoids ['.', '['] (skipBlanks s))
    (args : Avoids ['('] (skipBlanks s)) : Breaks s :=
  ⟨endsName_of_skipBlanks name, path.of_skipBlanks (by decide), args⟩

theorem Avoids.pipe? (h : Avoids ['|'] (skipBlanks rest)) : plain (pipe? rest) = none := by
  rw [plain_pipe?, h.startsWith (by decide), h.word? (by decide)]
  rfl

theorem Avoids.connective? (h : Avoids ['a', '&', 'o', '|'] (skipBlanks rest)) :
    plain (connective? rest) = none := by
  rw [plain_connective?, h.keyword? (by decide), h.word? (by decide), h.keyword? (by decide),
    h.word? (by decide)]
  rfl

/-- The characters that an operator can start with. -/
def operatorHeads : List Char := "i=!<>/*+-%~".toList

theorem Avoids.operator? (h : Avoids operatorHeads (skipBlanks rest)) :
    plain (operator? rest) = none := by
  rw [plain_operator?, h.keyword? (by decide)]
  split
  · rfl
  · refine List.findSome?_eq_none_iff.mpr fun w hw => ?_
    have head : ∀ w ∈ operatorSigns, w.toList.head?.any operatorHeads.contains = true := by decide
    rw [h.word? (head w hw)]
    rfl

/-- The words that end what stands before them. -/
def closers : List String := [")", "]", "\x7d", ",", "%\x7d", "\x7d\x7d"]

theorem Fronts.avoids {w : String} (h : Fronts w s rest) (nonempty : w ≠ "") {cs : List Char}
    (hw : w.toList.head?.all (fun c => !cs.contains c) = true) : Avoids cs (skipBlanks s) := by
  intro c hc mem
  obtain ⟨d, v, hv⟩ := List.exists_cons_of_ne_nil (mt String.toList_eq_nil_iff.mp nonempty)
  rw [h, hv] at hc
  cases hc
  rw [hv] at hw
  simp [mem] at hw

/-- A closer starts with none of the given characters, if the list avoids all their heads. -/
theorem avoids_of_closer {w : String} (hw : w ∈ closers) (h : Fronts w s rest) {cs : List Char}
    (hcs : (closers.all fun w => w.toList.head?.all fun c => !cs.contains c) = true) :
    Avoids cs (skipBlanks s) := by
  have nonempty : ∀ w ∈ closers, w ≠ "" := by decide
  exact h.avoids (nonempty w hw) (List.all_eq_true.mp hcs w hw)

theorem endsName_of_closer {w : String} (hw : w ∈ closers) (h : Fronts w s rest) :
    EndsName (skipBlanks s) := by
  have heads : ∀ w ∈ closers, ∃ c v, w.toList = c :: v ∧ isNameChar c = false := by
    simp [closers, isNameChar, isNameStart, isDigit]
  obtain ⟨c, v, hv, name⟩ := heads w hw
  rw [h, hv]
  rintro d ⟨rfl⟩
  exact name

theorem noOperator_of_closer {w : String} (hw : w ∈ closers) (h : Fronts w s rest) :
    plain (operator? s) = none := by
  by_cases percent : w = "%\x7d"
  · rw [plain_operator?, h, percent, startsWith_append (by decide)]
    simp
  · have heads : ∀ w ∈ closers, w ≠ "%\x7d" →
        w.toList.head?.all (fun c => !operatorHeads.contains c) = true := by decide
    have nonempty : ∀ w ∈ closers, w ≠ "" := by decide
    exact (h.avoids (nonempty w hw) (heads w hw percent)).operator?

theorem endsCondition_of_closer {w : String} (hw : w ∈ closers) (h : Fronts w s rest) :
    EndsCondition s := by
  have assign : Avoids ['='] (skipBlanks s) := avoids_of_closer hw h (by decide)
  exact {
    toBreaks := breaks_of_solid (endsName_of_closer hw h) (avoids_of_closer hw h (by decide))
      (avoids_of_closer hw h (by decide))
    noFilter := (avoids_of_closer hw h (by decide)).pipe?
    noOperator := noOperator_of_closer hw h
    noConnective := (avoids_of_closer hw h (by decide)).connective?
    noValue := assign.spaced? (by decide) }

/-! ### Names -/

theorem skipBlanks_name {n : String} (h : isName n = true) (r : List Char) :
    skipBlanks (n.toList ++ r) = n.toList ++ r := by
  obtain ⟨c, v, hv, start⟩ := exists_cons_of_isName h
  rw [hv, List.cons_append, skipBlanks_cons (solid_of_isNameChar (isNameChar_of_isNameStart start))]

theorem nameHere_append {n : String} (h : isName n = true) {r : List Char} (ends : EndsName r) :
    plain (nameHere (n.toList ++ r)) = .ok (n, r) :=
  plain_nameHere_eq_ok.mpr ⟨h, rfl, ends⟩

theorem Fronts.name {n : String} (h : Fronts n s rest) (hn : isName n = true)
    (ends : EndsName rest) : plain (name s) = .ok (n, rest) := by
  rw [plain_name, h, nameHere_append hn ends]

/-- A word at the front of a name is the whole name or a proper part of it. -/
theorem keyword?_name {w n : String} (hn : isName n = true) (ne : n ≠ w) {r : List Char}
    (ends : EndsName r) (hw : isName w = true) : plain (keyword? w (n.toList ++ r)) = none := by
  cases found : plain (keyword? w (n.toList ++ r)) with
  | none => rfl
  | some p =>
    obtain ⟨-, split, ends'⟩ := plain_keyword?_eq_some.mp found
    have first := nameHere_append hn ends
    rw [split, nameHere_append hw ends'] at first
    cases first
    exact absurd rfl ne

/-! ### Strings -/

theorem quotedBody?_escapes {q : Char} (quote : isQuote q = true) {v t : List Char}
    (h : Escapes q v t) (r : List Char) : plain (quotedBody? q (t ++ q :: r)) = some (v, r) := by
  have notBackslash : ¬ '\\' = q := by
    rintro rfl
    cases quote
  induction h with
  | nil =>
    cases r with
    | nil =>
      rw [List.nil_append, quotedBody?, if_pos rfl]
      rfl
    | cons e r => rw [List.nil_append, plain_quotedBody?_cons, if_pos rfl]
  | @plain c s t ne notEscape _ ih =>
    cases ht : t ++ q :: r with
    | nil => simp at ht
    | cons e u =>
      rw [List.cons_append, ht, plain_quotedBody?_cons, if_neg ne, if_neg notEscape, ← ht, ih]
      rfl
  | @escaped e s t _ ih =>
    rw [List.cons_append, List.cons_append, plain_quotedBody?_cons, if_neg notBackslash, if_pos rfl,
      ih]
    rfl

theorem quoted_spelled {v : String} (h : (Piece.quoted v).Spelled s rest) :
    (∃ q r, s = q :: r ∧ isQuote q = true) ∧ plain (quoted s) = .ok (v, rest) := by
  obtain ⟨q, t, quote, escapes, rfl⟩ := h
  refine ⟨⟨q, _, rfl, quote⟩, ?_⟩
  rw [plain_quoted, quotedBody?_escapes quote escapes]
  simp

theorem solid_of_isQuote {q : Char} (h : isQuote q = true) : isBlank q = false := by
  simp only [isQuote, Bool.or_eq_true, beq_iff_eq] at h
  rcases h with rfl | rfl <;> decide

/-! ### Numbers -/

theorem isDigit_of_mem_toDigits {n : Nat} {c : Char} (h : c ∈ Nat.toDigits 10 n) :
    isDigit c = true := Nat.isDigit_of_mem_toDigits (by decide) (by decide) h

theorem decimalValue_toDigits (n : Nat) : decimalValue (Nat.toDigits 10 n) = n :=
  Nat.ofDigitChars_toDigits (by decide) (by decide)

theorem toList_toString_int (n : Int) :
    (toString n).toList = sign (decide (n < 0)) ++ Nat.toDigits 10 n.natAbs := by
  show n.repr.toList = _
  rw [Int.repr_eq_if]
  split
  · rename_i nonneg
    have : ¬ n < 0 := by omega
    have same : n.toNat = n.natAbs := by omega
    simp [sign, this, Nat.repr_eq_ofList_toDigits, same]
  · rename_i neg
    have : n < 0 := by omega
    have same : (-n).toNat = n.natAbs := by omega
    simp [sign, this, Nat.repr_eq_ofList_toDigits, same]

theorem integer?_toDigits {n : Int} (lower : -0x8000000000000000 ≤ n)
    (upper : n < 0x8000000000000000) :
    integer? (decide (n < 0)) (Nat.toDigits 10 n.natAbs) = some (.int n) := by
  have value : (if decide (n < 0) = true then -((n.natAbs : Nat) : Int) else n.natAbs) = n := by
    split
    · rename_i neg
      have := of_decide_eq_true neg
      omega
    · rename_i nonneg
      have : ¬ n < 0 := by simpa using nonneg
      omega
  simp only [integer?, decimalValue_toDigits, value]
  exact if_pos ⟨lower, upper⟩

theorem fraction_of_avoids (h : Avoids ['.', '['] rest) :
    (fraction rest).value = none ∧ (fraction rest).rest = rest := by
  unfold fraction
  split
  · exact absurd (by simp) (h '.' rfl)
  · exact ⟨rfl, rfl⟩

theorem numberTail_digits (negative : Bool) (first : Char) {more : List Char}
    (digits : ∀ c ∈ more, isDigit c = true) (breaks : Breaks rest) :
    plain (numberTail negative first (more ++ rest)) =
      (integer? negative (first :: more)).elim
        (fail (.badNumber (String.ofList (sign negative ++ first :: more))) rest)
        fun n => .ok (.literal (.number n) .number, rest) := by
  have outside : ∀ c ∈ rest.head?, isDigit c = false := by
    intro c hc
    by_contra digit
    have := breaks.endsName c hc
    simp [isNameChar_of_isDigit (by simpa using digit)] at this
  obtain ⟨take, drop⟩ := span_append digits outside
  obtain ⟨value, after⟩ := fraction_of_avoids breaks.noPath
  rw [plain_numberTail]
  dsimp only
  rw [take, drop, value, after]
  simp only [numberOf?, numeral, pointed, List.append_nil]
  cases integer? negative (first :: more) <;> rfl

theorem number?_negative {c : Char} {r : List Char} (digit : isDigit c = true) :
    (number? ('-' :: c :: r)).map plain = some (plain (numberTail true c r)) := by
  rw [plain_number?]
  exact if_pos digit

theorem number?_digit {c : Char} {r : List Char} (digit : isDigit c = true) :
    (number? (c :: r)).map plain = some (plain (numberTail false c r)) := by
  rw [plain_number?]
  split
  · rename_i heq
    cases heq
  · rename_i heq
    cases heq
    cases digit
  · rename_i heq
    cases heq
    exact if_pos digit

theorem number?_signed (negative : Bool) {c : Char} {r : List Char} (digit : isDigit c = true) :
    (number? (sign negative ++ c :: r)).map plain = some (plain (numberTail negative c r)) := by
  cases negative with
  | true => exact number?_negative digit
  | false => exact number?_digit digit

theorem number?_other {c : Char} {r : List Char} (digit : isDigit c = false) (minus : c ≠ '-') :
    number? (c :: r) = none := by
  have found := plain_number? (c :: r)
  split at found
  · rename_i heq
    cases heq
  · rename_i heq
    exact absurd (List.cons.inj heq).1 minus
  · rename_i heq
    rw [← (List.cons.inj heq).1, digit] at found
    exact Option.map_eq_none_iff.mp found

theorem number_spelled {n : Int} (lower : -0x8000000000000000 ≤ n)
    (upper : n < 0x8000000000000000) (breaks : Breaks rest) :
    (number? ((toString n).toList ++ rest)).map plain = some (.ok (.int n, rest)) := by
  have read := integer?_toDigits lower upper
  obtain ⟨d, ds, hd⟩ := List.exists_cons_of_ne_nil (Nat.toDigits_ne_nil (n := n.natAbs) (b := 10))
  have digits : ∀ c ∈ d :: ds, isDigit c = true := fun c hc => isDigit_of_mem_toDigits (hd ▸ hc)
  obtain ⟨digit, digits⟩ := List.forall_mem_cons.mp digits
  rw [hd] at read
  rw [toList_toString_int, hd, List.append_assoc, List.cons_append, number?_signed _ digit,
    numberTail_digits _ d digits breaks, read]
  rfl

/-! ### Paths -/

theorem pathTail_end (h : Avoids ['.', '['] s) : plain (pathTail s) = .ok ([], s) := by
  rw [plain_pathTail]
  split
  · exact absurd (by simp) (h '.' rfl)
  · exact absurd (by simp) (h '[' rfl)
  · rfl

theorem pathTail_dot {part : String} (hp : isName part = true) (ends : EndsName m) :
    plain (pathTail ('.' :: (part.toList ++ m))) =
      (plain (pathTail m)).map fun p => (part :: p.1, p.2) := by
  obtain ⟨take, drop⟩ := span_append (all_isNameChar_of_isName hp) ends
  obtain ⟨c, v, hv, start⟩ := exists_cons_of_isName hp
  have front : part.toList ++ m = c :: (v ++ m) := by rw [hv, List.cons_append]
  rw [front] at take drop
  rw [front, plain_pathTail]
  show (if isNameChar c then _ else _) = _
  rw [if_pos (isNameChar_of_isNameStart start), take, drop, String.ofList_toList]
  rcases plain (pathTail m) with e | p <;> rfl

theorem pathTail_index {part : String} (first : plain (index (skipBlanks s)) = .ok (part, m))
    (close : Fronts "]" m rest) : plain (pathTail ('[' :: s)) =
      (plain (pathTail rest)).map fun p => (part :: p.1, p.2) := by
  rw [plain_pathTail]
  refine ok_bind first (ok_bind (close.demandSpaced (by decide)) ?_)
  dsimp only
  rcases plain (pathTail rest) with e | p <;> rfl

theorem index_quoted {v : String} (h : Spells [.pad, .quoted v] s rest) :
    plain (index (skipBlanks s)) = .ok (v, rest) := by
  obtain ⟨m, pad, t, quoted, rfl⟩ := h
  obtain ⟨⟨q, r, rfl, quote⟩, read⟩ := quoted_spelled quoted
  rw [Piece.skipBlanks_of_pad pad, skipBlanks_cons (solid_of_isQuote quote)]
  unfold index
  rw [← read]
  simp only [quote, if_true]

/-- The pieces `ps` are read as one more part of a path. -/
structure ReadsSegment (ps : List Piece) (part : String) : Prop where
  opens : ∀ {s rest}, Spells ps s rest → ∃ c r, s = c :: r ∧ (c = '.' ∨ c = '[')
  read : ∀ {s rest}, Spells ps s rest → EndsName rest →
    plain (pathTail s) = (plain (pathTail rest)).map fun p => (part :: p.1, p.2)

theorem readsSegment_name {part : String} (name : isName part = true) :
    ReadsSegment [.word ".", .word part] part where
  opens := by
    rintro s rest ⟨_, rfl, -⟩
    exact ⟨'.', _, rfl, .inl rfl⟩
  read := by
    rintro s rest ⟨_, rfl, _, rfl, rfl⟩ ends
    exact pathTail_dot name ends

theorem readsSegment_quoted (part : String) :
    ReadsSegment [.word "[", .pad, .quoted part, .pad, .word "]"] part where
  opens := by
    rintro s rest ⟨_, rfl, -⟩
    exact ⟨'[', _, rfl, .inr rfl⟩
  read := by
    rintro s rest ⟨_, rfl, p, pad, q, quoted, close⟩ -
    exact pathTail_index (index_quoted ⟨p, pad, q, quoted, rfl⟩) (fronts_of_pad rfl (by decide) close)

theorem readsSegment (part : String) : ReadsSegment (segmentPieces part) part := by
  unfold segmentPieces
  split
  · rename_i name
    exact readsSegment_name name
  · exact readsSegment_quoted part

section Segments

variable {segment : String → List Piece} {more : List String}

theorem opens_of_segments (reads : ∀ part ∈ more, ReadsSegment (segment part) part)
    (h : Spells (more.flatMap segment) s rest) :
    s = rest ∨ ∃ c r, s = c :: r ∧ (c = '.' ∨ c = '[') := by
  cases more with
  | nil => exact .inl h
  | cons part more =>
    rw [List.flatMap_cons, spells_append] at h
    obtain ⟨m, first, -⟩ := h
    exact .inr ((reads part List.mem_cons_self).opens first)

theorem endsName_of_segments (reads : ∀ part ∈ more, ReadsSegment (segment part) part)
    (h : Spells (more.flatMap segment) s rest) (ends : EndsName rest) : EndsName s := by
  rcases opens_of_segments reads h with rfl | ⟨c, r, rfl, rfl | rfl⟩
  · exact ends
  · rintro c ⟨rfl⟩
    decide
  · rintro c ⟨rfl⟩
    decide

theorem pathTail_spelled (reads : ∀ part ∈ more, ReadsSegment (segment part) part)
    (h : Spells (more.flatMap segment) s rest) (ends : EndsName rest)
    (stops : Avoids ['.', '['] rest) : plain (pathTail s) = .ok (more, rest) := by
  induction more generalizing s with
  | nil =>
    cases h
    exact pathTail_end stops
  | cons part more ih =>
    rw [List.flatMap_cons, spells_append] at h
    obtain ⟨m, first, h⟩ := h
    obtain ⟨readsFirst, reads⟩ := List.forall_mem_cons.mp reads
    rw [readsFirst.read first (endsName_of_segments reads h ends), ih reads h]
    rfl

end Segments

/-- A name with dots is written like the path of its parts. -/
theorem spells_of_isDottedNames {name root : String} {more : List String}
    (h : IsDottedNames name root more) (rest : List Char) :
    ∃ m, name.toList ++ rest = root.toList ++ m ∧ Spells (more.flatMap segmentPieces) m rest := by
  obtain ⟨rfl, -, names⟩ := h
  induction more generalizing root with
  | nil => exact ⟨rest, by simp, rfl⟩
  | cons part more ih =>
    obtain ⟨hp, names⟩ := List.forall_mem_cons.mp names
    obtain ⟨m, split, spells⟩ := @ih part names
    refine ⟨'.' :: (part.toList ++ m), ?_, ?_⟩
    · rw [← split]
      simp [String.toList_intercalate]
    · rw [List.flatMap_cons, segmentPieces, if_pos hp]
      exact ⟨_, rfl, _, rfl, spells⟩

theorem dottedTail_spelled {more : List String} (names : ∀ part ∈ more, isName part = true)
    (h : Spells (more.flatMap segmentPieces) s rest) (ends : EndsName rest)
    (stops : Avoids ['.', '['] rest) :
    (dottedTail s).value = more ∧ (dottedTail s).rest = rest := by
  induction more generalizing s with
  | nil =>
    cases h
    refine dottedTail_end fun c r hs => ?_
    exact absurd (by simp) (stops '.' (by rw [hs]; rfl))
  | cons part more ih =>
    obtain ⟨hp, names⟩ := List.forall_mem_cons.mp names
    rw [List.flatMap_cons, segmentPieces, if_pos hp] at h
    obtain ⟨_, rfl, m, rfl, h⟩ := h
    obtain ⟨value, after⟩ := ih names h
    obtain ⟨c, v, hv, start⟩ := exists_cons_of_isName hp
    have endsPart := endsName_of_segments (fun part _ => readsSegment part) h ends
    obtain ⟨take, drop⟩ := span_append (all_isNameChar_of_isName hp) endsPart
    have front : part.toList ++ m = c :: (v ++ m) := by rw [hv, List.cons_append]
    show (dottedTail ('.' :: (part.toList ++ m))).value = _ ∧
      (dottedTail ('.' :: (part.toList ++ m))).rest = _
    rw [front] at take drop ⊢
    obtain ⟨value', rest'⟩ := dottedTail_dot (isNameChar_of_isNameStart start) (v ++ m)
    rw [value', rest', take, drop, value, after, String.ofList_toList]
    exact ⟨rfl, rfl⟩

theorem dottedName_spelled {name root : String} {more : List String}
    (h : IsDottedNames name root more) (front : Fronts name s rest) (ends : EndsName rest)
    (stops : Avoids ['.', '['] rest) : plain (dottedName s) = .ok (name, rest) := by
  obtain ⟨m, split, spells⟩ := spells_of_isDottedNames h rest
  obtain ⟨joined, hr, names⟩ := h
  obtain ⟨value, after⟩ := dottedTail_spelled names spells ends stops
  have first : Fronts root s m := front.trans split
  rw [plain_dottedName]
  have endsRoot := endsName_of_segments (fun part _ => readsSegment part) spells ends
  refine ok_bind (first.name hr endsRoot) ?_
  show Except.ok (".".intercalate (root :: (dottedTail m).value), (dottedTail m).rest) = _
  rw [value, after, ← joined]

end TagCompiler.Grammar
