import Mathlib.Data.List.TakeWhile
import Mathlib.Data.Nat.Digits.Defs
import TagCompiler.Proofs.ErrorPlace
import TagCompiler.Proofs.RoundTrip
/-!
# Integer literals

The digits of an integer literal are read one after the other, with no bound on their number, and
the range of a word of 64 bits is looked at only once, at the end. Here the value of a literal is
given by the places of its digits instead. A literal in a tag of its own is read as exactly that
value, or rejected just after its last digit, if no word holds the value.
-/

namespace TagCompiler.Template

open Text Grammar

/-! ### The value of a literal -/

/-- The integer that a sign and digits write. The last digit counts once, and each digit counts ten
times as much as it would one place further to the right. -/
def integerValue (negative : Bool) (digits : List Char) : Int :=
  let magnitude : Nat := Nat.ofDigits 10 (digits.reverse.map fun d => d.toNat - '0'.toNat)
  if negative then -magnitude else magnitude

/-- Reading from the left gives the value by places: the induction is from the right, because there
both sides take up one more digit in the same way. -/
theorem decimalValue_eq_ofDigits (ds : List Char) :
    decimalValue ds = Nat.ofDigits 10 (ds.reverse.map fun d => d.toNat - '0'.toNat) := by
  induction ds using List.reverseRecOn with
  | nil => rfl
  | append_singleton ds d ih =>
    have step : decimalValue (ds ++ [d]) = 10 * decimalValue ds + (d.toNat - '0'.toNat) := by
      simp [decimalValue]
    rw [step, ih, List.reverse_append, List.reverse_singleton, List.singleton_append,
      List.map_cons, Nat.ofDigits_cons, Nat.add_comm]

theorem integer?_eq (negative : Bool) (ds : List Char) : integer? negative ds =
    if -2 ^ 63 ≤ integerValue negative ds ∧ integerValue negative ds ≤ 2 ^ 63 - 1 then
      some (.int (integerValue negative ds)) else none := by
  have value : (if negative then -(decimalValue ds : Int) else decimalValue ds) =
      integerValue negative ds := by
    rw [decimalValue_eq_ofDigits, integerValue]
  have range : ∀ v : Int, (-0x8000000000000000 ≤ v ∧ v < 0x8000000000000000) ↔
      (-2 ^ 63 ≤ v ∧ v ≤ 2 ^ 63 - 1) := by
    intro v
    omega
  simp only [integer?, value, range]

/-! ### Reading one -/

/-- An integer literal before text that does not go on with it. -/
theorem primary_integer (negative : Bool) {ds rest : List Char} (nonempty : ds ≠ [])
    (digits : ∀ c ∈ ds, isDigit c = true) (breaks : Breaks rest) :
    plain (primary (sign negative ++ (ds ++ rest))) =
      (integer? negative ds).elim (fail (.badNumber (String.ofList (sign negative ++ ds))) rest)
        fun n => .ok (.literal (.number n) .number, rest) := by
  obtain ⟨d, ds, rfl⟩ := List.exists_cons_of_ne_nil nonempty
  obtain ⟨digit, digits⟩ := List.forall_mem_cons.mp digits
  rw [List.cons_append, primary_signed negative digit (number?_signed negative digit),
    numberTail_digits negative d digits breaks]

/-- A condition that starts with a value is that value, if nothing goes on with it; and it fails
where the value does. -/
theorem condition_of_primary {s rest : List Char} (lead : LeadsTerm s rest)
    (ends : ∀ p, plain (primary s) = .ok p → EndsCondition p.2) :
    plain (condition s) = (plain (primary s)).map fun p => (p.1, skipBlanks p.2) := by
  have operand : plain (operand s) = plain (primary s) >>= fun p => plain (filters p.1 p.2) := by
    rw [plain_operand, lead.negation?]
    dsimp only
    rw [lead.opens.skipBlanks]
  rcases found : plain (primary s) with f | ⟨n, r⟩
  · rw [plain_condition, plain_expression, operand, found]
    rfl
  · have ends := ends _ found
    have noFilter : plain (filters n r) = .ok (n, skipBlanks r) := by
      rw [plain_filters, ends.noFilter]
    have noOperator : plain (operators (skipBlanks r)) = .ok ([], skipBlanks r) := by
      rw [operators_congr (skipBlanks_skipBlanks r), plain_operators, ends.noOperator]
    have noConnective : plain (connectives (skipBlanks r)) = .ok ([], skipBlanks r) := by
      rw [connectives_congr (skipBlanks_skipBlanks r), plain_connectives, ends.noConnective]
    have expression : plain (expression s) = .ok (n, skipBlanks r) := by
      rw [plain_expression, operand]
      exact ok_bind (ok_bind found noFilter) (ok_bind noOperator rfl)
    rw [plain_condition]
    exact ok_bind expression (ok_bind noConnective rfl)

theorem condition_integer (negative : Bool) {ds rest : List Char} (nonempty : ds ≠ [])
    (digits : ∀ c ∈ ds, isDigit c = true) (ends : EndsCondition rest) :
    plain (condition (sign negative ++ (ds ++ rest))) =
      (integer? negative ds).elim (fail (.badNumber (String.ofList (sign negative ++ ds))) rest)
        fun n => .ok (.literal (.number n) .number, skipBlanks rest) := by
  have read := primary_integer negative nonempty digits ends.toBreaks
  have lead : LeadsTerm (sign negative ++ (ds ++ rest)) rest := by
    obtain ⟨d, ds, rfl⟩ := List.exists_cons_of_ne_nil nonempty
    exact leadsTerm_signed negative (digits d List.mem_cons_self)
  rw [condition_of_primary lead, read]
  · cases integer? negative ds <;> rfl
  · rw [read]
    intro p found
    cases h : integer? negative ds with
    | none =>
      rw [h] at found
      cases found
    | some n =>
      rw [h] at found
      cases found
      exact ends

/-! ### In a tag of its own -/

/-- One step over an output tag without a trim mark before it. -/
theorem elementsFrom_output {m rest : List Char} (gap : Piece.gap.Spelled m rest)
    (done : List Node) : elementsFrom done [] none false ('\x7b' :: '\x7b' :: m) =
      (plain (condition m) >>= fun p => plain (tagEnd "\x7d\x7d" p.2) >>= fun q =>
        elementsFrom (outputOf p.1 :: done) [] none q.1 q.2) := by
  have front : PlainFront ('\x7b' :: '\x7b' :: m) :=
    (startsTag_of_gap (show "\x7b\x7b" ∈ _ by simp) gap).2
  have start : plain (tagStart? "\x7b\x7b" ('\x7b' :: '\x7b' :: m)) = some ((), m) :=
    tagStart?_append (by decide) gap
  rw [elementsFrom_cons, front.docBlock?, front.trimsBefore]
  dsimp only
  rw [plain_element, start]
  dsimp only
  rw [plain_outputTag]
  rcases plain (condition m) with f | ⟨e, r⟩
  · rfl
  · show ((plain (tagEnd "\x7d\x7d" r) >>= _) >>= _) = (plain (tagEnd "\x7d\x7d" r) >>= _)
    rcases plain (tagEnd "\x7d\x7d" r) with f | ⟨trim, t⟩
    · rfl
    · -- an output is never text, so nothing before it is joined with it
      cases e <;> rfl

theorem byteLength_of_ascii {s : List Char} (ascii : ∀ c ∈ s, c ≤ '~') :
    byteLength s = s.length := by
  induction s with
  | nil => rfl
  | cons c r ih =>
    obtain ⟨head, tail⟩ := List.forall_mem_cons.mp ascii
    have one : c.utf8Size = 1 :=
      Char.utf8Size_eq_one_iff.mpr (UInt32.le_trans (Char.le_def.mp head) (by decide))
    show c.utf8Size + byteLength r = _
    rw [one, ih tail, List.length_cons, Nat.add_comm]

/-- A failure in the first line, behind characters that take one byte each. -/
theorem SyntaxError.locate_in_first_line {before after : List Char} (cause : Cause)
    (visible : ∀ c ∈ before, ' ' ≤ c ∧ c ≤ '~') :
    locate (before ++ after) ⟨cause, after.length⟩ =
      ⟨1, 1 + before.length, String.ofList (after.take fragmentLength), cause⟩ := by
  have noBreak : ∀ c ∈ before, c ≠ '\n' := by
    rintro c hc rfl
    exact absurd (visible _ hc).1 (by decide)
  have count : before.count '\n' = 0 := List.count_eq_zero.mpr fun h => noBreak _ h rfl
  have line : lastLine before = before := by
    rw [lastLine, List.takeWhile_eq_self_iff.mpr, List.reverse_reverse]
    intro c hc
    simpa using noBreak c (List.mem_reverse.mp hc)
  have bytes : byteLength before = before.length := byteLength_of_ascii fun c hc => (visible c hc).2
  simp [locate, line, count, bytes]

theorem visible_literal (negative : Bool) {ds : List Char} (digits : ∀ c ∈ ds, isDigit c = true) :
    ∀ c ∈ '\x7b' :: '\x7b' :: ' ' :: (sign negative ++ ds), ' ' ≤ c ∧ c ≤ '~' := by
  have front : ∀ c ∈ '\x7b' :: '\x7b' :: ' ' :: sign negative, ' ' ≤ c ∧ c ≤ '~' := by
    cases negative <;> simp [sign]
  intro c hc
  rcases List.mem_append.mp (show c ∈ ('\x7b' :: '\x7b' :: ' ' :: sign negative) ++ ds from hc)
    with h | h
  · exact front c h
  · have range := digits c h
    simp only [isDigit, Bool.and_eq_true, decide_eq_true_eq] at range
    exact ⟨Char.le_trans (by decide) range.1, Char.le_trans range.2 (by decide)⟩

theorem elementsFrom_integer (negative : Bool) {ds : List Char} (nonempty : ds ≠ [])
    (digits : ∀ c ∈ ds, isDigit c = true) :
    elementsFrom [] [] none false
        ('\x7b' :: '\x7b' :: ' ' :: (sign negative ++ (ds ++ [' ', '\x7d', '\x7d']))) =
      (integer? negative ds).elim (.error ⟨.badNumber (String.ofList (sign negative ++ ds)), 3⟩)
        fun n => .ok [.output [.literal (.number n) .number]] := by
  have closes : Fronts "\x7d\x7d" [' ', '\x7d', '\x7d'] [] := rfl
  have read := condition_integer negative nonempty digits
    (endsCondition_of_closer (by decide) closes)
  have gap : Piece.gap.Spelled (' ' :: (sign negative ++ (ds ++ [' ', '\x7d', '\x7d'])))
      (sign negative ++ (ds ++ [' ', '\x7d', '\x7d'])) := Piece.gap.spelled_text _
  rw [elementsFrom_output gap, condition_congr (Piece.skipBlanks_of_gap gap), read]
  cases integer? negative ds with
  | none => rfl
  | some n =>
    refine ok_bind rfl (ok_bind (closes.afterBlanks.tagEnd (by decide)) ?_)
    rw [elementsFrom_nil, pushRun_nil]
    rfl

/-- A sign, which may be missing, and digits. -/
def signed (negative : Bool) (digits : String) : String := String.ofList (sign negative) ++ digits

/-- An integer literal of any length is read as its exact value, or, if that is beyond 64 bits,
rejected at the place just after its digits. -/
theorem integer_literal_exact_or_rejected (negative : Bool) {d : String} (nonempty : d ≠ "")
    (digits : ∀ c ∈ d.toList, c.isDigit = true) :
    parse ("\x7b\x7b " ++ signed negative d ++ " \x7d\x7d") =
      if -2 ^ 63 ≤ integerValue negative d.toList ∧ integerValue negative d.toList ≤ 2 ^ 63 - 1 then
        .ok (.list [.output [.literal (.number (.int (integerValue negative d.toList))) .number]])
      else
        .error ⟨1, 4 + (signed negative d).length, " \x7d\x7d", .badNumber (signed negative d)⟩ := by
  have filled : d.toList ≠ [] := by simpa using nonempty
  have source : ("\x7b\x7b " ++ signed negative d ++ " \x7d\x7d").toList =
      '\x7b' :: '\x7b' :: ' ' :: (sign negative ++ (d.toList ++ [' ', '\x7d', '\x7d'])) := by
    simp [signed]
  have numeral : String.ofList (sign negative ++ d.toList) = signed negative d := by
    rw [String.ofList_append, String.ofList_toList, signed]
  have read := elementsFrom_integer negative filled digits
  rw [integer?_eq, numeral] at read
  rw [parse_eq, source]
  split_ifs at read ⊢ with fits
  · rw [read]
    rfl
  · rw [read, ← List.append_assoc]
    have column : 1 + ('\x7b' :: '\x7b' :: ' ' :: (sign negative ++ d.toList)).length =
        4 + (signed negative d).length := by
      rw [← numeral, String.length_ofList, List.length_cons, List.length_cons, List.length_cons]
      omega
    rw [← column]
    exact congrArg Except.error
      (SyntaxError.locate_in_first_line _ (visible_literal negative digits))

/-- The least word with zeros before it, and the same digits without the sign. -/
theorem integer_literal_at_the_bounds :
    ("0009223372036854775808" ≠ "" ∧ ∀ c ∈ "0009223372036854775808".toList, c.isDigit = true) ∧
    parse "\x7b\x7b -0009223372036854775808 \x7d\x7d" =
      .ok (.list [.output [.literal (.number (.int (-9223372036854775808))) .number]]) ∧
    parse "\x7b\x7b 0009223372036854775808 \x7d\x7d" =
      .error ⟨1, 26, " \x7d\x7d", .badNumber "0009223372036854775808"⟩ := by
  have nonempty : "0009223372036854775808" ≠ "" := by decide
  have digits : ∀ c ∈ "0009223372036854775808".toList, c.isDigit = true := by simp
  refine ⟨⟨nonempty, digits⟩, ?_, ?_⟩
  · have least : integerValue true "0009223372036854775808".toList = -9223372036854775808 := by
      decide +kernel
    have read := integer_literal_exact_or_rejected true nonempty digits
    rw [least, if_pos (by decide)] at read
    exact read
  · have beyond : integerValue false "0009223372036854775808".toList = 9223372036854775808 := by
      decide +kernel
    have read := integer_literal_exact_or_rejected false nonempty digits
    rw [beyond, if_neg (by decide)] at read
    exact read

end TagCompiler.Template
