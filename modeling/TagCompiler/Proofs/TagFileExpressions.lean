import TagCompiler.Proofs.RoundTrip
import TagCompiler.Proofs.Subtrees
import TagCompiler.TagFile.Expression
/-!
# Expressions of tag files read as templates

A tag file writes its expressions in a style of its own: null is `null`, and a part of a path that
is made of digits stands in brackets without quotes. Apart from that, what it writes for the
operators, literals, lists and maps that templates know too is the text that a template has for the
same expression. So it is read back as that expression, with data from view models turned into the
literals, arrays and maps it denotes.
-/

namespace TagCompiler.Grammar

open Template Text

/-! ### The style of tag files -/

def Style.tagFile : Style where
  null := "null"
  segment part :=
    if isName part then [.word ".", .word part]
    else if part.toList.all isDigit then [.word "[", .word part, .word "]"]
    else [.word "[", .pad, .quoted part, .pad, .word "]"]

theorem index_digits {part : String} (nonempty : part ≠ "")
    (digits : part.toList.all isDigit = true) {rest : List Char} (ends : EndsName rest) :
    plain (index (skipBlanks (part.toList ++ rest))) = .ok (part, rest) := by
  have names : ∀ c ∈ part.toList, isNameChar c = true := fun c hc =>
    isNameChar_of_isDigit (List.all_eq_true.mp digits c hc)
  obtain ⟨take, drop⟩ := span_append names ends
  obtain ⟨c, ds, hp⟩ := List.exists_cons_of_ne_nil (mt String.toList_eq_nil_iff.mp nonempty)
  have digit : isDigit c = true := List.all_eq_true.mp digits c (by simp [hp])
  have notQuote : isQuote c = false := by
    rw [← Bool.not_eq_true]
    intro quote
    simp only [isQuote, Bool.or_eq_true, beq_iff_eq] at quote
    rcases quote with rfl | rfl <;> exact absurd digit (by decide)
  rw [hp, List.cons_append] at take drop ⊢
  rw [skipBlanks_cons (solid_of_isNameChar (isNameChar_of_isDigit digit))]
  unfold index
  simp only [notQuote, digit, Bool.false_eq_true, if_false, dite_true, plain_ok, takeSome,
    Reading.map]
  rw [take, drop, ← hp, String.ofList_toList]

theorem readsSegment_digits {part : String} (nonempty : part ≠ "")
    (digits : part.toList.all isDigit = true) :
    ReadsSegment [.word "[", .word part, .word "]"] part where
  opens := by
    rintro s rest ⟨_, rfl, -⟩
    exact ⟨'[', _, rfl, .inr rfl⟩
  read := by
    rintro s _ ⟨_, rfl, _, rfl, rest, rfl, rfl⟩ -
    have ends : EndsName ("]".toList ++ rest) := by
      rintro d ⟨rfl⟩
      decide
    exact pathTail_index (index_digits nonempty digits ends)
      (skipBlanks_word (by decide) (by decide) rest)

theorem readsSegment_tagFile {part : String} (nonempty : part ≠ "") :
    ReadsSegment (Style.tagFile.segment part) part := by
  by_cases name : isName part = true
  · simpa only [Style.tagFile, name, if_true] using readsSegment_name name
  · by_cases digits : part.toList.all isDigit = true
    · simpa only [Style.tagFile, name, digits, if_true, if_false, Bool.false_eq_true] using
        readsSegment_digits nonempty digits
    · simpa only [Style.tagFile, name, digits, if_false, Bool.false_eq_true] using
        readsSegment_quoted part

/-! ### The text of pieces -/

/-- The text of pieces, with single spaces and single quotes. -/
def written (ps : List Piece) : String := String.ofList (render ps)

@[simp]
theorem written_nil : written [] = "" := rfl

@[simp]
theorem written_word (w : String) (ps : List Piece) : written (.word w :: ps) = w ++ written ps := by
  rw [written, render, List.flatMap_cons, String.ofList_append, Piece.text, String.ofList_toList]
  rfl

@[simp]
theorem written_gap (ps : List Piece) : written (.gap :: ps) = " " ++ written ps := by
  rw [written, render, List.flatMap_cons, String.ofList_append]
  rfl

@[simp]
theorem written_pad (ps : List Piece) : written (.pad :: ps) = written ps := rfl

@[simp]
theorem written_quoted (v : String) (ps : List Piece) :
    written (.quoted v :: ps) = TagFile.quote v ++ written ps := by
  have same : escape '\'' = TagFile.escapeLiteral := by
    funext c
    by_cases quote : c = '\''
    · subst quote
      rfl
    · by_cases backslash : c = '\\' <;> simp [escape, TagFile.escapeLiteral, quote, backslash]
  rw [written, render, List.flatMap_cons, String.ofList_append, TagFile.quote, ← same]
  rfl

@[simp]
theorem written_append (ps qs : List Piece) : written (ps ++ qs) = written ps ++ written qs := by
  rw [written, render, List.flatMap_append, String.ofList_append]
  rfl

@[simp]
theorem written_gapped (xs : List (List Piece)) :
    written (gapped xs) = " ".intercalate (xs.map written) := by
  cases xs with
  | nil => rfl
  | cons x xs =>
    induction xs generalizing x with
    | nil => simp [gapped]
    | cons y xs ih =>
      have rest := ih y
      simp only [gapped, written_append, List.map_cons] at rest
      simp [gapped, String.intercalate_cons_cons, String.append_assoc, ← rest]

@[simp]
theorem written_commaSeparated (xs : List (List Piece)) :
    written (commaSeparated xs) = ", ".intercalate (xs.map written) := by
  induction xs with
  | nil => rfl
  | cons x xs ih =>
    cases xs with
    | nil => simp [commaSeparated]
    | cons y xs =>
      have comma : written [.pad, .word ",", .gap] = ", " := rfl
      rw [commaSeparated_cons_cons, written_append, written_append, comma, ih]
      simp [String.intercalate_cons_cons, String.append_assoc]

@[simp]
theorem written_bracketed (opener closer : String) (xs : List (List Piece)) :
    written (bracketed opener xs closer) = opener ++ ", ".intercalate (xs.map written) ++ closer := by
  simp [bracketed, String.append_assoc]

theorem accessor_eq_written (part : String) :
    TagFile.accessor part = written (Style.tagFile.segment part) := by
  have names : TagFile.isName part = isName part := rfl
  have digits : part.toList.all TagFile.isDigit = part.toList.all isDigit := rfl
  unfold TagFile.accessor Style.tagFile
  rw [names, digits]
  dsimp only
  by_cases name : isName part = true
  · simp [name]
  · by_cases number : part.toList.all isDigit = true
    · rw [if_neg name, if_pos number, if_neg name, if_pos number]
      simp [String.append_assoc]
    · rw [if_neg name, if_neg number, if_neg name, if_neg number]
      simp [String.append_assoc]

theorem path_eq_written (p : List String) : TagFile.path p = written (Style.tagFile.path p) := by
  cases p with
  | nil => rfl
  | cons root more =>
    have rest : String.join (more.map TagFile.accessor) =
        written (more.flatMap Style.tagFile.segment) := by
      induction more with
      | nil => rfl
      | cons part more ih =>
        rw [List.map_cons, String.join_cons, ih, accessor_eq_written, List.flatMap_cons, written_append]
    rw [TagFile.path, rest, Style.path, written_word]

theorem written_entry (σ : Style) (k : String) (v : Node) :
    written (σ.entry (.named k v)) = TagFile.quote k ++ ": " ++ written (σ.expr v) := by
  have colon : written [.pad, .word ":", .gap] = ": " := rfl
  have split : σ.entry (.named k v) = .quoted k :: ([.pad, .word ":", .gap] ++ σ.expr v) := rfl
  rw [split, written_quoted, written_append, colon, String.append_assoc]

/-! ### Data -/

/-- Data that literals, arrays and maps can denote. -/
inductive IsData : Value → Prop
  | null : IsData .null
  | bool (b : Bool) : IsData (.bool b)
  | int {n : Int} : -0x8000000000000000 ≤ n → n < 0x8000000000000000 → IsData (.number (.int n))
  | string (s : String) : IsData (.string s)
  | array {xs : List Value} : (∀ x ∈ xs, IsData x) → IsData (.array xs)
  | object {ms : Members} : (∀ m ∈ ms, IsData m.2) → IsData (.object ms)

mutual

/-- The expression that stands for data. The entries of a map are in the order of the members,
which is the order of their keys. -/
def denoted : Value → Node
  | .null => .null
  | .bool b => .bool b
  | .number n => .literal (.number n) .number
  | .string s => .string s
  | .array xs => .array (denotedItems xs)
  | .object ms => .parameters (denotedMembers ms)

def denotedItems : List Value → List Node
  | [] => []
  | x :: xs => denoted x :: denotedItems xs

def denotedMembers : Members → List Node
  | [] => []
  | (k, v) :: ms => .named k (denoted v) :: denotedMembers ms

end

/-- The leaves of expressions that tag files and templates share. -/
def Lexicon.tagFile (literal : Node → Prop) : Lexicon where
  literal := literal
  path p := ∃ root more, p = root :: more ∧ isName root = true ∧ root ∉ reserved ∧
    ∀ part ∈ more, part ≠ ""
  callee _ := False
  blockCallee _ := False
  yields := False
  text _ := False

/-- The expressions that tag files and templates share. -/
abbrev Lexicon.shared : Lexicon := .tagFile IsPrintableLiteral

theorem fits_tagFile : Style.tagFile.Fits .shared where
  isName_null := by decide
  null := rfl
  literal h := h
  path h := by
    obtain ⟨root, more, rfl, hr, free, nonempty⟩ := h
    exact ⟨root, more, rfl, hr, free, fun part hp => readsSegment_tagFile (nonempty part hp)⟩
  callee h := h.elim

theorem denotedItems_spelled {xs : List Value}
    (h : ∀ x ∈ xs, IsCondition .shared (denoted x) ∧
      TagFile.data x = written (Style.tagFile.expr (denoted x))) :
    IsItems .shared (denotedItems xs) ∧
      TagFile.dataItems xs = (Style.tagFile.exprs (denotedItems xs)).map written := by
  induction xs with
  | nil => exact ⟨.nil, rfl⟩
  | cons x xs ih =>
    obtain ⟨⟨grammar, text⟩, h⟩ := List.forall_mem_cons.mp h
    obtain ⟨grammars, texts⟩ := ih h
    refine ⟨.cons grammar grammars, ?_⟩
    rw [TagFile.dataItems, denotedItems, Style.exprs, List.map_cons, text, texts]

theorem denotedMembers_spelled {ms : Members}
    (h : ∀ m ∈ ms, IsCondition .shared (denoted m.2) ∧
      TagFile.data m.2 = written (Style.tagFile.expr (denoted m.2))) :
    IsEntries .shared (denotedMembers ms) ∧
      TagFile.dataMembers ms = (Style.tagFile.entries (denotedMembers ms)).map written := by
  induction ms with
  | nil => exact ⟨.nil, rfl⟩
  | cons m ms ih =>
    obtain ⟨k, v⟩ := m
    obtain ⟨⟨grammar, text⟩, h⟩ := List.forall_mem_cons.mp h
    obtain ⟨grammars, texts⟩ := ih h
    refine ⟨.cons grammar grammars, ?_⟩
    rw [TagFile.dataMembers, denotedMembers, Style.entries, List.map_cons, written_entry, text, texts]

/-- Data is written like the expression that stands for it. -/
theorem denoted_spelled {v : Value} (h : IsData v) :
    IsPrimary .shared (denoted v) ∧
      TagFile.data v = written (Style.tagFile.expr (denoted v)) := by
  induction h with
  | null => exact ⟨.literal .null, rfl⟩
  | bool b => cases b <;> exact ⟨.literal (.bool _), rfl⟩
  | int lower upper =>
    refine ⟨.literal (.int lower upper), ?_⟩
    simp [denoted, TagFile.data, Number.text, Style.expr, Style.literal]
  | string s =>
    refine ⟨.literal (.string s), ?_⟩
    simp [denoted, TagFile.data, Node.string, Style.expr, Style.literal]
  | array _ ih =>
    obtain ⟨grammar, text⟩ := denotedItems_spelled fun x hx =>
      ⟨.expression (.operand (.term (.primary (ih x hx).1))), (ih x hx).2⟩
    exact ⟨.array grammar, by rw [TagFile.data, text, denoted, Style.expr, written_bracketed]⟩
  | object _ ih =>
    obtain ⟨grammar, text⟩ := denotedMembers_spelled fun m hm =>
      ⟨.expression (.operand (.term (.primary (ih m hm).1))), (ih m hm).2⟩
    exact ⟨.map grammar, by rw [TagFile.data, text, denoted, Style.expr, written_bracketed]⟩

/-! ### Expressions -/

mutual

/-- An expression with what its data denotes in place of the data. -/
def resolved : Node → Node
  | .data v => denoted v
  | .parameter k (some v) => .parameter k (some (resolved v))
  | .parameters es => .parameters (resolvedAll es)
  | .array cs => .array (resolvedAll cs)
  | .group cs => .group (resolvedAll cs)
  | .condition cs => .condition (resolvedAll cs)
  | .expression cs => .expression (resolvedAll cs)
  | n => n

def resolvedAll : List Node → List Node
  | [] => []
  | n :: ns => resolved n :: resolvedAll ns

end

/-- Not every operator of a template has the same name in tag files. -/
def sharedOperators : List String :=
  ["not", "==", "!=", "<=", ">=", "<", ">", "+", "-", "*", "/", "%"]

def isShared : Node → Bool
  | .operator s => sharedOperators.contains s
  | .filter .. => false
  | _ => true

/-- The literals of templates, and data. -/
def IsLiteralOrData (n : Node) : Prop := IsPrintableLiteral n ∨ ∃ v, IsData v ∧ n = .data v

/-- As `shared`, but with data among the literals. -/
abbrev Lexicon.withData : Lexicon := .tagFile IsLiteralOrData

def SharedTree (n : Node) : Prop := ∀ k ∈ n.preorder, isShared k = true

theorem SharedTree.subtrees {n : Node} (h : SharedTree n) : ∀ m ∈ n.subtrees, SharedTree m :=
  fun _ hm k hk => h k (Node.preorder_subset hm hk)

/-- An expression of the grammar without calls and filters, and with operators that tag files have
too. It may hold data. -/
structure IsSharedExpression (e : Node) : Prop where
  grammar : IsCondition .withData e
  shared : SharedTree e

/-- The node `n` is written like what it is resolved to, for which `P` holds. -/
structure Written (P : Node → Prop) (n : Node) : Prop where
  grammar : P (resolved n)
  text : TagFile.expression n = .ok (written (Style.tagFile.expr (resolved n)))

/-- Several nodes, each as `Written`. -/
structure WrittenAll (P : List Node → Prop) (ns : List Node) : Prop where
  grammar : P (resolvedAll ns)
  text : TagFile.expressions ns = .ok ((Style.tagFile.exprs (resolvedAll ns)).map written)

theorem expressions_cons {n : Node} {ns : List Node}
    (first : TagFile.expression n = .ok (written (Style.tagFile.expr (resolved n))))
    (rest : TagFile.expressions ns = .ok ((Style.tagFile.exprs (resolvedAll ns)).map written)) :
    TagFile.expressions (n :: ns) =
      .ok ((Style.tagFile.exprs (resolvedAll (n :: ns))).map written) := by
  rw [TagFile.expressions, first, rest, resolvedAll, Style.exprs]
  rfl

theorem operator_written {op : String} (h : isShared (.operator op) = true) :
    TagFile.expression (.operator op) =
      .ok (written (Style.tagFile.expr (resolved (.operator op)))) := by
  have kept : ∀ op ∈ sharedOperators, TagFile.operator? op = some op := by decide
  rw [TagFile.expression, kept op (List.contains_iff_mem.mp h)]
  simp [resolved, Style.expr]

theorem connective_written (op : String) :
    TagFile.expression (.connective op) =
      .ok (written (Style.tagFile.expr (resolved (.connective op)))) := by
  simp [TagFile.expression, resolved, Style.expr]

theorem condition_written {ns : List Node}
    (h : TagFile.expressions ns = .ok ((Style.tagFile.exprs (resolvedAll ns)).map written)) :
    TagFile.expression (.condition ns) =
      .ok (written (Style.tagFile.expr (resolved (.condition ns)))) := by
  rw [TagFile.expression, h, resolved, Style.expr, written_gapped]
  rfl

theorem expression_written {ns : List Node}
    (h : TagFile.expressions ns = .ok ((Style.tagFile.exprs (resolvedAll ns)).map written)) :
    TagFile.expression (.expression ns) =
      .ok (written (Style.tagFile.expr (resolved (.expression ns)))) := by
  rw [TagFile.expression, h, resolved, Style.expr, written_gapped]
  rfl

theorem IsLiteralOrData.written {n : Node} (h : IsLiteralOrData n) :
    Written (IsPrimary .shared) n := by
  rcases h with literal | ⟨v, hv, rfl⟩
  · cases literal with
    | string s =>
      refine ⟨.literal (.string s), ?_⟩
      simp [Node.string, resolved, TagFile.expression, TagFile.literal, TagFile.data, Style.expr,
        Style.literal]
    | @int k lower upper =>
      refine ⟨.literal (.int lower upper), ?_⟩
      simp [Node.int, resolved, TagFile.expression, TagFile.literal, TagFile.data, Number.text,
        Style.expr, Style.literal]
    | bool b => cases b <;> exact ⟨.literal (.bool _), rfl⟩
    | null => exact ⟨.literal .null, rfl⟩
  · obtain ⟨grammar, text⟩ := denoted_spelled hv
    exact ⟨grammar, by rw [TagFile.expression, text]; rfl⟩

theorem resolvedAll_ne_nil {ns : List Node} (h : ns ≠ []) : resolvedAll ns ≠ [] := by
  cases ns with
  | nil => exact absurd rfl h
  | cons n ns => simp [resolvedAll]

mutual

theorem IsCondition.written : {n : Node} → IsCondition .withData n → SharedTree n →
    Written (IsCondition .shared) n
  | _, .expression h, shared => ⟨.expression (h.written shared).grammar, (h.written shared).text⟩
  | _, .chain hn hm nonempty, shared => by
    obtain ⟨first, more⟩ := List.forall_mem_cons.mp shared.subtrees
    have written := hn.written first
    have writtenMore := hm.written more
    exact ⟨.chain written.grammar writtenMore.grammar (resolvedAll_ne_nil nonempty),
      condition_written (expressions_cons written.text writtenMore.text)⟩

theorem IsConnected.written : {more : List Node} → IsConnected .withData more →
    (∀ n ∈ more, SharedTree n) → WrittenAll (IsConnected .shared) more
  | _, .nil, _ => ⟨.nil, rfl⟩
  | _, .cons hop hn hm, shared => by
    obtain ⟨-, members⟩ := List.forall_mem_cons.mp shared
    obtain ⟨first, more⟩ := List.forall_mem_cons.mp members
    have written := hn.written first
    have writtenMore := hm.written more
    exact ⟨.cons hop written.grammar writtenMore.grammar,
      expressions_cons (connective_written _) (expressions_cons written.text writtenMore.text)⟩

theorem IsExpression.written : {n : Node} → IsExpression .withData n → SharedTree n →
    Written (IsExpression .shared) n
  | _, .operand h, shared => ⟨.operand (h.written shared).grammar, (h.written shared).text⟩
  | _, .chain hn hm nonempty, shared => by
    obtain ⟨first, more⟩ := List.forall_mem_cons.mp shared.subtrees
    have written := hn.written first
    have writtenMore := hm.written more
    exact ⟨.chain written.grammar writtenMore.grammar (resolvedAll_ne_nil nonempty),
      expression_written (expressions_cons written.text writtenMore.text)⟩

theorem IsOperated.written : {more : List Node} → IsOperated .withData more →
    (∀ n ∈ more, SharedTree n) → WrittenAll (IsOperated .shared) more
  | _, .nil, _ => ⟨.nil, rfl⟩
  | _, .cons hop hn hm, shared => by
    obtain ⟨sign, members⟩ := List.forall_mem_cons.mp shared
    obtain ⟨first, more⟩ := List.forall_mem_cons.mp members
    have written := hn.written first
    have writtenMore := hm.written more
    exact ⟨.cons hop written.grammar writtenMore.grammar,
      expressions_cons (operator_written (sign _ (Node.mem_preorder_self _)))
        (expressions_cons written.text writtenMore.text)⟩

theorem IsOperand.written : {n : Node} → IsOperand .withData n → SharedTree n →
    Written (IsOperand .shared) n
  | _, .negated h, shared => by
    have written := h.written (shared.subtrees _ (by simp [Node.subtrees, Node.children]))
    exact ⟨.negated written.grammar, expression_written (expressions_cons (operator_written rfl)
      (expressions_cons written.text rfl))⟩
  | _, .term h, shared => ⟨.term (h.written shared).grammar, (h.written shared).text⟩

theorem IsTerm.written : {n : Node} → IsTerm .withData n → SharedTree n →
    Written (IsTerm .shared) n
  | _, .primary h, shared => ⟨.primary (h.written shared).grammar, (h.written shared).text⟩
  | _, .filtered _ _ _, shared => absurd (shared _ (Node.mem_preorder_self _)) Bool.false_ne_true

theorem IsPrimary.written : {n : Node} → IsPrimary .withData n → SharedTree n →
    Written (IsPrimary .shared) n
  | _, .literal h, _ => IsLiteralOrData.written h
  | _, .var h, _ => ⟨.var h, congrArg Except.ok (path_eq_written _)⟩
  | _, .yield h, _ => h.elim
  | _, .call h _, _ => h.elim
  | _, .group h, shared => by
    have written := h.written (shared.subtrees _ (List.mem_singleton_self _))
    refine ⟨.group written.grammar, ?_⟩
    rw [TagFile.expression, expressions_cons written.text rfl, resolved, Style.expr, written_bracketed]
    rfl
  | _, .array h, shared => by
    have written := h.written shared.subtrees
    refine ⟨.array written.grammar, ?_⟩
    rw [TagFile.expression, written.text, resolved, Style.expr, written_bracketed]
    rfl
  | _, .map h, shared => by
    obtain ⟨grammar, text⟩ := h.written shared.subtrees
    refine ⟨.map grammar, ?_⟩
    rw [TagFile.expression, text, resolved, Style.expr, written_bracketed]
    rfl

theorem IsItems.written : {items : List Node} → IsItems .withData items →
    (∀ n ∈ items, SharedTree n) → WrittenAll (IsItems .shared) items
  | _, .nil, _ => ⟨.nil, rfl⟩
  | _, .cons hn hm, shared => by
    obtain ⟨first, more⟩ := List.forall_mem_cons.mp shared
    have written := hn.written first
    have writtenMore := hm.written more
    exact ⟨.cons written.grammar writtenMore.grammar, expressions_cons written.text writtenMore.text⟩

theorem IsEntries.written : {entries : List Node} → IsEntries .withData entries →
    (∀ n ∈ entries, SharedTree n) → IsEntries .shared (resolvedAll entries) ∧
      TagFile.entries entries = .ok ((Style.tagFile.entries (resolvedAll entries)).map Grammar.written)
  | _, .nil, _ => ⟨.nil, rfl⟩
  | _, @IsEntries.cons _ key value _ hn hm, shared => by
    obtain ⟨first, more⟩ := List.forall_mem_cons.mp shared
    have written := hn.written (first.subtrees _ (by simp [Node.named, Node.subtrees]))
    obtain ⟨grammar, text⟩ := hm.written more
    refine ⟨.cons written.grammar grammar, ?_⟩
    have entry := written_entry Style.tagFile key (resolved value)
    rw [Node.named, TagFile.entries, written.text, text, resolvedAll, Style.entries, List.map_cons]
    exact congrArg Except.ok (congrArg₂ List.cons entry.symm rfl)

end

theorem ne_yield_of_isCondition {n : Node} (h : IsCondition .shared n) : n ≠ .yield := by
  rintro rfl
  cases h with
  | expression h => cases h with
    | operand h => cases h with
      | term h => cases h with
        | primary h => cases h with
          | literal h => cases h
          | yield h => exact h

/-- The text that a tag file has for an expression is read by a template as that expression, with
data replaced by what it denotes. -/
theorem parse_tagFile_expression {e : Node} (h : IsSharedExpression e) :
    ∃ t, TagFile.expression e = .ok t ∧
      parse ("\x7b\x7b " ++ t ++ " \x7d\x7d") = .ok (.list [.output [resolved e]]) := by
  have isWritten := h.grammar.written h.shared
  refine ⟨_, isWritten.text, ?_⟩
  have text : "\x7b\x7b " ++ written (Style.tagFile.expr (resolved e)) ++ " \x7d\x7d" =
      written (outputPieces (Style.tagFile.expr (resolved e))) := by
    have opener : written [.word "\x7b\x7b", .gap] = "\x7b\x7b " := rfl
    have closer : written [.gap, .word "\x7d\x7d"] = " \x7d\x7d" := rfl
    rw [outputPieces, written_append, written_append, opener, closer, String.append_assoc]
  have spelled := spells_render (outputPieces (Style.tagFile.expr (resolved e))) []
  rw [List.append_nil] at spelled
  have reads : ReadsCondition (Style.tagFile.expr (resolved e)) (resolved e) :=
    condition_styled fits_tagFile isWritten.grammar
  have element := readsElement_output reads
    (outputOf_of_ne (ne_yield_of_isCondition isWritten.grammar)) spelled
  rw [text, parse_eq, written, String.toList_ofList, elementsFrom_element element rfl,
    elementsFrom_nil]
  rfl

/-- A number and quotes in a path, a minus sign before a negative number from data, and data with
null, a backslash and a quote inside. -/
theorem parse_tagFile_expression_with_data :
    let difference (one : Node) : Node :=
      .expression [.var ["x", "12", "it's"], .operator "-", one]
    let negation (map : Node) : Node := .expression [.operator "not", .group [map]]
    let e : Node := .condition [difference (.data (.number (.int (-1)))), .connective "and",
      negation (.data (.object [("a b", .array [.null, .string "\\'"])]))]
    let t := "x[12]['it\\'s'] - -1 and not (\x7b'a b': [null, '\\\\\\'']\x7d)"
    IsSharedExpression e ∧ TagFile.expression e = .ok t ∧
      parse ("\x7b\x7b " ++ t ++ " \x7d\x7d") = .ok (.list [.output [.condition
        [difference (.int (-1)), .connective "and",
          negation (.parameters [.named "a b" (.array [.null, .string "\\'"])])]]]) := by
  intro difference negation e t
  have data : ∀ v, IsData v → IsTerm .withData (.data v) := fun v h =>
    .primary (.literal (.inr ⟨v, h, rfl⟩))
  have path : IsTerm .withData (.var ["x", "12", "it's"]) :=
    .primary (.var ⟨"x", ["12", "it's"], rfl, by decide, by decide, by decide⟩)
  have list : IsData (.array [.null, .string "\\'"]) := .array (by simp [IsData.null, IsData.string])
  have map : IsData (.object [("a b", .array [.null, .string "\\'"])]) := .object (by simpa using list)
  have grammar : IsCondition .withData e :=
    .chain (.chain (.term path)
      (.cons (by decide) (.term (data _ (.int (by decide) (by decide)))) .nil) (by simp))
      (.cons (.inl rfl) (.operand (.negated (.term (.primary
        (.group (.expression (.operand (.term (data _ map))))))))) .nil) (by simp)
  have shared : IsSharedExpression e := ⟨grammar, by unfold SharedTree; decide⟩
  have text : TagFile.expression e = .ok t := rfl
  obtain ⟨t', text', read⟩ := parse_tagFile_expression shared
  obtain rfl : t = t' := Except.ok.inj (text.symm.trans text')
  exact ⟨shared, text, read⟩

end TagCompiler.Grammar
