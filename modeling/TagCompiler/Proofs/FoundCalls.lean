import TagCompiler.Proofs.FoundDefinitions
import TagCompiler.Proofs.StatementCalls
/-!
# Which calls that stand as statements are found by scanning

A source is scanned for the starts of outputs that start with a call and of call blocks. The readers
come upon such a call only at a tag, and how the tag is written decides whether the scan finds it
there. The name in an output may have brackets, which the scan does not know. The own parameters of
a call block may have parentheses in them, of which the scan takes the first that closes for the
last, and it asks for a blank after them. And a find may start before the tag, in a comment or a
string, and pass over it; no find passes over an output. In all other cases the call is found, and
its name is reported unless it is that of the block that a macro was called with.
-/

namespace TagCompiler.Template

open Text Grammar

/-! ### Equations of the scanner -/

theorem plain_outputCallStart? (s : List Char) : plain (outputCallStart? s) = (do
    let (_, r) ← plain (tagStart? "\x7b\x7b" s)
    plain (scannedCallee? isDottedChar (skipBlanks r))) := by
  unfold outputCallStart?
  rcases tagStart? "\x7b\x7b" s with _ | ⟨_, r, h⟩
  · rfl
  · exact plain_past _ _

theorem plain_scannedParameters? (s : List Char) : plain (scannedParameters? s) =
    (match plain (spaced? "(" s) with
    | none => some ((), s)
    | some (_, r) => (plain (upTo? [')'] r)).map fun p => ((), p.2)) := by
  unfold scannedParameters?
  rcases spaced? "(" s with _ | ⟨_, r, h⟩
  · rfl
  · show plain ((past h (upTo? [')'] r)).map _) = (plain (upTo? [')'] r)).map _
    rcases upTo? [')'] r with _ | x <;> rfl

theorem plain_blockCallStart? (s : List Char) : plain (blockCallStart? s) = (do
    let (_, r) ← plain (tagStart? "\x7b%" s)
    let (_, r) ← plain (spaced? "call" r)
    let (_, r) ← plain (scannedParameters? r)
    let (_, r) ← plain (blanks? r)
    plain (scannedCallee? isDottedChar r)) := by
  unfold blockCallStart?
  rcases tagStart? "\x7b%" s with _ | ⟨_, r, h⟩
  · rfl
  · show plain (past h (spaced? "call" r) >>= _) = plain (spaced? "call" r) >>= _
    rcases spaced? "call" r with _ | ⟨_, t, h⟩
    · rfl
    · show plain (past _ (scannedParameters? t) >>= _) = plain (scannedParameters? t) >>= _
      rcases scannedParameters? t with _ | ⟨_, t, h⟩
      · rfl
      · show plain (past _ (blanks? t) >>= _) = plain (blanks? t) >>= _
        rcases blanks? t with _ | ⟨_, t, h⟩
        · rfl
        · exact plain_past _ _

/-- The text up to a character ends at its first occurrence. -/
theorem plain_upTo?_singleton {a : Char} {s v r : List Char} :
    plain (upTo? [a] s) = some (v, r) ↔ s = v ++ a :: r ∧ a ∉ v := by
  induction s generalizing v with
  | nil => simp [plain_upTo?_nil, after?]
  | cons c s ih =>
    rw [plain_upTo?_cons]
    by_cases here : c = a
    · subst here
      have found : plain (after? [c] (c :: s)) = some ((), s) := plain_after?_eq_some.mpr rfl
      rw [found]
      cases v with
      | nil => simp
      | cons d v =>
        simp only [Option.some.injEq, Prod.mk.injEq, List.cons_append, List.cons.injEq,
          List.mem_cons, not_or]
        constructor
        · rintro ⟨empty, -⟩
          cases empty
        · rintro ⟨⟨same, -⟩, other, -⟩
          exact absurd same other
    · have absent : plain (after? [a] (c :: s)) = none := by
        rw [after?, if_neg (Ne.symm here)]
        rfl
      rw [absent]
      cases v with
      | nil => simp [here]
      | cons d v =>
        simp only [Option.map_eq_some_iff, Prod.mk.injEq, List.cons.injEq, Prod.exists,
          List.cons_append, List.mem_cons, not_or]
        constructor
        · rintro ⟨v', r', found, ⟨rfl, rfl⟩, rfl⟩
          obtain ⟨same, free⟩ := ih.mp found
          exact ⟨⟨rfl, same⟩, Ne.symm here, free⟩
        · rintro ⟨⟨rfl, same⟩, -, free⟩
          exact ⟨v, r, ih.mpr ⟨same, free⟩, ⟨rfl, rfl⟩, rfl⟩

/-! ### Names with dots -/

theorem not_isDottedChar_of_isBlank {c : Char} (h : isBlank c = true) :
    isDottedChar c = false := by
  have dot : (c == '.') = false := by
    refine beq_eq_false_iff_ne.mpr ?_
    rintro rfl
    cases h
  rw [isDottedChar, not_isWordChar_of_isBlank h, dot]
  rfl

theorem isDottedChar_of_isNameChar {c : Char} (h : isNameChar c = true) :
    isDottedChar c = true := by
  rw [isDottedChar, isWordChar_of_isNameChar h, Bool.true_or]

/-- The parts of a name, each with a dot before it. -/
def dottedText (parts : List String) : List Char := parts.flatMap fun part => '.' :: part.toList

theorem toList_intercalate_dot (root : String) (more : List String) :
    (".".intercalate (root :: more)).toList = root.toList ++ dottedText more := by
  induction more generalizing root with
  | nil => simp [dottedText]
  | cons part more ih =>
    rw [String.intercalate_cons_cons, String.toList_append, String.toList_append, ih]
    simp [dottedText]

theorem dottedTail_text (s : List Char) :
    s = dottedText (dottedTail s).value ++ (dottedTail s).rest := by
  induction hn : s.length using Nat.strongRecOn generalizing s with
  | ind n ih =>
    by_cases dot : ∃ c r, s = '.' :: c :: r ∧ isNameChar c = true
    · obtain ⟨c, r, rfl, hc⟩ := dot
      obtain ⟨value, rest⟩ := dottedTail_dot hc r
      have shorter := length_dropWhile_lt hc r
      have tail := ih _ (by simp only [List.length_cons] at *; omega)
        ((c :: r).dropWhile isNameChar) rfl
      rw [value, rest, dottedText, List.flatMap_cons, String.toList_ofList, List.cons_append,
        List.cons_append, List.append_assoc, ← dottedText, ← tail, List.takeWhile_append_dropWhile]
    · obtain ⟨value, rest⟩ := dottedTail_end (s := s) fun c r hs => by
        by_contra hc
        exact dot ⟨c, r, hs, by simpa using hc⟩
      rw [value, rest]
      rfl

/-- A name with dots is read as it stands there. -/
theorem dottedName_text {s r : List Char} {n : String} (h : plain (dottedName s) = .ok (n, r)) :
    IsDotted n ∧ skipBlanks s = n.toList ++ r := by
  have reads := dottedName_reads s
  rw [h] at reads
  refine ⟨reads.2, ?_⟩
  rw [plain_dottedName] at h
  obtain ⟨⟨first, t⟩, named, h⟩ := ok_of_bind h
  cases h
  rw [plain_name, plain_nameHere_eq_ok] at named
  rw [named.2.1, toList_intercalate_dot, List.append_assoc, ← dottedTail_text]

theorem exists_cons_of_isDotted {n : String} (h : IsDotted n) :
    ∃ c cs, n.toList = c :: cs ∧ isNameStart c = true ∧ ∀ d ∈ cs, isDottedChar d = true := by
  obtain ⟨root, more, rfl, hr, parts⟩ := h
  obtain ⟨c, cs, hc, start⟩ := exists_cons_of_isName hr
  refine ⟨c, cs ++ dottedText more, ?_, start, fun d hd => ?_⟩
  · rw [toList_intercalate_dot, hc, List.cons_append]
  · rcases List.mem_append.mp hd with hd | hd
    · exact isDottedChar_of_isNameChar
        (all_isNameChar_of_isName hr d (hc ▸ List.mem_cons_of_mem c hd))
    · obtain ⟨part, hp, hd⟩ := List.mem_flatMap.mp hd
      rcases List.mem_cons.mp hd with rfl | hd
      · decide
      · exact isDottedChar_of_isNameChar ((parts part hp).2 d hd)

theorem scannedCallee?_of_isDotted {n : String} {r t : List Char} {u : Unit} (h : IsDotted n)
    (opened : plain (spaced? "(" r) = some (u, t)) :
    plain (scannedCallee? isDottedChar (n.toList ++ r)) = some (n, t) := by
  obtain ⟨c, cs, hc, start, inside⟩ := exists_cons_of_isDotted h
  have found := scannedCallee?_append (fun _ => not_isDottedChar_of_isBlank) (by decide) start
    inside opened
  rw [← hc, String.ofList_toList] at found
  rw [hc]
  exact found

theorem scannedCallee?_of_bracket {x : String} {v q : List Char} (hx : isName x = true)
    (inside : ∀ d ∈ v, isDottedChar d = true) :
    plain (scannedCallee? isDottedChar (x.toList ++ (v ++ '[' :: q))) = none := by
  obtain ⟨c, cs, hc, start⟩ := exists_cons_of_isName hx
  have all : ∀ d ∈ cs ++ v, isDottedChar d = true := by
    intro d hd
    rcases List.mem_append.mp hd with hd | hd
    · exact isDottedChar_of_isNameChar
        (all_isNameChar_of_isName hx d (hc ▸ List.mem_cons_of_mem c hd))
    · exact inside d hd
  obtain ⟨-, drop⟩ := span_append all (r := '[' :: q) (by simp; decide)
  rw [hc, List.cons_append, ← List.append_assoc, plain_scannedCallee?, plain_scannedName?,
    if_pos start, drop]
  rfl

/-! ### Places that are passed over -/

/-- What is matched starts with two braces, and they are its only ones. -/
theorem passes_outputCallStart? {s r : List Char} {n : String}
    (h : plain (outputCallStart? s) = some (n, r)) :
    ∃ c t, s = '\x7b' :: '\x7b' :: c :: t ∧ c ≠ '\x7b' ∧ Passes '\x7b' t r := by
  rw [plain_outputCallStart?] at h
  obtain ⟨⟨_, s₁⟩, opened, h⟩ := Option.bind_eq_some_iff.mp h
  have inside : Passes '\x7b' s₁ r := (passes_dropWhile (by decide) s₁).trans
    (passes_scannedCallee? (by decide) (by decide) (by decide) (by decide) h)
  have shorter : r.length < s₁.length :=
    Nat.lt_of_lt_of_le (length_of_plain_some h) (skipBlanks_length_le s₁)
  obtain ⟨w, rfl, free⟩ := inside
  -- Something is passed, so the text after the opener does not start with a brace.
  cases w with
  | nil => exact absurd shorter (Nat.lt_irrefl _)
  | cons c w =>
    obtain ⟨other, free⟩ := not_or.mp (mt List.mem_cons.mpr free)
    obtain ⟨t, rfl, rfl | rfl⟩ := tagStart?_finds opened
    · exact ⟨'-', _, rfl, by decide, ⟨c :: w, rfl, by simp [other, free]⟩⟩
    · exact ⟨c, _, rfl, Ne.symm other, ⟨w, rfl, free⟩⟩

theorem leavesEnd_outputCallStart? : LeavesEnd outputCallStart? := by
  intro s n r found
  obtain ⟨c, t, rfl, -, passes⟩ := passes_outputCallStart? found
  exact passes.isSuffix.trans (List.suffix_append [_, _, c] t)

/-- No find passes over the tag of an output. -/
theorem not_passedOver_output {s t r : List Char} {u : Unit}
    (opened : plain (tagStart? "\x7b\x7b" t) = some (u, r)) :
    ¬ PassedOver outputCallStart? s t := by
  rintro ⟨v, n, rest, ⟨-, matched⟩, inside, other, beyond⟩
  obtain ⟨w, rfl, -⟩ := tagStart?_finds opened
  obtain ⟨d, v, rfl, different, passes⟩ := passes_outputCallStart? matched
  have inside := (List.suffix_cons_iff.mp inside).resolve_left other
  rcases List.suffix_cons_iff.mp inside with same | inside
  · cases same
    exact absurd rfl different
  · rcases List.suffix_cons_iff.mp inside with same | inside
    · cases same
      exact absurd rfl different
    · exact beyond (passes.suffix inside)

theorem suffix_of_scannedParameters? {s r : List Char} {u : Unit}
    (h : plain (scannedParameters? s) = some (u, r)) : r <:+ s := by
  rw [plain_scannedParameters?] at h
  split at h
  · cases h
    exact List.suffix_refl s
  · rename_i s₁ list
    obtain ⟨⟨v, r⟩, closed, same⟩ := Option.map_eq_some_iff.mp h
    cases same
    obtain ⟨rfl, -⟩ := plain_upTo?_singleton.mp closed
    have opened : Passes '\x7b' s (v ++ ')' :: r) := passes_spaced? (by decide) (by decide) list
    exact ((List.suffix_cons ')' r).trans (List.suffix_append v _)).trans opened.isSuffix

theorem leavesEnd_blockCallStart? : LeavesEnd blockCallStart? := by
  intro s n r found
  rw [plain_blockCallStart?] at found
  obtain ⟨⟨_, s₁⟩, opened, found⟩ := Option.bind_eq_some_iff.mp found
  obtain ⟨⟨_, s₂⟩, keyword, found⟩ := Option.bind_eq_some_iff.mp found
  obtain ⟨⟨_, s₃⟩, parameters, found⟩ := Option.bind_eq_some_iff.mp found
  obtain ⟨⟨_, s₄⟩, blanks, callee⟩ := Option.bind_eq_some_iff.mp found
  have front : Passes '\x7b' s₁ s₂ := passes_spaced? (by decide) (by decide) keyword
  have back : Passes '\x7b' s₃ r := (passes_blanks? (by decide) blanks).trans
    (passes_scannedCallee? (by decide) (by decide) (by decide) (by decide) callee)
  exact ((back.isSuffix.trans (suffix_of_scannedParameters? parameters)).trans
    front.isSuffix).trans (suffix_of_tagStart? opened)

/-! ### Headers of calls -/

/-- How the tag of a call is written before the parenthesis that opens its arguments. -/
inductive CallHeader where
  /-- An output with this name in it. -/
  | output (name : List Char)
  /-- A call block without parameters of its own. -/
  | block
  /-- A call block with parameters of its own, and what comes after their closing parenthesis. -/
  | blockWith (parameters after : List Char)

namespace CallHeader

def isBlock : CallHeader → Bool
  | .output _ => false
  | _ => true

/-- What a scan looks for to find such a tag. -/
def start? : CallHeader → (s : List Char) → Option (Reading 1 String s)
  | .output _ => outputCallStart?
  | _ => blockCallStart?

/-- A scan can read the header: there are no brackets in the name, no closing parenthesis in the own
parameters of a block, and a blank after them. -/
def IsScannable : CallHeader → Prop
  | .output name => '[' ∉ name
  | .block => True
  | .blockWith parameters after => ')' ∉ parameters ∧ after.head?.any isBlank = true

instance : (h : CallHeader) → Decidable h.IsScannable
  | .output name => inferInstanceAs (Decidable ('[' ∉ name))
  | .block => .isTrue trivial
  | .blockWith parameters after =>
    inferInstanceAs (Decidable (')' ∉ parameters ∧ after.head?.any isBlank = true))

/-- At the place `t` the readers find a tag with this header. It calls the macro `c`, and after the
parenthesis comes `r`. -/
inductive ReadAt : CallHeader → List Char → String → List Char → Prop
  | output {t s w m r : List Char} {root c : String} {parts : List String} :
      plain (tagStart? "\x7b\x7b" t) = some ((), s) → skipBlanks s = w ++ '(' :: r →
      plain (nameHere (w ++ '(' :: r)) = .ok (root, m) →
      plain (pathTail m) = .ok (parts, '(' :: r) → c = ".".intercalate (root :: parts) →
      ReadAt (.output w) t c r
  | block {t s m m' r : List Char} {c : String} :
      plain (tagStart? "\x7b%" t) = some ((), s) → plain (name s) = .ok ("call", m) →
      plain (spaced? "(" m) = none → plain (dottedName m) = .ok (c, m') →
      plain (spaced? "(" m') = some ((), r) → ReadAt .block t c r
  | blockWith {t s m w after m' r : List Char} {ps : List Node} {c : String} :
      plain (tagStart? "\x7b%" t) = some ((), s) → plain (name s) = .ok ("call", m) →
      plain (spaced? "(" m) = some ((), w ++ ')' :: after) →
      plain (declarations (w ++ ')' :: after)) = .ok (ps, after) →
      plain (dottedName after) = .ok (c, m') → plain (spaced? "(" m') = some ((), r) →
      ReadAt (.blockWith w after) t c r

end CallHeader

/-! ### Headers are read -/

/-- A filter is no call, so a call that is read with filters after it has none. -/
theorem eq_call_of_filters {e p : Node} {c : String} {body : List Node} {s r : List Char}
    (h : plain (filters e s) = .ok (.call c p body, r)) : e = .call c p body := by
  rw [plain_filters] at h
  split at h
  · cases h
    rfl
  · rename_i piped
    have := length_of_plain_some piped
    obtain ⟨⟨n, r₁⟩, named, h⟩ := ok_of_bind h
    have := length_of_plain named
    dsimp only at h
    split at h
    · rename_i list
      have := length_of_plain_some list
      obtain ⟨⟨args, r₂⟩, inside, h⟩ := ok_of_bind h
      have := length_of_plain inside
      cases eq_call_of_filters h
    · cases eq_call_of_filters h
termination_by s.length

theorem eq_call_of_chain {wrap : List Node → Node} {first p : Node} {more body : List Node}
    {c : String} (other : ∀ ns, wrap ns ≠ .call c p body)
    (h : chain wrap first more = .call c p body) : first = .call c p body := by
  unfold chain at h
  split at h
  · exact h
  · exact absurd h (other _)

/-- A call in an expression starts with a path and a parenthesis right after it. -/
theorem call_of_reference {s r : List Char} {p : Node} {c : String} {body : List Node}
    (h : plain (reference s) = .ok (.call c p body, r)) : ∃ root m parts r',
      plain (nameHere s) = .ok (root, m) ∧ plain (pathTail m) = .ok (parts, '(' :: r') ∧
        c = ".".intercalate (root :: parts) := by
  rw [plain_reference] at h
  obtain ⟨⟨root, m⟩, named, h⟩ := ok_of_bind h
  dsimp only at h
  split at h
  · rename_i e literal
    cases h
    cases namedLiteral?_isLiteral literal
  · obtain ⟨⟨parts, m'⟩, path, h⟩ := ok_of_bind h
    dsimp only at h
    split at h
    · rename_i r' list
      obtain ⟨⟨args, _⟩, -, h⟩ := ok_of_bind h
      obtain ⟨-, rfl⟩ := plain_word?_eq_some.mp list
      refine ⟨root, m, parts, r', named, path, ?_⟩
      have call := (Prod.mk.inj (Except.ok.inj h)).1
      unfold callOrYield at call
      dsimp only at call
      split at call
      · cases call
      · cases call
        rfl
    · cases h

theorem call_of_primary {s r : List Char} {p : Node} {c : String} {body : List Node}
    (h : plain (primary s) = .ok (.call c p body, r)) :
    plain (reference s) = .ok (.call c p body, r) := by
  cases s with
  | nil =>
    rw [primary] at h
    cases h
  | cons d s =>
    by_cases group : d = '('
    · subst group
      rw [plain_primary_group] at h
      obtain ⟨x, -, h⟩ := ok_of_bind h
      obtain ⟨x, -, h⟩ := ok_of_bind h
      cases h
    by_cases array : d = '['
    · subst array
      rw [plain_primary_array] at h
      obtain ⟨x, -, h⟩ := ok_of_bind h
      cases h
    by_cases map : d = '\x7b'
    · subst map
      rw [plain_primary_map] at h
      obtain ⟨x, -, h⟩ := ok_of_bind h
      cases h
    rw [plain_primary_other group array map] at h
    split at h
    · obtain ⟨x, -, h⟩ := ok_of_bind h
      cases h
    · split at h
      · rename_i x number
        have reads := number_reads (s := d :: s) (by rw [number]; rfl)
        rw [h] at reads
        cases reads.2
      · split at h
        · exact h
        · cases h

theorem call_of_condition {s r : List Char} {p : Node} {c : String} {body : List Node}
    (h : plain (condition s) = .ok (.call c p body, r)) :
    ∃ r', plain (reference (skipBlanks s)) = .ok (.call c p body, r') := by
  rw [plain_condition] at h
  obtain ⟨⟨first, r₁⟩, read, h⟩ := ok_of_bind h
  obtain ⟨⟨more, r₂⟩, -, h⟩ := ok_of_bind h
  obtain rfl := eq_call_of_chain (by simp) (Prod.mk.inj (Except.ok.inj h)).1
  rw [plain_expression] at read
  obtain ⟨⟨first, r₁⟩, operand, read⟩ := ok_of_bind read
  obtain ⟨⟨more, r₂⟩, -, read⟩ := ok_of_bind read
  obtain rfl := eq_call_of_chain (by simp) (Prod.mk.inj (Except.ok.inj read)).1
  rw [plain_operand] at operand
  split at operand
  · obtain ⟨x, -, operand⟩ := ok_of_bind operand
    cases operand
  · obtain ⟨⟨e, r'⟩, read, filtered⟩ := ok_of_bind operand
    obtain rfl := eq_call_of_filters filtered
    exact ⟨r', call_of_primary read⟩

/-- The own parameters of a call block end with a parenthesis. -/
theorem suffix_of_declarations {s r : List Char} {ps : List Node}
    (h : plain (declarations s) = .ok (ps, r)) : ')' :: r <:+ s := by
  have closed : ∀ {m : List Char} {u : Unit}, plain (spaced? ")" m) = some (u, r) →
      ')' :: r <:+ m := by
    intro m u found
    have onward : skipBlanks m <:+ m := List.dropWhile_suffix _
    rw [plain_spaced?, plain_word?_eq_some] at found
    rw [found.2] at onward
    exact onward
  rw [plain_declarations] at h
  split at h
  · rename_i found
    cases h
    exact closed found
  · obtain ⟨⟨n, r₁⟩, named, h⟩ := ok_of_bind h
    obtain ⟨⟨value, r₂⟩, given, h⟩ := ok_of_bind h
    have front : r₂ <:+ s := by
      have first := name_reads s
      have second := default_reads r₁
      rw [named] at first
      rw [given] at second
      exact second.1.trans first.1
    have := length_of_plain named
    have := length_of_plain given
    dsimp only at h
    split at h
    · rename_i r₃ comma
      have := length_of_plain_some comma
      obtain ⟨⟨more, r₄⟩, rest, h⟩ := ok_of_bind h
      cases h
      have later : Passes '\x7b' r₂ r₃ := passes_spaced? (by decide) (by decide) comma
      exact ((suffix_of_declarations rest).trans later.isSuffix).trans front
    · obtain ⟨⟨_, r₃⟩, found, h⟩ := ok_of_bind h
      cases h
      exact (closed (plain_demandSpaced_eq_ok.mp found)).trans front
termination_by s.length

/-- A call that is an element of its own has a header. -/
theorem ElementAt.header {t : List Char} {n : Node} {c : String} (h : ElementAt t n)
    (called : n.statementCallee? = some c) : ∃ header r, CallHeader.ReadAt header t c r := by
  obtain ⟨s, e, r, opened, inside, rfl⟩ | ⟨s, doc, opened, form⟩ | ⟨v, rfl⟩ := h.form
  · have call : ∃ p body, e = .call c p body := by
      unfold outputOf at called
      split at called
      · cases called
      · unfold Node.statementCallee? at called
        split at called
        · contradiction
        · rename_i same
          cases same
          cases called
          exact ⟨_, _, rfl⟩
        · cases called
    obtain ⟨p, body, rfl⟩ := call
    obtain ⟨r', read⟩ := call_of_condition inside
    obtain ⟨root, m, parts, rest, named, path, callee⟩ := call_of_reference read
    have text : '(' :: rest <:+ skipBlanks s := by
      have first := nameHere_reads (skipBlanks s)
      have second := pathTail_reads m
      rw [named] at first
      rw [path] at second
      exact second.1.trans first.1
    obtain ⟨w, hw⟩ := text
    exact ⟨.output w, rest, .output opened hw.symm (hw ▸ named) path callee⟩
  · cases form with
    | call keyword head =>
      cases called
      rw [plain_callHead] at head
      obtain ⟨⟨_, m⟩, own, head⟩ := ok_of_bind head
      obtain ⟨⟨_, m'⟩, named, head⟩ := ok_of_bind head
      obtain ⟨⟨_, r⟩, list, head⟩ := ok_of_bind head
      obtain ⟨_, -, head⟩ := ok_of_bind head
      obtain ⟨_, -, head⟩ := ok_of_bind head
      cases head
      have list := plain_demandSpaced_eq_ok.mp list
      rw [plain_blockParameters] at own
      split at own
      · rename_i present
        obtain ⟨⟨ps, _⟩, declared, own⟩ := ok_of_bind own
        cases own
        obtain ⟨w, rfl⟩ := suffix_of_declarations declared
        exact ⟨.blockWith w m, r, .blockWith opened keyword present declared named list⟩
      · rename_i absent
        cases own
        exact ⟨.block, r, .block opened keyword absent named list⟩
    | _ => cases called
  · cases called

/-! ### Headers that are matched -/

/-- How a path goes on: with a dot before each of the parts, or with dots up to the first
bracket. -/
structure PathText (parts : List String) (w : List Char) : Prop where
  dotted : '[' ∉ w → w = dottedText parts ∧
    ∀ part ∈ parts, part ≠ "" ∧ ∀ c ∈ part.toList, isNameChar c = true
  bracketed : '[' ∈ w → ∃ v q, w = v ++ '[' :: q ∧ ∀ d ∈ v, isDottedChar d = true

theorem PathText.nil : PathText [] [] := ⟨fun _ => ⟨rfl, by simp⟩, fun bracket => by cases bracket⟩

theorem PathText.dot {c : Char} {cs w : List Char} {more : List String} (h : PathText more w)
    (name : ∀ d ∈ c :: cs, isNameChar d = true) :
    PathText (String.ofList (c :: cs) :: more) ('.' :: (c :: cs ++ w)) := by
  have noBracket : '[' ∉ c :: cs := fun bracket => by cases name _ bracket
  refine ⟨fun free => ?_, fun bracket => ?_⟩
  · obtain ⟨same, names⟩ := h.dotted fun bracket => free (by simp [bracket])
    refine ⟨?_, List.forall_mem_cons.mpr ⟨⟨by simp, ?_⟩, names⟩⟩
    · rw [dottedText, List.flatMap_cons, ← dottedText, String.toList_ofList, same]
      rfl
    · rw [String.toList_ofList]
      exact name
  · have inside : '[' ∈ w := by
      rcases List.mem_append.mp ((List.mem_cons.mp bracket).resolve_left (by decide)) with h | h
      · exact absurd h noBracket
      · exact h
    obtain ⟨v, q, same, dots⟩ := h.bracketed inside
    refine ⟨'.' :: (c :: cs ++ v), q, ?_, ?_⟩
    · simp [same]
    · refine List.forall_mem_cons.mpr ⟨by decide, fun d hd => ?_⟩
      rcases List.mem_append.mp hd with hd | hd
      · exact isDottedChar_of_isNameChar (name d hd)
      · exact dots d hd

theorem PathText.bracket (parts : List String) (w : List Char) : PathText parts ('[' :: w) :=
  ⟨fun free => absurd List.mem_cons_self free, fun _ => ⟨[], w, rfl, by simp⟩⟩

theorem pathTail_text {s r : List Char} {parts : List String}
    (h : plain (pathTail s) = .ok (parts, r)) : ∃ w, s = w ++ r ∧ PathText parts w := by
  induction hn : s.length using Nat.strongRecOn generalizing s parts with
  | ind n ih =>
    subst hn
    have reads := pathTail_reads s
    rw [h] at reads
    rw [plain_pathTail] at h
    split at h
    · rename_i c s
      split at h
      · rename_i hc
        have shorter := length_dropWhile_lt hc s
        obtain ⟨⟨more, r'⟩, rest, h⟩ := ok_of_bind h
        cases h
        obtain ⟨w, text, goes⟩ := ih _ (by simp only [List.length_cons] at *; omega) rest rfl
        have name := List.all_eq_true.mp (List.all_takeWhile (p := isNameChar) (l := c :: s))
        rw [List.takeWhile_cons_of_pos hc] at name ⊢
        refine ⟨_, ?_, goes.dot name⟩
        rw [List.cons_append, List.append_assoc, ← text, ← List.takeWhile_cons_of_pos hc,
          List.takeWhile_append_dropWhile]
      · cases h
        exact ⟨[], rfl, .nil⟩
    · rename_i s
      obtain ⟨⟨part, s₁⟩, first, h⟩ := ok_of_bind h
      obtain ⟨⟨_, s₂⟩, closed, h⟩ := ok_of_bind h
      obtain ⟨⟨more, r'⟩, rest, h⟩ := ok_of_bind h
      cases h
      have := length_of_plain first
      have := length_of_plain closed
      have := length_of_plain rest
      have := skipBlanks_length_le s
      rcases List.suffix_cons_iff.mp reads.1 with same | ⟨w, text⟩
      · have := congrArg List.length same
        rw [List.length_cons] at this
        omega
      · exact ⟨'[' :: w, by rw [← text, List.cons_append], .bracket _ w⟩
    · cases h
      exact ⟨[], rfl, .nil⟩

/-- The head of a call block, as it is scanned on after its keyword is read. -/
theorem plain_blockCallStart?_of_keyword {t s m : List Char} {u : Unit}
    (opened : plain (tagStart? "\x7b%" t) = some (u, s))
    (keyword : plain (name s) = .ok ("call", m)) : plain (blockCallStart? t) = (do
      let (_, r) ← plain (scannedParameters? m)
      let (_, r) ← plain (blanks? r)
      plain (scannedCallee? isDottedChar r)) := by
  rw [plain_name, plain_nameHere_eq_ok] at keyword
  have word : plain (spaced? "call" s) = some ((), m) := by
    rw [plain_spaced?, plain_word?_eq_some]
    exact ⟨by decide, keyword.2.1⟩
  rw [plain_blockCallStart?, opened]
  show (plain (spaced? "call" s) >>= _) = _
  rw [word]
  rfl

/-- After its own parameters, the name of a call block is scanned as it is read. -/
theorem scannedCallee?_of_dottedName {m m' r : List Char} {u : Unit} {c : String}
    (named : plain (dottedName m) = .ok (c, m')) (list : plain (spaced? "(" m') = some (u, r)) :
    plain (scannedCallee? isDottedChar (skipBlanks m)) = some (c, r) := by
  obtain ⟨dotted, text⟩ := dottedName_text named
  rw [text]
  exact scannedCallee?_of_isDotted dotted list

namespace CallHeader.ReadAt

theorem output_matches_iff {t s w m r : List Char} {root : String} {parts : List String}
    (opened : plain (tagStart? "\x7b\x7b" t) = some ((), s)) (text : skipBlanks s = w ++ '(' :: r)
    (named : plain (nameHere (w ++ '(' :: r)) = .ok (root, m))
    (path : plain (pathTail m) = .ok (parts, '(' :: r)) :
    plain (outputCallStart? t) = some (".".intercalate (root :: parts), r) ↔ '[' ∉ w := by
  obtain ⟨hroot, split, -⟩ := plain_nameHere_eq_ok.mp named
  obtain ⟨v, rfl, goes⟩ := pathTail_text path
  rw [← List.append_assoc] at split
  obtain rfl := List.append_cancel_right split
  have inRoot : '[' ∉ root.toList := fun bracket => by
    cases all_isNameChar_of_isName hroot _ bracket
  rw [plain_outputCallStart?, opened]
  show plain (scannedCallee? isDottedChar (skipBlanks s)) = _ ↔ _
  rw [text, List.append_assoc]
  by_cases bracket : '[' ∈ v
  · obtain ⟨v, q, rfl, inside⟩ := goes.bracketed bracket
    rw [List.append_assoc, List.cons_append, scannedCallee?_of_bracket hroot inside]
    simp
  · obtain ⟨rfl, names⟩ := goes.dotted bracket
    have list : plain (spaced? "(" ('(' :: r)) = some ((), r) := by
      rw [plain_spaced?, plain_word?_eq_some]
      exact ⟨by decide, rfl⟩
    have plainName : '[' ∉ root.toList ++ dottedText parts :=
      mt List.mem_append.mp (not_or.mpr ⟨inRoot, bracket⟩)
    rw [← List.append_assoc]
    refine iff_of_true ?_ plainName
    rw [← toList_intercalate_dot]
    exact scannedCallee?_of_isDotted ⟨root, parts, rfl, hroot, names⟩ list

theorem blockWith_matches_iff {t s m w after m' r : List Char} {c : String}
    (opened : plain (tagStart? "\x7b%" t) = some ((), s))
    (keyword : plain (name s) = .ok ("call", m))
    (present : plain (spaced? "(" m) = some ((), w ++ ')' :: after))
    (named : plain (dottedName after) = .ok (c, m'))
    (list : plain (spaced? "(" m') = some ((), r)) :
    plain (blockCallStart? t) = some (c, r) ↔
      ')' ∉ w ∧ after.head?.any isBlank = true := by
  rw [plain_blockCallStart?_of_keyword opened keyword, plain_scannedParameters?, present]
  have callee := scannedCallee?_of_dottedName named list
  by_cases free : ')' ∈ w
  · -- The scan goes on after the first parenthesis, from where it cannot pass the last one.
    refine iff_of_false (fun found => ?_) fun h => h.1 free
    obtain ⟨⟨_, q⟩, parameters, found⟩ := Option.bind_eq_some_iff.mp found
    obtain ⟨⟨v, q⟩, closed, same⟩ := Option.map_eq_some_iff.mp parameters
    cases same
    obtain ⟨⟨_, q'⟩, blanks, found⟩ := Option.bind_eq_some_iff.mp found
    obtain ⟨text, first⟩ := plain_upTo?_singleton.mp closed
    have inside : ')' :: after <:+ q := by
      rcases List.append_eq_append_iff.mp text with ⟨a, rfl, -⟩ | ⟨a, rfl, tail⟩
      · exact absurd (List.mem_append_left a free) first
      · cases a with
        | nil => simp_all
        | cons d a => exact ⟨a, (List.cons.inj tail).2.symm⟩
    have passes : Passes ')' q r := (passes_blanks? (by decide) blanks).trans
      (passes_scannedCallee? (by decide) (by decide) (by decide) (by decide) found)
    have beyond := (passes.suffix inside).length_le
    have := length_of_plain_some callee
    have := skipBlanks_length_le after
    rw [List.length_cons] at beyond
    omega
  · dsimp only
    rw [plain_upTo?_singleton.mpr ⟨rfl, free⟩]
    show (plain (blanks? after) >>= _) = _ ↔ _
    cases after with
    | nil => simp [blanks?]
    | cons b after =>
      rw [plain_blanks?]
      by_cases blank : isBlank b = true
      · have skipped : skipBlanks (b :: after) = skipBlanks after :=
          List.dropWhile_cons_of_pos blank
        rw [if_pos blank]
        rw [skipped] at callee
        exact iff_of_true callee ⟨free, blank⟩
      · rw [if_neg blank]
        exact iff_of_false (by simp) fun h => blank h.2

/-- What a scan looks for is at the tag, with the name of the macro and up to its parenthesis,
exactly if the header is one that a scan can read. -/
theorem matches_iff {h : CallHeader} {t r : List Char} {c : String} (read : h.ReadAt t c r) :
    plain (h.start? t) = some (c, r) ↔ h.IsScannable := by
  cases read with
  | output opened text named path callee =>
    subst callee
    exact output_matches_iff opened text named path
  | @block _ s m m' _ _ opened keyword absent named list =>
    -- The name starts with a name of its own, which the keyword does not run into.
    have blanks : plain (blanks? m) = some ((), skipBlanks m) := by
      rw [plain_dottedName] at named
      obtain ⟨⟨first, _⟩, front, -⟩ := ok_of_bind named
      rw [plain_name, plain_nameHere_eq_ok] at keyword front
      exact blanks?_of_endsName keyword.2.2 front.1 front.2.1
    refine iff_of_true ?_ trivial
    show plain (blockCallStart? t) = _
    rw [plain_blockCallStart?_of_keyword opened keyword, plain_scannedParameters?, absent]
    show (plain (blanks? m) >>= _) = _
    rw [blanks]
    exact scannedCallee?_of_dottedName named list
  | blockWith opened keyword present _ named list =>
    exact blockWith_matches_iff opened keyword present named list

/-- A scan finds the call at its tag exactly if it can read the header and, for a block, no find
passes over the tag. -/
theorem isFind_iff {h : CallHeader} {s t r : List Char} {c : String} (read : h.ReadAt t c r)
    (end_ : t <:+ s) : IsFind h.start? s t c r ↔
      h.IsScannable ∧ (h.isBlock = true → ¬ PassedOver blockCallStart? s t) := by
  rw [IsFind, read.matches_iff, and_comm]
  refine and_congr_right fun _ => ?_
  cases read with
  | output opened =>
    exact iff_of_true ((visits_iff leavesEnd_outputCallStart? end_).mpr
      (not_passedOver_output opened)) (by simp [isBlock])
  | block =>
    exact (visits_iff leavesEnd_blockCallStart? end_).trans (by simp [isBlock])
  | blockWith =>
    exact (visits_iff leavesEnd_blockCallStart? end_).trans (by simp [isBlock])

end CallHeader.ReadAt

/-! ### Calls in a tree -/

/-- The node is an element that is read at some place of the source. -/
def HasPlace (source : List Char) (n : Node) : Prop := ∃ t, t <:+ source ∧ ElementAt t n

/-- The calls that stand as statements below the node are read in the source. -/
def CallsPlaced (source : List Char) (n : Node) : Prop :=
  ∀ k ∈ n.preorder, ∀ e ∈ (bodies k).flatten, e.statementCallee?.isSome = true → HasPlace source e

variable {source : List Char}

theorem callsPlaced_of_subtrees {n : Node}
    (own : ∀ e ∈ (bodies n).flatten, e.statementCallee?.isSome = true → HasPlace source e)
    (below : ∀ m ∈ n.subtrees, CallsPlaced source m) : CallsPlaced source n :=
  Node.forall_preorder_iff.mpr ⟨own, below⟩

theorem mem_enclosed_of_mem_bodies {n e : Node} (h : e ∈ (bodies n).flatten) : e ∈ n.enclosed := by
  cases n <;> simp_all [bodies, Node.enclosed]

theorem callsPlaced_expression {n : Node} (h : IsExpressionTree n) : CallsPlaced source n := by
  intro k hk e he
  have part := h k hk
  cases k <;> simp_all [bodies, isExpressionPart]

theorem inherited_callsPlaced : Inherited source fun n =>
    (n.statementCallee?.isSome = true → HasPlace source n) ∧ CallsPlaced source n where
  text s := by
    refine ⟨by simp [Node.statementCallee?], callsPlaced_of_subtrees ?_ ?_⟩ <;>
      simp [bodies, Node.subtrees, Node.children]
  branch {c yes no} hc hyes hno := by
    have both := List.forall_mem_append.mpr ⟨hyes, hno⟩
    refine ⟨by simp [Node.statementCallee?], callsPlaced_of_subtrees (fun e he => ?_) ?_⟩
    · exact (both e (by simpa [bodies] using he)).1
    · exact List.forall_mem_cons.mpr
        ⟨callsPlaced_expression hc.isExpressionTree, fun m hm => (both m hm).2⟩
  loop {key item items body} hi hb := by
    refine ⟨by simp [Node.statementCallee?], callsPlaced_of_subtrees (fun e he => ?_) ?_⟩
    · exact (hb e (by simpa [bodies] using he)).1
    · exact List.forall_mem_cons.mpr
        ⟨callsPlaced_expression hi.isExpressionTree, fun m hm => (hb m hm).2⟩
  element {t n} end_ read inside := by
    refine ⟨fun _ => ⟨t, end_, read⟩, ?_⟩
    rcases read.isStatement with rfl | statement
    · exact callsPlaced_of_subtrees (by simp [bodies]) (by simp [Node.subtrees, Node.children])
    · have block : CallsPlaced source (.list n.enclosed) :=
        callsPlaced_of_subtrees (fun e he => (inside e (by simpa [bodies] using he)).1)
          fun m hm => (inside m hm).2
      refine callsPlaced_of_subtrees (fun e he => ?_) (forall_subtrees_of_isStatement statement
        (fun _ => callsPlaced_expression) block fun m hm => (inside m hm).2)
      exact (inside e (mem_enclosed_of_mem_bodies he)).1

theorem callsPlaced_of_parse {source : String} {tree : Node} (h : parse source = .ok tree) :
    CallsPlaced source.toList tree := by
  rw [parse_eq] at h
  split at h
  · rename_i ns elements
    cases h
    have placed := elementsFrom_inherited inherited_callsPlaced (List.suffix_refl _) (by simp)
      elements
    unfold ofElements
    split
    · rename_i name params body doc lone
      have member : Node.macroDef name params body doc ∈ ns.filter (!·.isBlankText) := by
        rw [lone]
        exact List.mem_singleton_self _
      exact (placed _ (List.mem_filter.mp member).1).2
    · exact callsPlaced_of_subtrees (fun e he => (placed e (by simpa [bodies] using he)).1)
        fun m hm => (placed m hm).2
  · cases h

theorem IsFind.mem_scans {h : CallHeader} {s t r : List Char} {c : String}
    (find : IsFind h.start? s t c r) : c ∈ scan outputCallStart? s ++ scan blockCallStart? s := by
  have found : c ∈ scan h.start? s := mem_scan_iff.mpr ⟨t, r, find⟩
  cases h with
  | output w => exact List.mem_append_left _ found
  | block => exact List.mem_append_right _ found
  | blockWith w after => exact List.mem_append_right _ found

theorem mem_calls {source : String} {c : String} : c ∈ (usage source).calls ↔
    c ∈ scan outputCallStart? source.toList ++ scan blockCallStart? source.toList ∧
      c ≠ "caller" := by
  rw [usage, NameSet.mem_ofNames, scanNames, scanNames, ← List.filter_append, List.mem_filter]
  simp

/-- A call that is an element of its own, as a block or as all of an output, is read at some place
of the source, and wherever it is read its tag has a header. A scan finds it there, with its name
and up to its parenthesis, exactly if it can read the header and, for a block, no earlier find
passes over the tag. If so, the name is among the calls, unless it is that of the block a macro was
called with, and among the external ones unless a definition of it is found too. -/
theorem statement_call_found {source : String} {tree k n : Node} {c : String}
    (read : parse source = .ok tree) (hk : k ∈ tree.preorder) (hn : n ∈ (bodies k).flatten)
    (called : n.statementCallee? = some c) :
    (∃ t, t <:+ source.toList ∧ ElementAt t n) ∧
    ∀ t, t <:+ source.toList → ElementAt t n →
      (∃ h r, CallHeader.ReadAt h t c r) ∧
      ∀ h r, CallHeader.ReadAt h t c r →
        (IsFind h.start? source.toList t c r ↔
          h.IsScannable ∧ (h.isBlock = true → ¬ PassedOver blockCallStart? source.toList t)) ∧
        (IsFind h.start? source.toList t c r →
          (c ∈ (usage source).calls ↔ c ≠ "caller") ∧
          (c ∈ (usage source).externals ↔ c ≠ "caller" ∧ c ∉ (usage source).definitions)) := by
  refine ⟨callsPlaced_of_parse read k hk n hn (by simp [called]), fun t end_ at_ =>
    ⟨at_.header called, fun h r header => ⟨header.isFind_iff end_, fun find => ?_⟩⟩⟩
  have found : c ∈ (usage source).calls ↔ c ≠ "caller" :=
    mem_calls.trans (and_iff_right (find.mem_scans))
  refine ⟨found, ?_⟩
  rw [Usage.externals, List.mem_filter, found]
  simp

/-- A call block with parameters, and an output in it. -/
def callInCall : List Char :=
  ['\x7b', '%', ' ', 'c', 'a', 'l', 'l', '(', 'x', ')', ' ', 'a', '.', 'b', '(', ')', ' ', '%',
   '\x7d', '\x7b', '\x7b', ' ', 'm', '(', ')', ' ', '\x7d', '\x7d', '\x7b', '%', ' ', 'e', 'n',
   'd', 'c', 'a', 'l', 'l', ' ', '%', '\x7d']

theorem statement_call_found_in_call :
    parse (String.ofList callInCall) = .ok (.list [.call "a.b" (.parameters [])
      [.output [.call "m" (.parameters []) []]]]) ∧
    ElementAt (callInCall.drop 19) (.output [.call "m" (.parameters []) []]) ∧
    IsFind outputCallStart? callInCall (callInCall.drop 19) "m" (callInCall.drop 24) ∧
    ElementAt callInCall (.call "a.b" (.parameters [])
      [.output [.call "m" (.parameters []) []]]) ∧
    IsFind blockCallStart? callInCall callInCall "a.b" (callInCall.drop 15) ∧
    "m" ∈ (usage (String.ofList callInCall)).calls ∧
    "a.b" ∈ (usage (String.ofList callInCall)).calls := by
  have text : (String.ofList callInCall).toList = callInCall := String.toList_ofList
  have read : parse (String.ofList callInCall) = .ok (.list [.call "a.b" (.parameters [])
      [.output [.call "m" (.parameters []) []]]]) := by
    rw [Template.parse_eq]
    cbv
  have output : ElementAt (callInCall.drop 19) (.output [.call "m" (.parameters []) []]) := by
    refine ⟨false, none, false, '\x7b', callInCall.drop 20, false, callInCall.drop 28, rfl, ?_⟩
    cbv
  have block : ElementAt callInCall (.call "a.b" (.parameters [])
      [.output [.call "m" (.parameters []) []]]) := by
    refine ⟨true, none, false, '\x7b', callInCall.drop 1, false, [], rfl, ?_⟩
    cbv
  have outputHeader : CallHeader.ReadAt (.output ['m']) (callInCall.drop 19) "m"
      (callInCall.drop 24) :=
    .output (s := callInCall.drop 21) (m := callInCall.drop 23) (by decide +kernel)
      (by decide +kernel) (by cbv) (by cbv) (by decide)
  have blockHeader : CallHeader.ReadAt (.blockWith ['x'] (callInCall.drop 10)) callInCall "a.b"
      (callInCall.drop 15) :=
    .blockWith (s := callInCall.drop 2) (m := callInCall.drop 7) (by decide +kernel)
      (by decide +kernel) (by decide +kernel) (by cbv) (by cbv) (by decide +kernel)
  have inner := statement_call_found (c := "m") read
    (Node.preorder_subset (List.mem_singleton_self _) (Node.mem_preorder_self _))
    (List.mem_singleton_self _) rfl
  have outer := statement_call_found (c := "a.b") read (Node.mem_preorder_self _)
    (List.mem_singleton_self _) rfl
  rw [text] at inner outer
  obtain ⟨innerFind, inCalls⟩ :=
    (inner.2 _ (List.drop_suffix 19 callInCall) output).2 _ _ outputHeader
  obtain ⟨outerFind, outCalls⟩ := (outer.2 _ (List.suffix_refl _) block).2 _ _ blockHeader
  have first := innerFind.mpr ⟨by decide, by simp [CallHeader.isBlock]⟩
  have second := outerFind.mpr ⟨by decide, fun _ =>
    (visits_iff leavesEnd_blockCallStart? (List.suffix_refl _)).mp (.here _)⟩
  exact ⟨read, output, first, block, second, (inCalls first).1.mpr (by decide),
    (outCalls second).1.mpr (by decide)⟩

/-- The macro is called in the template, and the scan does not name it. -/
def IsMissed (source c : String) : Prop :=
  (∃ tree, parse source = .ok tree ∧ c ∈ tree.statementCallees) ∧
    c ∉ (usage source).calls ∧ c ∉ (usage source).externals

theorem isMissed_of_reads {source c : String}
    (reads : (parse source).toOption.any (c ∈ ·.statementCallees) = true)
    (scans : c ∉ (usage source).calls ∧ c ∉ (usage source).externals) : IsMissed source c := by
  refine ⟨?_, scans⟩
  cases read : parse source with
  | error e =>
    rw [read] at reads
    cases reads
  | ok tree =>
    rw [read] at reads
    exact ⟨tree, rfl, of_decide_eq_true reads⟩

/-- Calls are missed with a parenthesis in the own parameters of a block, with no blank after them,
with a bracket in the name, and where a find that starts in a comment passes over the tag. -/
theorem statement_calls_missed :
    IsMissed "\x7b% call(x=f()) list() %\x7d\x7b% endcall %\x7d" "list" ∧
    IsMissed "\x7b% call(x)list() %\x7d\x7b% endcall %\x7d" "list" ∧
    IsMissed "\x7b\x7b a['b']() \x7d\x7d" "a.b" ∧
    IsMissed "\x7b# \x7b% call( #\x7d\x7b% call list(f() or (1)) %\x7d\x7b% endcall %\x7d"
      "list" := by
  refine ⟨isMissed_of_reads ?_ ?_, isMissed_of_reads ?_ ?_, isMissed_of_reads ?_ ?_,
    isMissed_of_reads ?_ ?_⟩
  all_goals decide +kernel

end TagCompiler.Template
