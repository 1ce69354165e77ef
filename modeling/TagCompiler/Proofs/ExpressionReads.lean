import TagCompiler.Proofs.Places
/-!
# What the expression readers return

Every expression reader stops at an end of its input with a tree of the grammar, or fails at a
place of its input. The induction follows the recursion of the readers: the unread input gets
shorter, or the level of the grammar lower.
-/

namespace TagCompiler.Template

open Text Grammar

/-! ### Operators -/

theorem connective?_finds {s r : List Char} {op : String}
    (h : plain (connective? s) = some (op, r)) : r <:+ s ∧ (op = "and" ∨ op = "or") := by
  rw [plain_connective?, Option.or_eq_some_iff] at h
  have found : ∀ {w sign symbol : String}, ((plain (keyword? w (skipBlanks s))).or
      (plain (word? sign (skipBlanks s)))).map (fun p => (symbol, p.2)) = some (op, r) →
      r <:+ s ∧ op = symbol := by
    intro w sign symbol h
    obtain ⟨p, hp, h⟩ := Option.map_eq_some_iff.mp h
    cases h
    refine ⟨?_, rfl⟩
    rcases Option.or_eq_some_iff.mp hp with hp | ⟨-, hp⟩
    · exact (suffix_of_keyword? hp).trans (skipBlanks_suffix s)
    · exact (suffix_of_word? hp).trans (skipBlanks_suffix s)
  rcases h with h | ⟨-, h⟩
  · exact ⟨(found h).1, .inl (found h).2⟩
  · exact ⟨(found h).1, .inr (found h).2⟩

theorem operator?_finds {s r : List Char} {op : String}
    (h : plain (operator? s) = some (op, r)) : r <:+ s ∧ op ∈ binaryOperators := by
  rw [plain_operator?] at h
  split at h
  · cases h
  · split at h
    · rename_i hk
      cases h
      exact ⟨(suffix_of_keyword? hk).trans (skipBlanks_suffix s), by simp [binaryOperators]⟩
    · obtain ⟨w, hw, h⟩ := List.exists_of_findSome?_eq_some h
      obtain ⟨p, hp, h⟩ := Option.map_eq_some_iff.mp h
      cases h
      exact ⟨(suffix_of_word? hp).trans (skipBlanks_suffix s), List.mem_cons_of_mem _ hw⟩

theorem negation?_finds {s r : List Char} {u : Unit} (h : plain (negation? s) = some (u, r)) :
    r <:+ s := by
  rw [plain_negation?] at h
  split at h
  · rename_i hk
    cases h
    exact (suffix_of_keyword? hk).trans (skipBlanks_suffix s)
  · split at h
    · cases h
    · exact (suffix_of_word? h).trans (skipBlanks_suffix s)

/-- Where there is no negation, the word `not` does not stand. -/
theorem not_keyword_of_negation? {s : List Char} (h : plain (negation? s) = none) :
    plain (keyword? "not" (skipBlanks s)) = none := by
  rw [plain_negation?] at h
  split at h
  · cases h
  · assumption

theorem pipe?_finds {s r : List Char} {u : Unit} (h : plain (pipe? s) = some (u, r)) :
    r <:+ s := by
  rw [plain_pipe?] at h
  split at h
  · cases h
  · exact (suffix_of_word? h).trans (skipBlanks_suffix s)

theorem keywordArgument?_finds {s r : List Char} {n : String}
    (h : plain (keywordArgument? s) = some (n, r)) : r <:+ s ∧ isName n = true := by
  rw [plain_keywordArgument?] at h
  obtain ⟨⟨m, t⟩, hm, h⟩ := Option.bind_eq_some_iff.mp h
  obtain ⟨suffix, isName_m⟩ := name?_finds hm
  change (if startsWith "==" (skipBlanks t) then none
    else plain (spaced? "=" t) >>= fun p => some (m, p.2)) = some (n, r) at h
  split at h
  · cases h
  · obtain ⟨p, hp, h⟩ := Option.bind_eq_some_iff.mp h
    cases h
    exact ⟨(suffix_of_spaced? hp).trans suffix, isName_m⟩

/-! ### Paths and keys -/

theorem index_reads (s : List Char) : Reads s (fun _ => True) (plain (index s)) := by
  unfold index
  split
  · exact .fail (Or.inr (Or.inr (Or.inl ⟨rfl, by simp⟩)))
  · rename_i c r
    split
    · rename_i quote
      exact quoted_reads quote r
    · rename_i notQuote
      split
      · exact .ok (List.dropWhile_suffix _) trivial
      · rename_i notDigit
        refine .fail (Or.inr (Or.inr (Or.inl ⟨rfl, ?_⟩)))
        simp [notQuote, notDigit]

theorem pathTail_reads (s : List Char) : Reads s (fun _ => True) (plain (pathTail s)) := by
  induction hn : s.length using Nat.strongRecOn generalizing s with
  | ind n ih =>
    subst hn
    rw [plain_pathTail]
    split
    · rename_i c r
      split
      · rename_i hc
        have := length_dropWhile_lt hc r
        have suffix : (c :: r).dropWhile isNameChar <:+ '.' :: c :: r :=
          (List.dropWhile_suffix _).trans (List.suffix_cons _ _)
        have rest := ih _ (by simp only [List.length_cons] at *; omega)
          ((c :: r).dropWhile isNameChar) rfl
        refine Reads.of_suffix ?_ suffix
        exact rest.bind fun more t _ _ => .here trivial
      · exact .here trivial
    · rename_i r
      refine Reads.of_suffix (Reads.of_skipBlanks ?_) (List.suffix_cons '[' r)
      refine (index_reads (skipBlanks r)).bind fun part t h _ => ?_
      have := length_of_plain h
      have := skipBlanks_length_le r
      refine (demandSpaced_reads (by decide) t).bind fun _ t h _ => ?_
      have := length_of_plain h
      have rest := ih _ (by simp only [List.length_cons] at *; omega) t rfl
      exact rest.bind fun more t _ _ => .here trivial
    · exact .here trivial

theorem mapKey_reads (s : List Char) : Reads s (fun _ => True) (plain (mapKey s)) := by
  rw [plain_mapKey]
  refine Reads.of_skipBlanks ?_
  split
  · rename_i quote
    cases hs : skipBlanks s with
    | nil => simp [hs] at quote
    | cons q r => exact quoted_reads (by simpa [hs] using quote) r
  · exact (nameHere_reads _).mono fun _ _ => trivial

/-! ### References -/

theorem namedLiteral?_isLiteral {n : String} {e : Node} (h : namedLiteral? n = some e) :
    IsLiteral e := by
  unfold namedLiteral? at h
  split at h <;> cases h <;> constructor

theorem not_reserved {n : String} (literal : namedLiteral? n = none) (word : n ≠ "not") :
    n ∉ reserved := by
  intro h
  simp only [reserved, List.mem_cons, List.not_mem_nil, or_false] at h
  rcases h with rfl | rfl | rfl | rfl | rfl | rfl | rfl | rfl <;>
    first | exact word rfl | cases literal

/-- The name that is read where the word `not` does not stand is another one. -/
theorem ne_not_of_nameHere {s r : List Char} {n : String}
    (word : plain (keyword? "not" s) = none) (h : plain (nameHere s) = .ok (n, r)) :
    n ≠ "not" := by
  rintro rfl
  obtain ⟨-, hs, ends⟩ := plain_nameHere_eq_ok.mp h
  rw [plain_keyword?_eq_some (u := ()) |>.mpr ⟨by decide, hs, ends⟩] at word
  cases word

theorem notDigit_of_number? {c : Char} {r : List Char} (h : number? (c :: r) = none) :
    isDigit c = false := by
  by_contra digit
  rw [Bool.not_eq_false] at digit
  have found := plain_number? (c :: r)
  rw [h] at found
  split at found
  · cases ‹_ :: _ = []›
  · rename_i heq
    cases heq
    cases digit
  · rename_i heq
    cases heq
    rw [if_pos digit] at found
    cases found

theorem callOrYield_isPrimary {path : List String} {args : List Node} (hp : IsPath path)
    (ha : IsArguments .parsed args) : IsPrimary .parsed (callOrYield path args) := by
  unfold callOrYield
  dsimp only
  split
  · exact .yield trivial
  · rename_i other
    exact .call ⟨other, path, hp, rfl⟩ ha

theorem chain_isCondition {first : Node} {more : List Node} (hf : IsExpression .parsed first)
    (hm : IsConnected .parsed more) : IsCondition .parsed (chain .condition first more) := by
  unfold chain
  split
  · exact .expression hf
  · rename_i nonempty
    exact .chain hf hm (by simpa using nonempty)

theorem chain_isExpression {first : Node} {more : List Node} (hf : IsOperand .parsed first)
    (hm : IsOperated .parsed more) : IsExpression .parsed (chain .expression first more) := by
  unfold chain
  split
  · exact .operand hf
  · rename_i nonempty
    exact .chain hf hm (by simpa using nonempty)

/-! ### Expressions -/

mutual

theorem condition_reads (s : List Char) :
    Reads s (IsCondition .parsed) (plain (condition s)) := by
  rw [plain_condition]
  refine (expression_reads s).bind fun first r h hf => ?_
  have := length_of_plain h
  refine (connectives_reads r).bind fun more t _ hm => ?_
  exact .here (chain_isCondition hf hm)
termination_by 16 * s.length + 9
decreasing_by all_goals omega

theorem connectives_reads (s : List Char) :
    Reads s (IsConnected .parsed) (plain (connectives s)) := by
  rw [plain_connectives]
  split
  · exact .ok (skipBlanks_suffix s) .nil
  · rename_i op r h
    obtain ⟨suffix, hop⟩ := connective?_finds h
    have := length_of_plain_some h
    refine Reads.of_suffix ?_ suffix
    refine (expression_reads r).bind fun e r h he => ?_
    have := length_of_plain h
    refine (connectives_reads r).bind fun more t _ hm => ?_
    exact .here (.cons hop he hm)
termination_by 16 * s.length
decreasing_by all_goals omega

theorem expression_reads (s : List Char) :
    Reads s (IsExpression .parsed) (plain (expression s)) := by
  rw [plain_expression]
  refine (operand_reads s).bind fun first r h hf => ?_
  have := length_of_plain h
  refine (operators_reads r).bind fun more t _ hm => ?_
  exact .here (chain_isExpression hf hm)
termination_by 16 * s.length + 8
decreasing_by all_goals omega

theorem operators_reads (s : List Char) :
    Reads s (IsOperated .parsed) (plain (operators s)) := by
  rw [plain_operators]
  split
  · exact .ok (skipBlanks_suffix s) .nil
  · rename_i op r h
    obtain ⟨suffix, hop⟩ := operator?_finds h
    have := length_of_plain_some h
    refine Reads.of_suffix ?_ suffix
    refine (operand_reads r).bind fun e r h he => ?_
    have := length_of_plain h
    refine (operators_reads r).bind fun more t _ hm => ?_
    exact .here (.cons hop he hm)
termination_by 16 * s.length
decreasing_by all_goals omega

theorem operand_reads (s : List Char) : Reads s (IsOperand .parsed) (plain (operand s)) := by
  rw [plain_operand]
  split
  · rename_i r h
    have := length_of_plain_some h
    refine Reads.of_suffix ?_ (negation?_finds h)
    exact (operand_reads r).bind fun e t _ he => .here (.negated he)
  · rename_i h
    have := skipBlanks_length_le s
    refine Reads.of_skipBlanks ?_
    refine (primary_reads (skipBlanks s) (not_keyword_of_negation? h)).bind fun e r h he => ?_
    have := length_of_plain h
    exact (filters_reads e (.primary he) r).mono fun n hn => .term hn
termination_by 16 * s.length + 7
decreasing_by all_goals omega

theorem filters_reads (subject : Node) (hs : IsTerm .parsed subject) (s : List Char) :
    Reads s (IsTerm .parsed) (plain (filters subject s)) := by
  rw [plain_filters]
  split
  · exact .ok (skipBlanks_suffix s) hs
  · rename_i r h
    have := length_of_plain_some h
    refine Reads.of_suffix ?_ (pipe?_finds h)
    refine (name_reads r).bind fun n r h hn => ?_
    have := length_of_plain h
    dsimp only
    split
    · rename_i t ht
      have := length_of_plain_some ht
      refine Reads.of_suffix ?_ (suffix_of_spaced? ht)
      refine (arguments_reads t).bind fun args t h ha => ?_
      have := length_of_plain h
      exact filters_reads _ (.filtered hn hs ha) t
    · exact filters_reads _ (.filtered hn hs .nil) r
termination_by 16 * s.length
decreasing_by all_goals omega

theorem primary_reads (s : List Char) (word : plain (keyword? "not" s) = none) :
    Reads s (IsPrimary .parsed) (plain (primary s)) := by
  cases hs : s with
  | nil =>
    rw [primary]
    exact .fail rfl
  | cons c r =>
    have shorter : s.length = r.length + 1 := by rw [hs, List.length_cons]
    by_cases group : c = '('
    · subst group
      rw [plain_primary_group]
      refine Reads.of_suffix ?_ (List.suffix_cons _ r)
      refine (condition_reads r).bind fun e t _ he => ?_
      exact (demandSpaced_reads (by decide) t).bind fun _ t _ _ => .here (.group he)
    by_cases array : c = '['
    · subst array
      rw [plain_primary_array]
      refine Reads.of_suffix ?_ (List.suffix_cons _ r)
      exact (items_reads r).bind fun cs t _ hc => .here (.array hc)
    by_cases map : c = '\x7b'
    · subst map
      rw [plain_primary_map]
      refine Reads.of_suffix ?_ (List.suffix_cons _ r)
      exact (entries_reads r).bind fun es t _ he => .here (.map he)
    rw [plain_primary_other group array map]
    split
    · rename_i quote
      exact (quoted_reads quote r).bind fun v t _ _ => .here (.literal (.string v))
    · rename_i notQuote
      split
      · rename_i n hn
        exact (number_reads (by rw [hn]; rfl)).mono fun e he => .literal he
      · rename_i notNumber
        split
        · rename_i start
          rw [← hs]
          exact reference_reads s word
        · rename_i notStart
          refine .fail (Or.inr (Or.inl ⟨rfl, c, rfl, ?_, ?_, notDigit_of_number? notNumber, group,
            array, map⟩))
          · simpa using notStart
          · simpa using notQuote
termination_by 16 * s.length + 6
decreasing_by all_goals omega

theorem reference_reads (s : List Char) (word : plain (keyword? "not" s) = none) :
    Reads s (IsPrimary .parsed) (plain (reference s)) := by
  rw [plain_reference]
  refine (nameHere_reads s).bind fun n r hn name => ?_
  have := length_of_plain hn
  dsimp only
  split
  · rename_i e he
    exact .here (.literal (namedLiteral?_isLiteral he))
  · rename_i other
    have free := not_reserved other (ne_not_of_nameHere word hn)
    refine (pathTail_reads r).bind fun parts r h _ => ?_
    have := length_of_plain h
    have path : IsPath (n :: parts) := ⟨n, parts, rfl, name, free⟩
    dsimp only
    split
    · rename_i t ht
      have := length_of_plain_some ht
      refine Reads.of_suffix ?_ (suffix_of_word? ht)
      exact (arguments_reads t).bind fun args t _ ha => .here (callOrYield_isPrimary path ha)
    · exact .here (.var path)
termination_by 16 * s.length + 5
decreasing_by all_goals omega

theorem arguments_reads (s : List Char) :
    Reads s (IsArguments .parsed) (plain (arguments s)) := by
  rw [plain_arguments]
  split
  · rename_i r h
    exact .ok (suffix_of_spaced? h) .nil
  · refine (argument_reads s).bind fun a r h ha => ?_
    have := length_of_plain h
    dsimp only
    split
    · rename_i t ht
      have := length_of_plain_some ht
      refine Reads.of_suffix ?_ (suffix_of_spaced? ht)
      exact (arguments_reads t).bind fun more t _ hm => .here (ha more hm)
    · exact (demandSpaced_reads (by decide) r).bind fun _ t _ _ => .here (ha [] .nil)
termination_by 16 * s.length + 11
decreasing_by all_goals omega

theorem argument_reads (s : List Char) :
    Reads s (fun a => ∀ more, IsArguments .parsed more → IsArguments .parsed (a :: more))
      (plain (argument s)) := by
  rw [plain_argument]
  split
  · rename_i n r h
    obtain ⟨suffix, hn⟩ := keywordArgument?_finds h
    have := length_of_plain_some h
    refine Reads.of_suffix ?_ suffix
    exact (condition_reads r).bind fun e t _ he => .here fun more hm => .named hn he hm
  · exact (condition_reads s).bind fun e t _ he => .here fun more hm => .positional he hm
termination_by 16 * s.length + 10
decreasing_by all_goals omega

theorem items_reads (s : List Char) : Reads s (IsItems .parsed) (plain (items s)) := by
  rw [plain_items]
  split
  · rename_i r h
    exact .ok (suffix_of_spaced? h) .nil
  · refine (condition_reads s).bind fun e r h he => ?_
    have := length_of_plain h
    dsimp only
    split
    · rename_i t ht
      have := length_of_plain_some ht
      refine Reads.of_suffix ?_ (suffix_of_spaced? ht)
      exact (items_reads t).bind fun more t _ hm => .here (.cons he hm)
    · exact (demandSpaced_reads (by decide) r).bind fun _ t _ _ => .here (.cons he .nil)
termination_by 16 * s.length + 10
decreasing_by all_goals omega

theorem entries_reads (s : List Char) : Reads s (IsEntries .parsed) (plain (entries s)) := by
  rw [plain_entries]
  split
  · rename_i r h
    exact .ok (suffix_of_spaced? h) .nil
  · refine (mapKey_reads s).bind fun key r h _ => ?_
    have := length_of_plain h
    refine (demandSpaced_reads (by decide) r).bind fun _ r h _ => ?_
    have := length_of_plain h
    refine (condition_reads r).bind fun e r h he => ?_
    have := length_of_plain h
    dsimp only
    split
    · rename_i t ht
      have := length_of_plain_some ht
      refine Reads.of_suffix ?_ (suffix_of_spaced? ht)
      exact (entries_reads t).bind fun more t _ hm => .here (.cons he hm)
    · exact (demandSpaced_reads (by decide) r).bind fun _ t _ _ => .here (.cons he .nil)
termination_by 16 * s.length + 10
decreasing_by all_goals omega

end

end TagCompiler.Template
