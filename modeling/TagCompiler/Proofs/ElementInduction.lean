import TagCompiler.Proofs.TreeNodes
/-!
# Where the elements of a template are read

An element of a template, or of a block in it, is read at some place of the source. What holds of
the element that is read at a place, if it holds of the elements of the blocks that belong to it,
holds of all elements of the template. Three kinds of nodes are elements without being read at a
place of their own: text, which is joined and trimmed, the branch of an "elif", and the loop of a
"for" with an "else".
-/

namespace TagCompiler

/-- The elements of the blocks that belong to a node. -/
def Node.enclosed : Node → List Node
  | .list body | .assign _ (.list body) _ | .call _ _ body | .macroDef _ _ body _
  | .loop _ _ _ body => body
  | .branch _ yes no => yes ++ no
  | _ => []

namespace Template

open Text Grammar

/-- At the start of the text an element is read that leaves this node. -/
def ElementAt (t : List Char) (n : Node) : Prop :=
  ∃ top doc trim c r trim' rest, t = c :: r ∧
    plain (element top doc trim c r) = .ok (⟨some n, trim'⟩, rest)

/-! ### What an element is -/

theorem ElementAt.isStatement {t : List Char} {n : Node} (h : ElementAt t n) :
    n = .text "" ∨ IsStatement .parsed (undocumented n) := by
  obtain ⟨top, doc, trim, c, r, trim', rest, rfl, read⟩ := h
  have reads := element_reads top doc trim c r
  rw [read] at reads
  exact (reads.2 n rfl).imp id And.left

theorem setStatement_isAssignment {s r : List Char} {t : Statement}
    (h : plain (setStatement s) = .ok (t, r)) : ∃ x value, t.node = .assign x value .set := by
  rw [plain_setStatement] at h
  obtain ⟨⟨x, r₁⟩, -, h⟩ := ok_of_bind h
  dsimp only at h
  split at h
  · obtain ⟨⟨e, r₂⟩, -, h⟩ := ok_of_bind h
    obtain ⟨p, -, h⟩ := ok_of_bind h
    cases h
    exact ⟨_, _, rfl⟩
  · split at h
    · cases h
    · obtain ⟨p, -, h⟩ := ok_of_bind h
      obtain ⟨p, -, h⟩ := ok_of_bind h
      obtain ⟨p, -, h⟩ := ok_of_bind h
      cases h
      exact ⟨_, _, rfl⟩

theorem ifStatement_isBranch {s r : List Char} {t : Statement}
    (h : plain (ifStatement s) = .ok (t, r)) : ∃ c yes no, t.node = .branch c yes no := by
  rw [plain_ifStatement] at h
  obtain ⟨⟨e, r₁⟩, -, h⟩ := ok_of_bind h
  obtain ⟨⟨trim, r₂⟩, -, h⟩ := ok_of_bind h
  obtain ⟨⟨yes, r₃⟩, -, h⟩ := ok_of_bind h
  dsimp only at h
  split at h
  · obtain ⟨p, -, h⟩ := ok_of_bind h
    cases h
    exact ⟨_, _, _, rfl⟩
  · obtain ⟨p, -, h⟩ := ok_of_bind h
    cases h
    exact ⟨_, _, _, rfl⟩
  · split at h
    · obtain ⟨p, -, h⟩ := ok_of_bind h
      cases h
      exact ⟨_, _, _, rfl⟩
    · obtain ⟨p, -, h⟩ := ok_of_bind h
      obtain ⟨p, -, h⟩ := ok_of_bind h
      obtain ⟨p, -, h⟩ := ok_of_bind h
      cases h
      exact ⟨_, _, _, rfl⟩
  · obtain ⟨p, -, h⟩ := ok_of_bind h
    cases h
    exact ⟨_, _, _, rfl⟩

theorem forStatement_isLoop {s r : List Char} {t : Statement}
    (h : plain (forStatement s) = .ok (t, r)) :
    (∃ c yes no, t.node = .branch c yes no) ∨
      ∃ key item items body, t.node = .loop key item items body := by
  rw [plain_forStatement] at h
  obtain ⟨⟨head, r₁⟩, -, h⟩ := ok_of_bind h
  obtain ⟨⟨b, r₂⟩, -, h⟩ := ok_of_bind h
  obtain ⟨⟨trim, r₃⟩, -, h⟩ := ok_of_bind h
  dsimp only at h
  split at h
  · obtain ⟨p, -, h⟩ := ok_of_bind h
    obtain ⟨p, -, h⟩ := ok_of_bind h
    cases h
    exact .inl ⟨_, _, _, rfl⟩
  · cases h
    exact .inr ⟨_, _, _, _, rfl⟩

/-- What a statement can leave, with the head of a call block and of a definition. -/
inductive StatementForm (doc : Option String) (s : List Char) : Node → Prop
  | call {r r' : List Char} {c : String} {args body : List Node} {trim : Bool} :
      plain (name s) = .ok ("call", r) → plain (callHead r) = .ok ((c, args, trim), r') →
      StatementForm doc s (.call c (.parameters args) body)
  | macroDef {r r' : List Char} {m : String} {params body : List Node} {trim : Bool} :
      plain (name s) = .ok ("macro", r) → plain (macroHead r) = .ok ((m, params, trim), r') →
      StatementForm doc s (.macroDef m (.parameters params) body doc)
  | assign {x value : Node} : StatementForm doc s (.assign x value .set)
  | branch {c : Node} {yes no : List Node} : StatementForm doc s (.branch c yes no)
  | loop {key : Option String} {item : String} {items : Node} {body : List Node} :
      StatementForm doc s (.loop key item items body)

theorem statementForm_of_statement {doc : Option String} {s r : List Char} {n : Node} {trim : Bool}
    (h : plain (statement doc s) = .ok (⟨some n, trim⟩, r)) : StatementForm doc s n := by
  rw [plain_statement] at h
  obtain ⟨⟨keyword, r₁⟩, named, h⟩ := ok_of_bind h
  dsimp only at h
  split at h
  · obtain ⟨⟨⟨c, args, trim₁⟩, r₂⟩, head, h⟩ := ok_of_bind h
    obtain ⟨p, -, h⟩ := ok_of_bind h
    obtain ⟨p, -, h⟩ := ok_of_bind h
    cases h
    exact .call named head
  · obtain ⟨⟨⟨m, params, trim₁⟩, r₂⟩, head, h⟩ := ok_of_bind h
    obtain ⟨p, -, h⟩ := ok_of_bind h
    obtain ⟨p, -, h⟩ := ok_of_bind h
    cases h
    exact .macroDef named head
  · obtain ⟨⟨t, r₂⟩, set, h⟩ := ok_of_bind h
    cases h
    obtain ⟨x, value, same⟩ := setStatement_isAssignment set
    rw [same]
    exact .assign
  · obtain ⟨⟨t, r₂⟩, branch, h⟩ := ok_of_bind h
    cases h
    obtain ⟨c, yes, no, same⟩ := ifStatement_isBranch branch
    rw [same]
    exact .branch
  · obtain ⟨⟨t, r₂⟩, loop, h⟩ := ok_of_bind h
    cases h
    obtain ⟨c, yes, no, same⟩ | ⟨key, item, items, body, same⟩ := forStatement_isLoop loop
    · rw [same]
      exact .branch
    · rw [same]
      exact .loop
  · obtain ⟨p, -, h⟩ := ok_of_bind h
    obtain ⟨p, -, h⟩ := ok_of_bind h
    cases h
  · obtain ⟨p, -, h⟩ := ok_of_bind h
    obtain ⟨p, -, h⟩ := ok_of_bind h
    cases h
  · cases h

/-- An element is an output, a statement or text. -/
theorem ElementAt.form {t : List Char} {n : Node} (h : ElementAt t n) :
    (∃ s e r, plain (tagStart? "\x7b\x7b" t) = some ((), s) ∧ plain (condition s) = .ok (e, r) ∧
      n = outputOf e) ∨
    (∃ s doc, plain (tagStart? "\x7b%" t) = some ((), s) ∧ StatementForm doc s n) ∨
    ∃ v, n = .text v := by
  obtain ⟨top, doc, trim, c, r, trim', rest, rfl, read⟩ := h
  rw [plain_element] at read
  split at read
  · rename_i s start
    rw [plain_outputTag] at read
    obtain ⟨⟨e, r₁⟩, inside, read⟩ := ok_of_bind read
    obtain ⟨p, -, read⟩ := ok_of_bind read
    cases read
    exact .inl ⟨s, e, r₁, start, inside, rfl⟩
  · split at read
    · rename_i s start
      exact .inr (.inl ⟨s, doc, start, statementForm_of_statement read⟩)
    · split at read
      · obtain ⟨p, -, read⟩ := ok_of_bind read
        cases read
      · cases read
        exact .inr (.inr ⟨_, rfl⟩)

/-- The subtrees of an element are expressions, the elements of its blocks, or such a block. -/
theorem forall_subtrees_of_isStatement {Q : Node → Prop} {n : Node}
    (h : IsStatement .parsed (undocumented n)) (expression : ∀ m, IsExpressionTree m → Q m)
    (block : Q (.list n.enclosed)) (inside : ∀ k ∈ n.enclosed, Q k) :
    ∀ m ∈ n.subtrees, Q m := by
  have same : (undocumented n).enclosed = n.enclosed := by cases n <;> rfl
  rw [← subtrees_undocumented]
  rw [← same] at block inside
  generalize undocumented n = m at h block inside ⊢
  cases h with
  | text | yield => simp [Node.subtrees, Node.children]
  | output he => exact List.forall_mem_singleton.mpr (expression _ he.isExpressionTree)
  | set _ he =>
    refine List.forall_mem_cons.mpr ⟨expression _ (isExpressionTree_leaf rfl rfl), ?_⟩
    exact List.forall_mem_singleton.mpr (expression _ he.isExpressionTree)
  | blockSet =>
    refine List.forall_mem_cons.mpr ⟨expression _ (isExpressionTree_leaf rfl rfl), ?_⟩
    exact List.forall_mem_singleton.mpr block
  | branch he => exact List.forall_mem_cons.mpr ⟨expression _ he.isExpressionTree, inside⟩
  | loop _ _ he => exact List.forall_mem_cons.mpr ⟨expression _ he.isExpressionTree, inside⟩
  | call _ ha =>
    exact List.forall_mem_cons.mpr
      ⟨expression _ (isExpressionTree_parameters ha.isExpressionTree), inside⟩
  | macroDef _ hd =>
    exact List.forall_mem_cons.mpr
      ⟨expression _ (isExpressionTree_parameters hd.isExpressionTree), inside⟩

/-! ### Bodies under construction -/

/-- The property passes from the elements of the blocks of a statement to the statement, if the
statement stands in the source. -/
structure Inherited (source : List Char) (P : Node → Prop) : Prop where
  text (s : String) : P (.text s)
  /-- Also for what comes after an "elif", which is no element by itself. -/
  branch {c : Node} {yes no : List Node} : IsCondition .parsed c → (∀ n ∈ yes, P n) →
    (∀ n ∈ no, P n) → P (.branch c yes no)
  /-- Also for a loop with an "else", which becomes part of a branch. -/
  loop {key : Option String} {item : String} {items : Node} {body : List Node} :
    IsCondition .parsed items → (∀ n ∈ body, P n) → P (.loop key item items body)
  element {t : List Char} {n : Node} : t <:+ source → ElementAt t n →
    (∀ k ∈ n.enclosed, P k) → P n

variable {source : List Char} {P : Node → Prop}

theorem Inherited.push (inherited : Inherited source P) {done : List Node} {n : Node}
    (h : ∀ m ∈ done, P m) (hn : P n) : ∀ m ∈ push done n, P m := by
  unfold Template.push
  split
  · split
    · exact h
    · exact List.forall_mem_cons.mpr ⟨inherited.text _, (List.forall_mem_cons.mp h).2⟩
  · split
    · exact h
    · exact List.forall_mem_cons.mpr ⟨hn, h⟩
  · exact List.forall_mem_cons.mpr ⟨hn, h⟩

theorem Inherited.pushElement (inherited : Inherited source P) {done : List Node} {e : Element}
    (h : ∀ m ∈ done, P m) (he : ∀ n ∈ e.node?, P n) :
    ∀ m ∈ pushAll done e.node?.toList, P m := by
  rcases e with ⟨_ | n, trim⟩
  · exact h
  · exact inherited.push h (he n rfl)

theorem Inherited.trimmed (inherited : Inherited source P) {done : List Node}
    (h : ∀ m ∈ done, P m) (trims : Bool) : ∀ m ∈ if trims then trimTail done else done, P m := by
  split
  · unfold trimTail
    split
    · have rest := (List.forall_mem_cons.mp h).2
      dsimp only
      split
      · exact rest
      · exact List.forall_mem_cons.mpr ⟨inherited.text _, rest⟩
    · exact h
  · exact h

/-! ### What the readers return -/

/-- A reader that succeeds leaves an end of the source and returns a value with the property `P`. -/
def ReadsWithin {α : Type} (source : List Char) (P : α → Prop) :
    Except Failure (α × List Char) → Prop
  | .ok (v, r) => r <:+ source ∧ P v
  | .error _ => True

section ReadsWithin

variable {α β : Type} {s : List Char} {P : α → Prop} {x : Except Failure (α × List Char)}

theorem ReadsWithin.here {v : α} (end_ : s <:+ source) (h : P v) :
    ReadsWithin source P (.ok (v, s)) := ⟨end_, h⟩

theorem Reads.within (h : Reads s P x) (end_ : s <:+ source) : ReadsWithin source P x := by
  rcases x with f | ⟨v, r⟩
  · trivial
  · exact ⟨h.1.trans end_, h.2⟩

theorem ReadsWithin.bind {Q : β → Prop} {f : α × List Char → Except Failure (β × List Char)}
    (first : ReadsWithin source P x)
    (second : ∀ v r, x = .ok (v, r) → r <:+ source → P v → ReadsWithin source Q (f (v, r))) :
    ReadsWithin source Q (x >>= f) := by
  rcases x with e | ⟨v, r⟩
  · trivial
  · exact second v r rfl first.1 first.2

end ReadsWithin

/-- All elements of the blocks of what is left behind have the property. -/
def AllEnclosed (P : Node → Prop) (e : Element) : Prop := ∀ n ∈ e.node?, ∀ k ∈ n.enclosed, P k

theorem allEnclosed_some {n : Node} {trim : Bool} (h : ∀ k ∈ n.enclosed, P k) :
    AllEnclosed P ⟨some n, trim⟩ := by
  intro m hm
  cases hm
  exact h

theorem import_within {s : List Char} (inside : s <:+ source) :
    ReadsWithin source (AllEnclosed P) (do
      let (_, r) ← plain (skipTag s)
      let (trim, r) ← plain (tagEnd "%\x7d" r)
      return (⟨none, trim⟩, r)) := by
  refine ((skipTag_reads s).within inside).bind fun _ r _ inside _ => ?_
  refine ((tagEnd_reads (by decide) r).within inside).bind fun trim r _ inside _ => ?_
  exact .here inside (by simp [AllEnclosed])

theorem enclosed_outputOf (e : Node) : (outputOf e).enclosed = [] := by
  unfold outputOf
  split <;> rfl

theorem enclosed_set {x e : Node} (h : IsCondition .parsed e) :
    (Node.assign x e .set).enclosed = [] := by
  have part := h.isExpressionTree e e.mem_preorder_self
  cases e with
  | list body => cases part
  | _ => rfl

mutual

theorem bodyFrom_within (inherited : Inherited source P) (ends : List String) (done : List Node)
    (trim : Bool) (s : List Char) (end_ : s <:+ source) (h : ∀ n ∈ done, P n) :
    ReadsWithin source (fun b => ∀ n ∈ b.nodes, P n) (plain (bodyFrom ends done trim s)) := by
  cases hs : s with
  | nil =>
    rw [bodyFrom]
    trivial
  | cons c r =>
    have size : s.length = r.length + 1 := by rw [hs, List.length_cons]
    rw [hs] at end_
    rw [plain_bodyFrom_cons]
    have trimmed := inherited.trimmed h (trimsBefore (c :: r))
    dsimp only
    split
    · rename_i closer t ht
      rw [plain_endTag?] at ht
      have closed := suffix_of_statementKeyword? (Option.filter_eq_some_iff.mp ht).1
      refine .here (closed.trans end_) fun n hn => ?_
      exact trimmed n (List.mem_reverse.mp hn)
    · refine (element_within inherited false none trim c r end_).bind fun e t ht inside he => ?_
      have := length_of_plain ht
      exact bodyFrom_within inherited ends _ e.trim t inside (inherited.pushElement trimmed he)
termination_by 8 * s.length + 4
decreasing_by all_goals simp only [List.length_cons] at *; omega

theorem element_within (inherited : Inherited source P) (top : Bool) (doc : Option String)
    (trim : Bool) (c : Char) (r : List Char) (end_ : c :: r <:+ source) :
    ReadsWithin source (fun e => ∀ n ∈ e.node?, P n) (plain (element top doc trim c r)) := by
  have below := element_allEnclosed inherited top doc trim c r end_
  rcases read : plain (element top doc trim c r) with f | ⟨⟨node?, trim'⟩, t⟩
  · trivial
  · rw [read] at below
    refine ⟨below.1, ?_⟩
    rintro n ⟨rfl⟩
    -- Only here the reading as a whole is at hand, and with it the place of the element.
    exact inherited.element end_ ⟨top, doc, trim, c, r, trim', t, rfl, read⟩ (below.2 n rfl)
termination_by 8 * (c :: r).length + 3
decreasing_by all_goals simp only [List.length_cons] at *; omega

theorem element_allEnclosed (inherited : Inherited source P) (top : Bool) (doc : Option String)
    (trim : Bool) (c : Char) (r : List Char) (end_ : c :: r <:+ source) :
    ReadsWithin source (AllEnclosed P) (plain (element top doc trim c r)) := by
  rw [plain_element]
  split
  · rename_i t h
    have inside := (suffix_of_tagStart? h).trans end_
    rw [plain_outputTag]
    refine ((condition_reads t).within inside).bind fun e r _ inside he => ?_
    refine ((tagEnd_reads (by decide) r).within inside).bind fun trim r _ inside _ => ?_
    exact .here inside (allEnclosed_some (by simp [enclosed_outputOf]))
  · split
    · rename_i t h
      have : t.length ≤ r.length := by simpa using length_of_plain_some h
      exact statement_allEnclosed inherited doc t ((suffix_of_tagStart? h).trans end_)
    · split
      · rename_i found h
        refine ((comment?_reads h).within end_).bind fun b t _ inside _ => ?_
        exact .here inside (by simp [AllEnclosed])
      · refine .here (((suffix_of_textSpan top r).trans (List.suffix_cons c r)).trans end_) ?_
        exact allEnclosed_some (n := .text _) (by simp [Node.enclosed])
termination_by 8 * (c :: r).length + 2
decreasing_by all_goals simp only [List.length_cons] at *; omega

theorem statement_allEnclosed (inherited : Inherited source P) (doc : Option String) (s : List Char)
    (end_ : s <:+ source) :
    ReadsWithin source (AllEnclosed P) (plain (statement doc s)) := by
  rw [plain_statement]
  refine ((name_reads s).within end_).bind fun keyword r h inside _ => ?_
  have := length_of_plain h
  dsimp only
  split
  · refine ((callHead_reads r).within inside).bind fun head r h inside _ => ?_
    have := length_of_plain h
    refine (bodyFrom_within inherited _ [] head.2.2 r inside (by simp)).bind
      fun b r _ inside hb => ?_
    refine ((tagEnd_reads (by decide) r).within inside).bind fun trim r _ inside _ => ?_
    exact .here inside (allEnclosed_some hb)
  · refine ((macroHead_reads r).within inside).bind fun head r h inside _ => ?_
    have := length_of_plain h
    refine (bodyFrom_within inherited _ [] head.2.2 r inside (by simp)).bind
      fun b r _ inside hb => ?_
    refine ((tagEnd_reads (by decide) r).within inside).bind fun trim r _ inside _ => ?_
    exact .here inside (allEnclosed_some hb)
  · exact (setStatement_allEnclosed inherited r inside).bind fun t r _ inside ht =>
      .here inside (allEnclosed_some ht)
  · exact (ifStatement_allEnclosed inherited r inside).bind fun t r _ inside ht =>
      .here inside (allEnclosed_some ht.1)
  · exact (forStatement_allEnclosed inherited r inside).bind fun t r _ inside ht =>
      .here inside (allEnclosed_some ht)
  · exact import_within inside
  · exact import_within inside
  · trivial
termination_by 8 * s.length + 1
decreasing_by all_goals omega

theorem setStatement_allEnclosed (inherited : Inherited source P) (s : List Char)
    (end_ : s <:+ source) :
    ReadsWithin source (fun t => ∀ k ∈ t.node.enclosed, P k) (plain (setStatement s)) := by
  rw [plain_setStatement]
  refine ((name_reads s).within end_).bind fun n r h inside _ => ?_
  have := length_of_plain h
  dsimp only
  split
  · rename_i t ht
    have inside := (suffix_of_spaced? ht).trans inside
    refine ((condition_reads t).within inside).bind fun e r _ inside he => ?_
    refine ((tagEnd_reads (by decide) r).within inside).bind fun trim r _ inside _ => ?_
    exact .here inside (by simp [enclosed_set he])
  · split
    · trivial
    · refine ((tagEnd_reads (by decide) r).within inside).bind fun trim r h inside _ => ?_
      have := length_of_plain h
      refine (bodyFrom_within inherited _ [] trim r inside (by simp)).bind fun b r _ inside hb => ?_
      refine ((tagEnd_reads (by decide) r).within inside).bind fun trim r _ inside _ => ?_
      exact .here inside hb
termination_by 8 * s.length
decreasing_by all_goals omega

theorem ifStatement_allEnclosed (inherited : Inherited source P) (s : List Char)
    (end_ : s <:+ source) :
    ReadsWithin source (fun t => (∀ k ∈ t.node.enclosed, P k) ∧ P t.node)
      (plain (ifStatement s)) := by
  rw [plain_ifStatement]
  refine ((condition_reads s).within end_).bind fun e r h inside he => ?_
  have := length_of_plain h
  refine ((tagEnd_reads (by decide) r).within inside).bind fun trim r h inside _ => ?_
  have := length_of_plain h
  refine (bodyFrom_within inherited _ [] trim r inside (by simp)).bind fun yes r h inside hyes => ?_
  have := length_of_plain h
  have branch : ∀ no, (∀ n ∈ no, P n) → (∀ k ∈ yes.nodes ++ no, P k) ∧
      P (.branch e yes.nodes no) := fun no hno =>
    ⟨List.forall_mem_append.mpr ⟨hyes, hno⟩, inherited.branch he hyes hno⟩
  dsimp only
  split
  · refine (ifStatement_allEnclosed inherited r inside).bind fun other r _ inside ho => ?_
    exact .here inside (branch _ (List.forall_mem_singleton.mpr ho.2))
  · refine (ifStatement_allEnclosed inherited r inside).bind fun other r _ inside ho => ?_
    exact .here inside (branch _ (List.forall_mem_singleton.mpr ho.2))
  · split
    · rename_i t ht
      have := length_of_plain_some ht
      rw [plain_spacedKeyword?] at ht
      have inside := (suffix_of_keyword? ht).trans ((skipBlanks_suffix r).trans inside)
      refine (ifStatement_allEnclosed inherited t inside).bind fun other r _ inside ho => ?_
      exact .here inside (branch _ (List.forall_mem_singleton.mpr ho.2))
    · refine ((tagEnd_reads (by decide) r).within inside).bind fun trim r h inside _ => ?_
      have := length_of_plain h
      refine (bodyFrom_within inherited _ [] trim r inside (by simp)).bind
        fun no r _ inside hno => ?_
      refine ((tagEnd_reads (by decide) r).within inside).bind fun trim r _ inside _ => ?_
      exact .here inside (branch _ hno)
  · refine ((tagEnd_reads (by decide) r).within inside).bind fun trim r _ inside _ => ?_
    exact .here inside (branch _ (by simp))
termination_by 8 * s.length
decreasing_by all_goals omega

theorem forStatement_allEnclosed (inherited : Inherited source P) (s : List Char)
    (end_ : s <:+ source) :
    ReadsWithin source (fun t => ∀ k ∈ t.node.enclosed, P k) (plain (forStatement s)) := by
  rw [plain_forStatement]
  refine ((loopHead_reads s).within end_).bind fun head r h inside hh => ?_
  have := length_of_plain h
  refine (bodyFrom_within inherited _ [] head.trim r inside (by simp)).bind
    fun b r h inside hb => ?_
  have := length_of_plain h
  refine ((tagEnd_reads (by decide) r).within inside).bind fun trim r h inside _ => ?_
  have := length_of_plain h
  dsimp only
  split
  · refine (bodyFrom_within inherited _ [] trim r inside (by simp)).bind fun no r _ inside hno => ?_
    refine ((tagEnd_reads (by decide) r).within inside).bind fun trim r _ inside _ => ?_
    exact .here inside (List.forall_mem_cons.mpr ⟨inherited.loop hh.2.2 hb, hno⟩)
  · exact .here inside hb
termination_by 8 * s.length
decreasing_by all_goals omega

end

/-! ### Templates -/

/-- An inherited property holds of all elements of a template. -/
theorem elementsFrom_inherited (inherited : Inherited source P) {done ns : List Node}
    {run : List DocBlock} {doc : Option String} {trim : Bool} {s : List Char} (end_ : s <:+ source)
    (h : ∀ n ∈ done, P n) (read : elementsFrom done run doc trim s = .ok ns) : ∀ n ∈ ns, P n := by
  induction hn : s.length using Nat.strongRecOn generalizing s done run doc trim with
  | ind size ih =>
    subst hn
    cases s with
    | nil =>
      rw [elementsFrom_nil] at read
      cases read
      intro n hn
      exact inherited.push h (inherited.text _) n (List.mem_reverse.mp hn)
    | cons c r =>
      rw [elementsFrom_cons] at read
      have trimmed := inherited.trimmed h (trimsBefore (c :: r))
      dsimp only at read
      split at read
      · rename_i found hf
        have reads := docBlock?_reads hf
        rcases found with f | ⟨⟨block, trim'⟩, t⟩
        · cases read
        · have shorter : t.length < (c :: r).length := by
            obtain ⟨x, -, hx⟩ := Option.map_eq_some_iff.mp hf
            exact length_of_plain hx
          have inside := reads.1.trans end_
          change (if _ then _ else if _ then _ else _) = _ at read
          split at read
          · exact ih _ shorter inside trimmed read rfl
          · split at read
            · exact ih _ shorter inside trimmed read rfl
            · exact ih _ shorter inside (inherited.push trimmed (inherited.text _)) read rfl
      · have within := element_within inherited true doc trim c r end_
        cases he : plain (element true doc trim c r) with
        | error f =>
          rw [he] at read
          cases read
        | ok p =>
          obtain ⟨e, t⟩ := p
          rw [he] at read within
          exact ih _ (length_of_plain he) within.1 (inherited.pushElement trimmed within.2) read rfl

end Template

end TagCompiler
