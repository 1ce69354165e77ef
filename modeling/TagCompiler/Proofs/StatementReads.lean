import TagCompiler.Proofs.ExpressionReads
import TagCompiler.Proofs.StatementEquations
/-!
# What the statement readers return

A body under construction keeps two facts: its elements are statements, and no two texts are next
to each other. Adding an element, joining texts and trimming keep both, so every finished body is a
body of the grammar. As for expressions, a reader that fails does so at a place of its input.
-/

namespace TagCompiler.Template

open Text Grammar

/-! ### Bodies under construction -/

/-- The facts about a body that is held in reverse, whose elements have the property `P`. -/
def Pending (P : Node → Prop) (done : List Node) : Prop := (∀ n ∈ done, P n) ∧ done.IsChain Apart

section Pending

variable {P : Node → Prop} {done : List Node} {n : Node}

theorem Pending.nil : Pending P [] := ⟨by simp, .nil⟩

theorem Pending.cons (hn : P n) (apart : ∀ m ∈ done.head?, Apart n m) (h : Pending P done) :
    Pending P (n :: done) :=
  ⟨List.forall_mem_cons.mpr ⟨hn, h.1⟩, List.isChain_cons.mpr ⟨apart, h.2⟩⟩

theorem Pending.tail (h : Pending P (n :: done)) :
    Pending P done ∧ P n ∧ ∀ m ∈ done.head?, Apart n m := by
  obtain ⟨hn, all⟩ := List.forall_mem_cons.mp h.1
  obtain ⟨apart, chained⟩ := List.isChain_cons.mp h.2
  exact ⟨⟨all, chained⟩, hn, apart⟩

/-- A text may stand where another text stood. -/
theorem Pending.replaceText {s t : String} (h : Pending P (.text s :: done)) (ht : P (.text t)) :
    Pending P (.text t :: done) := by
  obtain ⟨rest, -, apart⟩ := h.tail
  exact rest.cons ht apart

theorem apart_of_not_text {m : Node} (h : isText n = false) : Apart n m := by
  rw [Apart, h, Bool.false_and]

theorem apart_text_of_not_text {s : String} {m : Node} (h : isText m = false) :
    Apart (.text s) m := (apart_of_not_text h).symm

theorem Pending.push (text : ∀ s, P (.text s) ↔ s ≠ "") (h : Pending P done)
    (hn : n = .text "" ∨ P n) : Pending P (push done n) := by
  unfold Template.push
  split
  · rename_i s t rest
    split
    · exact h
    · rename_i nonempty
      refine h.replaceText ((text _).mpr fun empty => nonempty ?_)
      rw [String.append_eq_empty_iff] at empty
      simp [empty.2]
  · rename_i s noText
    split
    · exact h
    · rename_i nonempty
      refine h.cons ((text s).mpr (by simpa using nonempty)) fun m hm => ?_
      apply apart_text_of_not_text
      obtain ⟨rest, rfl⟩ := List.head?_eq_some_iff.mp hm
      cases m with
      | text t => exact absurd rfl (noText t rest)
      | _ => rfl
  · rename_i notText _
    rcases hn with rfl | hn
    · exact absurd rfl (notText "")
    · refine h.cons hn fun m _ => apart_of_not_text ?_
      cases n with
      | text s => exact absurd rfl (notText s)
      | _ => rfl

theorem Pending.trimTail (text : ∀ s, P (.text s) ↔ s ≠ "") (h : Pending P done) :
    Pending P (trimTail done) := by
  unfold Template.trimTail
  split
  · dsimp only
    split
    · exact h.tail.1
    · rename_i nonempty
      exact h.replaceText ((text _).mpr (by simpa using nonempty))
  · exact h

end Pending

theorem undocumented_of_isStatement {L : Lexicon} {n : Node} (h : IsStatement L n) :
    undocumented n = n := by
  cases h <;> rfl

theorem isText_undocumented (n : Node) : isText (undocumented n) = isText n := by
  cases n <;> rfl

theorem isStatement_text_iff (s : String) : IsStatement .parsed (.text s) ↔ s ≠ "" := by
  constructor
  · rintro ⟨h⟩
    exact h
  · exact fun h => .text h

theorem Pending.isTemplate {done : List Node}
    (h : Pending (fun n => IsStatement .parsed (undocumented n)) done) :
    IsTemplate .parsed done.reverse := by
  refine isBody_iff.mpr ⟨?_, ?_⟩
  · intro n hn
    obtain ⟨m, hm, rfl⟩ := List.mem_map.mp hn
    exact h.1 m (List.mem_reverse.mp hm)
  · rw [List.isChain_map, List.isChain_reverse]
    refine h.2.imp fun m n apart => ?_
    show (isText (undocumented n) && isText (undocumented m)) = false
    rw [isText_undocumented, isText_undocumented]
    exact apart.symm

theorem Pending.isBody {done : List Node} (h : Pending (IsStatement .parsed) done) :
    IsBody .parsed done.reverse := by
  refine isBody_iff.mpr ⟨fun n hn => h.1 n (List.mem_reverse.mp hn), ?_⟩
  rw [List.isChain_reverse]
  exact h.2.imp fun m n apart => apart.symm

theorem isBody_singleton {L : Lexicon} {n : Node} (h : IsStatement L n) : IsBody L [n] :=
  .cons h (by simp) .nil

/-! ### Heads of statements -/

theorem default_reads (s : List Char) :
    Reads s (fun value => ∀ e ∈ value, IsCondition .parsed e) (plain (declarations.default s)) := by
  rw [plain_default]
  split
  · rename_i r h
    refine Reads.of_suffix ?_ (suffix_of_spaced? h)
    exact (condition_reads r).bind fun e t _ he => .here fun _ h => by cases h; exact he
  · exact .here (by simp)

theorem isDeclarations_cons {n : String} {value : Option Node} {more : List Node}
    (hn : isName n = true) (hv : ∀ e ∈ value, IsCondition .parsed e)
    (hm : IsDeclarations .parsed more) :
    IsDeclarations .parsed (.parameter (some n) value :: more) := by
  cases value with
  | none => exact .bare hn hm
  | some e => exact .defaulted hn (hv e rfl) hm

theorem declarations_reads (s : List Char) :
    Reads s (IsDeclarations .parsed) (plain (declarations s)) := by
  rw [plain_declarations]
  split
  · rename_i r h
    exact .ok (suffix_of_spaced? h) .nil
  · refine (name_reads s).bind fun n r h hn => ?_
    have := length_of_plain h
    refine (default_reads r).bind fun value r h hv => ?_
    have := length_of_plain h
    dsimp only
    split
    · rename_i t ht
      have := length_of_plain_some ht
      refine Reads.of_suffix ?_ (suffix_of_spaced? ht)
      exact (declarations_reads t).bind fun more t _ hm => .here (isDeclarations_cons hn hv hm)
    · exact (demandSpaced_reads (by decide) r).bind fun _ t _ _ =>
        .here (isDeclarations_cons hn hv .nil)
termination_by s.length
decreasing_by all_goals omega

theorem macroHead_reads (s : List Char) : Reads s
    (fun head => isName head.1 = true ∧ IsDeclarations .parsed head.2.1) (plain (macroHead s)) := by
  rw [plain_macroHead]
  refine (name_reads s).bind fun n r _ hn => ?_
  refine (demandSpaced_reads (by decide) r).bind fun _ r _ _ => ?_
  refine (declarations_reads r).bind fun ps r _ hps => ?_
  exact (tagEnd_reads (by decide) r).bind fun trim r _ _ => .here ⟨hn, hps⟩

theorem blockParameters_reads (s : List Char) :
    Reads s (fun _ => True) (plain (callHead.blockParameters s)) := by
  rw [plain_blockParameters]
  split
  · rename_i r h
    refine Reads.of_suffix ?_ (suffix_of_spaced? h)
    exact (declarations_reads r).bind fun _ t _ _ => .here trivial
  · exact .here trivial

theorem callHead_reads (s : List Char) : Reads s
    (fun head => IsDotted head.1 ∧ IsArguments .parsed head.2.1) (plain (callHead s)) := by
  rw [plain_callHead]
  refine (blockParameters_reads s).bind fun _ r _ _ => ?_
  refine (dottedName_reads r).bind fun n r _ hn => ?_
  refine (demandSpaced_reads (by decide) r).bind fun _ r _ _ => ?_
  refine (arguments_reads r).bind fun args r _ ha => ?_
  exact (tagEnd_reads (by decide) r).bind fun trim r _ _ => .here ⟨hn, ha⟩

theorem loopNames_reads (s : List Char) : Reads s
    (fun names => (∀ k ∈ names.1, isName k = true) ∧ isName names.2 = true)
    (plain (loopNames s)) := by
  rw [plain_loopNames]
  refine (name_reads s).bind fun first r _ hf => ?_
  dsimp only
  split
  · rename_i t ht
    refine Reads.of_suffix ?_ (suffix_of_spaced? ht)
    exact (name_reads t).bind fun second t _ hs => .here ⟨by simpa using hf, hs⟩
  · exact .here ⟨by simp, hf⟩

theorem loopHead_reads (s : List Char) : Reads s
    (fun head => (∀ k ∈ head.key, isName k = true) ∧ isName head.item = true ∧
      IsCondition .parsed head.source) (plain (loopHead s)) := by
  rw [plain_loopHead]
  refine (loopNames_reads s).bind fun names r _ hn => ?_
  dsimp only
  split
  · rename_i h
    rw [plain_spacedKeyword?] at h
    exact Reads.of_skipBlanks (.fail (Or.inr (Or.inr (Or.inr ⟨rfl, h⟩))))
  · rename_i t ht
    rw [plain_spacedKeyword?] at ht
    refine Reads.of_skipBlanks (Reads.of_suffix ?_ (suffix_of_keyword? ht))
    refine (condition_reads t).bind fun e t _ he => ?_
    exact (tagEnd_reads (by decide) t).bind fun trim r _ _ => .here ⟨hn.1, hn.2, he⟩

/-! ### Tags, comments and text -/

/-- What an element leaves behind is empty text or a statement, which may have the documentation
`doc` if it defines a macro. -/
def IsElement (doc : Option String) (n : Node) : Prop :=
  n = .text "" ∨ IsStatement .parsed (undocumented n) ∧ (doc = none → undocumented n = n)

theorem IsElement.of_isStatement {doc : Option String} {n : Node} (h : IsStatement .parsed n) :
    IsElement doc n := by
  have same := undocumented_of_isStatement h
  exact .inr ⟨by rwa [same], fun _ => same⟩

theorem outputOf_isStatement {e : Node} (h : IsCondition .parsed e) :
    IsStatement .parsed (outputOf e) := by
  unfold outputOf
  split
  · exact .yield
  · rename_i other
    exact .output h other

theorem outputTag_reads (doc : Option String) (s : List Char) :
    Reads s (fun e => ∀ n ∈ e.node?, IsElement doc n) (plain (outputTag s)) := by
  rw [plain_outputTag]
  refine (condition_reads s).bind fun e r _ he => ?_
  refine (tagEnd_reads (by decide) r).bind fun trim r _ _ => .here fun n hn => ?_
  cases hn
  exact .of_isStatement (outputOf_isStatement he)

theorem tagStart?_finds {opener : String} {s r : List Char} {u : Unit}
    (h : plain (tagStart? opener s) = some (u, r)) :
    ∃ t, s = opener.toList ++ t ∧ (t = '-' :: r ∨ t = r) := by
  rw [plain_tagStart?] at h
  obtain ⟨p, hp, h⟩ := Option.bind_eq_some_iff.mp h
  refine ⟨p.2, (plain_word?_eq_some.mp hp).2, ?_⟩
  rcases Option.or_eq_some_iff.mp h with h | ⟨-, h⟩
  · exact .inl (plain_word?_eq_some.mp h).2
  · cases h
    exact .inr rfl

/-- What the tags of the three kinds start with. -/
def tagOpeners : List String := ["\x7b\x7b", "\x7b%", "\x7b#"]

/-- A tag has one opener. -/
theorem tagStart?_of_other {opener other : String} {s r : List Char} {u : Unit}
    (ho : opener ∈ tagOpeners) (ho' : other ∈ tagOpeners) (different : opener ≠ other)
    (start : plain (tagStart? opener s) = some (u, r)) : plain (tagStart? other s) = none := by
  obtain ⟨t, rfl, -⟩ := tagStart?_finds start
  simp only [tagOpeners, List.mem_cons, List.not_mem_nil, or_false] at ho ho'
  rw [plain_tagStart?]
  rcases ho with rfl | rfl | rfl <;> rcases ho' with rfl | rfl | rfl <;>
    first | exact absurd rfl different | rfl

theorem suffix_of_tagStart? {opener : String} {s r : List Char} {u : Unit}
    (h : plain (tagStart? opener s) = some (u, r)) : r <:+ s := by
  obtain ⟨t, rfl, rfl | rfl⟩ := tagStart?_finds h
  · exact (List.suffix_cons _ _).trans (List.suffix_append _ _)
  · exact List.suffix_append _ _

theorem suffix_of_statementKeyword? {s r : List Char} {keyword : String}
    (h : plain (statementKeyword? s) = some (keyword, r)) : r <:+ s := by
  rw [plain_statementKeyword?] at h
  obtain ⟨⟨_, t⟩, ht, h⟩ := Option.bind_eq_some_iff.mp h
  exact (name?_finds h).1.trans (suffix_of_tagStart? ht)

theorem suffix_of_upTo? {closer s body r : List Char}
    (h : plain (upTo? closer s) = some (body, r)) : r <:+ s := by
  rw [eq_of_upTo? h]
  exact (List.suffix_append _ _).trans (List.suffix_append _ _)

theorem comment?_reads {s : List Char} {x : Except Failure ((List Char × Bool) × List Char)}
    (h : (comment? s).map plain = some x) : Reads s (fun _ => True) x := by
  rw [plain_comment?] at h
  split at h
  · cases h
  · rename_i r hr
    split at h
    · rename_i unclosed
      cases h
      refine .fail (Or.inr ⟨rfl, ?_⟩)
      have open_ := not_infix_of_upTo? unclosed
      obtain ⟨t, rfl, rfl | rfl⟩ := tagStart?_finds hr
      · refine ⟨_, rfl, fun inside => ?_⟩
        rcases List.infix_cons_iff.mp inside with front | inside
        · simp at front
        · exact open_ inside
      · exact ⟨_, rfl, open_⟩
    · rename_i hb
      cases h
      exact .ok ((suffix_of_upTo? hb).trans (suffix_of_tagStart? hr)) trivial

theorem suffix_of_docComment? {s body r : List Char}
    (h : plain (docComment? s) = some (body, r)) : r <:+ s := by
  rw [plain_docComment?] at h
  obtain ⟨p, hp, h⟩ := Option.bind_eq_some_iff.mp h
  exact (suffix_of_upTo? h).trans (suffix_of_word? hp)

theorem skipTag_reads (s : List Char) : Reads s (fun _ => True) (plain (skipTag s)) := by
  induction hn : s.length using Nat.strongRecOn generalizing s with
  | ind n ih =>
    subst hn
    cases s with
    | nil =>
      rw [skipTag]
      exact .here trivial
    | cons c r =>
      rw [plain_skipTag_cons]
      split
      · exact .here trivial
      · split
        · rename_i quote
          refine (quoted_reads quote r).bind fun _ t h _ => ?_
          exact ih _ (by have := length_of_plain h; omega) t rfl
        · exact (ih _ (by simp) r rfl).of_suffix (List.suffix_cons c r)

theorem suffix_of_textSpan (top : Bool) (s : List Char) : (textSpan top s).rest <:+ s := by
  induction s with
  | nil => exact List.suffix_refl _
  | cons c r ih =>
    rw [textSpan]
    split
    · exact List.suffix_refl _
    · exact ih.trans (List.suffix_cons c r)

theorem textFrom_isElement (doc : Option String) (top trim : Bool) (c : Char) (r : List Char) :
    IsElement doc (textFrom top trim c r).value := by
  show IsElement doc (.text _)
  generalize String.ofList _ = s
  by_cases empty : s = ""
  · exact .inl (by rw [empty])
  · exact .of_isStatement (.text empty)

/-! ### Statements -/

theorem Pending.pushElement {P : Node → Prop} {done : List Node} {e : Element}
    (text : ∀ s, P (.text s) ↔ s ≠ "") (h : Pending P done)
    (he : ∀ n ∈ e.node?, n = .text "" ∨ P n) : Pending P (pushAll done e.node?.toList) := by
  rcases e with ⟨_ | n, trim⟩
  · exact h
  · exact h.push text (he n rfl)

/-- The keyword of a statement stands just before what is read after it. -/
theorem unknownKeyword_reads {P : Element → Prop} {s r : List Char} {keyword : String}
    (h : plain (name s) = .ok (keyword, r)) (other : keyword ∉ statementKeywords) :
    Reads s P (fail (.unknownKeyword keyword) r) := by
  rw [plain_name] at h
  obtain ⟨hn, hs, -⟩ := plain_nameHere_eq_ok.mp h
  refine Reads.of_skipBlanks ⟨keyword.toList, r, hs, rfl, hn, other, List.suffix_refl _⟩

theorem isElement_some {doc : Option String} {m : Node} (h : IsStatement .parsed m) :
    ∀ n ∈ some m, IsElement doc n := by
  rintro n ⟨rfl⟩
  exact .of_isStatement h

theorem import_reads {doc : Option String} (s : List Char) :
    Reads s (fun e : Element => ∀ n ∈ e.node?, IsElement doc n) (do
      let (_, r) ← plain (skipTag s)
      let (trim, r) ← plain (tagEnd "%\x7d" r)
      return (⟨none, trim⟩, r)) := by
  refine (skipTag_reads s).bind fun _ r _ _ => ?_
  exact (tagEnd_reads (by decide) r).bind fun trim r _ _ => .here (by simp)

mutual

theorem bodyFrom_reads (ends : List String) (done : List Node) (trim : Bool) (s : List Char)
    (h : Pending (IsStatement .parsed) done) :
    Reads s (fun b => IsBody .parsed b.nodes) (plain (bodyFrom ends done trim s)) := by
  cases hs : s with
  | nil =>
    rw [bodyFrom]
    exact .fail rfl
  | cons c r =>
    have size : s.length = r.length + 1 := by rw [hs, List.length_cons]
    rw [plain_bodyFrom_cons]
    have trimmed : Pending (IsStatement .parsed)
        (if trimsBefore (c :: r) then trimTail done else done) := by
      split
      · exact h.trimTail isStatement_text_iff
      · exact h
    dsimp only
    split
    · rename_i closer t ht
      rw [plain_endTag?] at ht
      exact .ok (suffix_of_statementKeyword? (Option.filter_eq_some_iff.mp ht).1) trimmed.isBody
    · refine (element_reads false none trim c r).bind fun e t ht he => ?_
      have := length_of_plain ht
      refine bodyFrom_reads ends _ e.trim t (trimmed.pushElement isStatement_text_iff ?_)
      intro n hn
      rcases he n hn with empty | ⟨hn, same⟩
      · exact .inl empty
      · exact .inr (by rwa [same rfl] at hn)
termination_by 8 * s.length + 3
decreasing_by all_goals omega

theorem element_reads (top : Bool) (doc : Option String) (trim : Bool) (c : Char)
    (r : List Char) : Reads (c :: r) (fun e => ∀ n ∈ e.node?, IsElement doc n)
      (plain (element top doc trim c r)) := by
  rw [plain_element]
  split
  · rename_i t h
    exact (outputTag_reads doc t).of_suffix (suffix_of_tagStart? h)
  · split
    · rename_i t h
      have : t.length ≤ r.length := by simpa using length_of_plain_some h
      exact (statement_reads doc t).of_suffix (suffix_of_tagStart? h)
    · split
      · rename_i found h
        exact (comment?_reads h).bind fun b t _ _ => .here (by simp)
      · refine .ok ((suffix_of_textSpan top r).trans (List.suffix_cons c r)) fun n hn => ?_
        cases hn
        exact textFrom_isElement doc top trim c r
termination_by 8 * (c :: r).length + 2
decreasing_by all_goals simp only [List.length_cons] at *; omega

theorem statement_reads (doc : Option String) (s : List Char) :
    Reads s (fun e => ∀ n ∈ e.node?, IsElement doc n) (plain (statement doc s)) := by
  rw [plain_statement]
  refine (name_reads s).bindWithin fun keyword r h suffix _ => ?_
  have := length_of_plain h
  dsimp only
  split
  · refine Reads.of_suffix ?_ suffix
    refine (callHead_reads r).bind fun head r h hh => ?_
    have := length_of_plain h
    refine (bodyFrom_reads _ [] head.2.2 r .nil).bind fun b r _ hb => ?_
    refine (tagEnd_reads (by decide) r).bind fun trim r _ _ => .here fun n hn => ?_
    cases hn
    exact .of_isStatement (.call hh.1 hh.2 hb)
  · refine Reads.of_suffix ?_ suffix
    refine (macroHead_reads r).bind fun head r h hh => ?_
    have := length_of_plain h
    refine (bodyFrom_reads _ [] head.2.2 r .nil).bind fun b r _ hb => ?_
    refine (tagEnd_reads (by decide) r).bind fun trim r _ _ => .here fun n hn => ?_
    cases hn
    exact .inr ⟨.macroDef hh.1 hh.2 hb, by rintro rfl; rfl⟩
  · refine Reads.of_suffix ?_ suffix
    exact (setStatement_reads r).bind fun t r _ ht => .here (isElement_some ht)
  · refine Reads.of_suffix ?_ suffix
    exact (ifStatement_reads r).bind fun t r _ ht => .here (isElement_some ht)
  · refine Reads.of_suffix ?_ suffix
    exact (forStatement_reads r).bind fun t r _ ht => .here (isElement_some ht)
  · exact (import_reads r).of_suffix suffix
  · exact (import_reads r).of_suffix suffix
  · rename_i not_call not_macro not_set not_if not_for not_from not_import
    refine unknownKeyword_reads h ?_
    simp only [statementKeywords, List.mem_cons, List.not_mem_nil, or_false]
    rintro (rfl | rfl | rfl | rfl | rfl | rfl | rfl)
    · exact not_macro rfl
    · exact not_call rfl
    · exact not_set rfl
    · exact not_if rfl
    · exact not_for rfl
    · exact not_from rfl
    · exact not_import rfl
termination_by 8 * s.length + 1
decreasing_by all_goals omega

theorem setStatement_reads (s : List Char) :
    Reads s (fun t => IsStatement .parsed t.node) (plain (setStatement s)) := by
  rw [plain_setStatement]
  refine (name_reads s).bind fun n r h hn => ?_
  have := length_of_plain h
  dsimp only
  split
  · rename_i t ht
    refine Reads.of_suffix ?_ (suffix_of_spaced? ht)
    refine (condition_reads t).bind fun e t _ he => ?_
    exact (tagEnd_reads (by decide) t).bind fun trim t _ _ => .here (.set hn he)
  · split
    · rename_i comma
      obtain ⟨t, ht⟩ := (startsWith_iff (by decide)).mp comma
      exact Reads.of_skipBlanks (.fail (by rw [← ht]; rfl))
    · refine (tagEnd_reads (by decide) r).bind fun trim r h _ => ?_
      have := length_of_plain h
      refine (bodyFrom_reads ["endset"] [] trim r .nil).bind fun b r _ hb => ?_
      exact (tagEnd_reads (by decide) r).bind fun trim r _ _ => .here (.blockSet hn hb)
termination_by 8 * s.length
decreasing_by all_goals omega

theorem ifStatement_reads (s : List Char) :
    Reads s (fun t => IsStatement .parsed t.node) (plain (ifStatement s)) := by
  rw [plain_ifStatement]
  refine (condition_reads s).bind fun e r h he => ?_
  have := length_of_plain h
  refine (tagEnd_reads (by decide) r).bind fun trim r h _ => ?_
  have := length_of_plain h
  refine (bodyFrom_reads _ [] trim r .nil).bind fun yes r h hy => ?_
  have := length_of_plain h
  dsimp only
  split
  · exact (ifStatement_reads r).bind fun other r _ ho =>
      .here (.branch he hy (isBody_singleton ho))
  · exact (ifStatement_reads r).bind fun other r _ ho =>
      .here (.branch he hy (isBody_singleton ho))
  · split
    · rename_i t ht
      have := length_of_plain_some ht
      rw [plain_spacedKeyword?] at ht
      refine Reads.of_skipBlanks (Reads.of_suffix ?_ (suffix_of_keyword? ht))
      exact (ifStatement_reads t).bind fun other r _ ho =>
        .here (.branch he hy (isBody_singleton ho))
    · refine (tagEnd_reads (by decide) r).bind fun trim r h _ => ?_
      have := length_of_plain h
      refine (bodyFrom_reads _ [] trim r .nil).bind fun no r _ hno => ?_
      exact (tagEnd_reads (by decide) r).bind fun trim r _ _ => .here (.branch he hy hno)
  · exact (tagEnd_reads (by decide) r).bind fun trim r _ _ => .here (.branch he hy .nil)
termination_by 8 * s.length
decreasing_by all_goals omega

theorem forStatement_reads (s : List Char) :
    Reads s (fun t => IsStatement .parsed t.node) (plain (forStatement s)) := by
  rw [plain_forStatement]
  refine (loopHead_reads s).bind fun head r h hh => ?_
  have := length_of_plain h
  refine (bodyFrom_reads _ [] head.trim r .nil).bind fun b r h hb => ?_
  have := length_of_plain h
  refine (tagEnd_reads (by decide) r).bind fun trim r h _ => ?_
  have := length_of_plain h
  have loop : IsStatement .parsed (.loop head.key head.item head.source b.nodes) :=
    .loop hh.1 hh.2.1 hh.2.2 hb
  dsimp only
  split
  · refine (bodyFrom_reads _ [] trim r .nil).bind fun no r _ hno => ?_
    exact (tagEnd_reads (by decide) r).bind fun trim r _ _ =>
      .here (.branch hh.2.2 (isBody_singleton loop) hno)
  · exact .here loop
termination_by 8 * s.length
decreasing_by all_goals omega

end

/-! ### Templates -/

theorem docBlock?_reads {trim : Bool} {s : List Char}
    {x : Except Failure ((DocBlock × Bool) × List Char)}
    (h : (docBlock? trim s).map plain = some x) : Reads s (fun _ => True) x := by
  rw [plain_docBlock?] at h
  split at h
  · rename_i hd
    cases h
    exact .ok ((skipBlanks_suffix _).trans (suffix_of_docComment? hd)) trivial
  · obtain ⟨found, hf, h⟩ := Option.map_eq_some_iff.mp h
    subst h
    exact (comment?_reads hf).bind fun _ r _ _ => .ok (skipBlanks_suffix r) trivial

theorem isStatement_undocumented_text_iff (s : String) :
    IsStatement .parsed (undocumented (.text s)) ↔ s ≠ "" := isStatement_text_iff s

theorem Pending.pushRun {done : List Node} (run : List DocBlock)
    (h : Pending (fun n => IsStatement .parsed (undocumented n)) done) :
    Pending (fun n => IsStatement .parsed (undocumented n)) (pushRun done run) := by
  refine h.push isStatement_undocumented_text_iff ?_
  generalize String.ofList _ = s
  by_cases empty : s = ""
  · exact .inl (by rw [empty])
  · exact .inr (.text empty)

/-- The elements of a template leave nothing unread. -/
theorem elementsFrom_reads (done : List Node) (run : List DocBlock) (doc : Option String)
    (trim : Bool) (s : List Char)
    (h : Pending (fun n => IsStatement .parsed (undocumented n)) done) :
    Reads s (IsTemplate .parsed) ((elementsFrom done run doc trim s).map (·, [])) := by
  induction hn : s.length using Nat.strongRecOn generalizing s done run doc trim with
  | ind n ih =>
    subst hn
    cases s with
    | nil =>
      rw [elementsFrom_nil]
      exact .here (h.pushRun run).isTemplate
    | cons c r =>
      rw [elementsFrom_cons]
      have trimmed : Pending (fun n => IsStatement .parsed (undocumented n))
          (if trimsBefore (c :: r) then trimTail done else done) := by
        split
        · exact h.trimTail isStatement_undocumented_text_iff
        · exact h
      dsimp only
      split
      · rename_i found hf
        have reads := docBlock?_reads hf
        rcases found with f | ⟨⟨block, trim'⟩, t⟩
        · exact reads
        · have shorter : t.length < (c :: r).length := by
            obtain ⟨x, -, hx⟩ := Option.map_eq_some_iff.mp hf
            exact length_of_plain hx
          refine Reads.of_suffix ?_ reads.1
          show Reads t _ (Except.map _ (if _ then _ else if _ then _ else _))
          split
          · exact ih _ shorter _ _ _ _ t trimmed rfl
          · split
            · exact ih _ shorter _ _ _ _ t trimmed rfl
            · exact ih _ shorter _ _ _ _ t (trimmed.pushRun _) rfl
      · have reads := element_reads true doc trim c r
        cases he : plain (element true doc trim c r) with
        | error f =>
          rw [he] at reads
          exact reads
        | ok p =>
          obtain ⟨e, t⟩ := p
          rw [he] at reads
          refine Reads.of_suffix ?_ reads.1
          refine ih _ (length_of_plain he) _ _ _ _ t (trimmed.pushElement
            isStatement_undocumented_text_iff fun n hn => ?_) rfl
          exact (reads.2 n hn).imp id And.left

end TagCompiler.Template
