import Mathlib.Data.List.Infix
import TagCompiler.Proofs.RoundTrip
/-!
# Comments between texts

At the top of a template a comment may document the macro after it, so it is held back together with
the blanks that follow, and so are the comments after it. Where no macro follows, the blanks become
text again and the comments nothing. A template of texts and comments is therefore read as one text,
with nothing lost and nothing added, however the comments are placed and the blanks distributed.
-/

namespace TagCompiler.Template

open Text Grammar

/-! ### The body of a comment -/

/-- What can stand in a comment without ending it and without being read as a trim mark. -/
structure CommentBody (body : List Char) : Prop where
  closed : ¬ "#\x7d".toList <:+: body
  head : body.head? ≠ some '-'
  last : body.getLast? ≠ some '-'

instance (body : List Char) : Decidable (CommentBody body) :=
  decidable_of_iff
    (¬ "#\x7d".toList <:+: body ∧ body.head? ≠ some '-' ∧ body.getLast? ≠ some '-')
    ⟨fun h => ⟨h.1, h.2.1, h.2.2⟩, fun h => ⟨h.closed, h.head, h.last⟩⟩

instance (t : List Char) : Decidable (CleanText t) :=
  decidable_of_iff ((∀ w ∈ ["\x7b\x7b", "\x7b%", "\x7b#", "/**"], ¬ w.toList <:+: t) ∧
      t.getLast? ≠ some '\x7b')
    ⟨fun h => ⟨h.1, h.2⟩, fun h => ⟨h.clean, h.last⟩⟩

/-- A text in front of a closer is read up to the closer, if it does not have the closer in it. -/
theorem upTo?_append {a b : Char} (different : a ≠ b) {v : List Char} (h : ¬ [a, b] <:+: v)
    (r : List Char) : plain (upTo? [a, b] (v ++ a :: b :: r)) = some (v, r) := by
  induction v with
  | nil =>
    have here : plain (after? [a, b] (a :: b :: r)) = some ((), r) := plain_after?_eq_some.mpr rfl
    rw [List.nil_append, plain_upTo?_cons, here]
  | cons c v ih =>
    obtain ⟨notHere, notLater⟩ := not_or.mp (mt List.infix_cons_iff.mpr h)
    -- The closer could only start here by ending in the closer that comes after the text.
    have absent : plain (after? [a, b] (c :: (v ++ a :: b :: r))) = none := by
      cases found : plain (after? [a, b] (c :: (v ++ a :: b :: r))) with
      | none => rfl
      | some p =>
        obtain ⟨rfl, tail⟩ := List.cons.inj (plain_after?_eq_some.mp found)
        cases v with
        | nil => exact absurd (List.cons.inj tail).1 different
        | cons d v =>
          obtain ⟨rfl, -⟩ := List.cons.inj tail
          exact absurd ⟨v, rfl⟩ notHere
    rw [List.cons_append, plain_upTo?_cons, absent, ih notLater]
    rfl

/-- A comment without trim marks, and what comes after it. -/
def spelledComment (body rest : List Char) : List Char :=
  '\x7b' :: '#' :: (body ++ '#' :: '\x7d' :: rest)

namespace CommentBody

variable {body : List Char} (h : CommentBody body) (rest : List Char)
include h

theorem not_dash : plain (word? "-" (body ++ '#' :: '\x7d' :: rest)) = none := by
  cases found : plain (word? "-" (body ++ '#' :: '\x7d' :: rest)) with
  | none => rfl
  | some p =>
    have split := (plain_word?_eq_some.mp found).2
    cases body with
    | nil => cases split
    | cons c body => exact absurd (congrArg some (List.cons.inj split).1) h.head

theorem comment?_eq : (comment? (spelledComment body rest)).map plain =
    some (.ok ((body, false), rest)) := by
  have start : plain (tagStart? "\x7b#" (spelledComment body rest)) =
      some ((), body ++ '#' :: '\x7d' :: rest) := by
    have opener : plain (word? "\x7b#" (spelledComment body rest)) =
        some ((), body ++ '#' :: '\x7d' :: rest) := plain_word?_eq_some.mpr ⟨by decide, rfl⟩
    rw [plain_tagStart?, opener]
    show (plain (word? "-" _)).or _ = _
    rw [h.not_dash]
    rfl
  have read : plain (upTo? ['#', '\x7d'] (body ++ '#' :: '\x7d' :: rest)) = some (body, rest) :=
    upTo?_append (by decide) h.closed rest
  have noTrim : (body.getLast? == some '-') = false := beq_eq_false_iff_ne.mpr h.last
  rw [plain_comment?, start]
  dsimp only
  rw [read]
  dsimp only
  rw [noTrim]
  rfl

theorem trimsBefore_eq : trimsBefore (spelledComment body rest) = false := by
  have noTrim : startsWith "\x7b#-" (spelledComment body rest) = false := by
    by_contra trims
    obtain ⟨r, same⟩ := (startsWith_iff (by decide)).mp (Bool.not_eq_false _ ▸ trims)
    have dash : body ++ '#' :: '\x7d' :: rest = '-' :: r :=
      (List.cons.inj (List.cons.inj same).2).2.symm
    have found : plain (word? "-" (body ++ '#' :: '\x7d' :: rest)) = some ((), r) :=
      plain_word?_eq_some.mpr ⟨by decide, dash⟩
    rw [h.not_dash] at found
    cases found
  rw [trimsBefore, noTrim]
  rfl

/-- A comment is held back with the blanks after it, which are all that it is as text. -/
theorem docBlock?_eq (trim : Bool) : (docBlock? trim (spelledComment body rest)).map plain =
    some (.ok ((⟨docText body, rest.takeWhile isBlank⟩, false), skipBlanks rest)) := by
  have noDoc : plain (docComment? (spelledComment body rest)) = none := by
    rw [plain_docComment?]
    rfl
  rw [plain_docBlock?, noDoc, h.comment?_eq]
  rfl

end CommentBody

/-! ### Text under construction -/

/-- The elements of a body that is this text and nothing else. -/
def textNodes (s : List Char) : List Node := if s = [] then [] else [.text (String.ofList s)]

theorem push_textNodes (s t : List Char) :
    push (textNodes s) (.text (String.ofList t)) = textNodes (s ++ t) := by
  cases t with
  | nil =>
    rw [List.append_nil]
    cases s <;> rfl
  | cons d t =>
    have more : (String.ofList (d :: t)).isEmpty = false := by simp
    cases s with
    | nil =>
      show (if (String.ofList (d :: t)).isEmpty then _ else _) = _
      rw [more]
      rfl
    | cons c s =>
      show (if (String.ofList (d :: t)).isEmpty then _ else
        [Node.text (String.ofList (c :: s) ++ String.ofList (d :: t))]) = _
      rw [more, ← String.ofList_append]
      rfl

/-- A template without a macro at its top is the list of its elements. -/
theorem ofElements_eq_list {ns : List Node} (h : ∀ n ∈ ns, n.isMacroDef = false) :
    ofElements ns = .list ns := by
  unfold ofElements
  split
  · rename_i lone
    have listed : Node.macroDef _ _ _ _ ∈ ns :=
      (List.mem_filter.mp (lone ▸ List.mem_singleton_self _)).1
    cases h _ listed
  · rfl

theorem isMacroDef_of_mem_textNodes {s : List Char} : ∀ n ∈ textNodes s, n.isMacroDef = false := by
  intro n hn
  unfold textNodes at hn
  split at hn
  · cases hn
  · cases List.mem_singleton.mp hn
    rfl

theorem ofElements_textNodes (s : List Char) : ofElements (textNodes s) = .list (textNodes s) :=
  ofElements_eq_list isMacroDef_of_mem_textNodes

theorem pushRun_textNodes (s : List Char) (run : List DocBlock) :
    pushRun (textNodes s) run = textNodes (s ++ run.flatMap DocBlock.asText) := push_textNodes s _

theorem reverse_textNodes (s : List Char) : (textNodes s).reverse = textNodes s := by
  cases s <;> rfl

/-- Text that a tag or the end of the template follows is added to the text before it. -/
theorem elementsFrom_text {t rest : List Char} (h : CleanText t) (ends : EndsText rest)
    (s : List Char) : elementsFrom (textNodes s) [] none false (t ++ rest) =
      elementsFrom (textNodes (s ++ t)) [] none false rest := by
  cases t with
  | nil => rw [List.nil_append, List.append_nil]
  | cons c t =>
    have printable : IsPrintableText (String.ofList (c :: t)) := by
      refine ⟨by simp, ?_⟩
      rw [String.toList_ofList]
      exact ⟨h.clean, h.last⟩
    have element := readsElement_text printable ends
    rw [String.toList_ofList] at element
    rw [elementsFrom_push (textNodes s) element, push_textNodes]

/-! ### Templates of texts and comments -/

/-- What is read after a comment: a macro that the first comment of the run documents, another
comment of the run, or anything else, before which the run is text. -/
theorem CommentBody.elementsFrom_eq {body : List Char} (h : CommentBody body) (rest : List Char)
    (done : List Node) (run : List DocBlock) (doc : Option String) (trim : Bool) :
    elementsFrom done run doc trim (spelledComment body rest) =
    (let run := run ++ [⟨docText body, rest.takeWhile isBlank⟩]
    let t := skipBlanks rest
    if (plain (statementKeyword? t)).any (·.1 == "macro") then
      elementsFrom done [] (run.head?.map DocBlock.doc) false t
    else if startsDocBlock t then elementsFrom done run none false t
    else elementsFrom (pushRun done run) [] none false t) := by
  have trims := h.trimsBefore_eq rest
  have block := h.docBlock?_eq rest trim
  unfold spelledComment at trims block ⊢
  rw [elementsFrom_cons, trims, block]
  rfl

theorem blanks_append (text : List Char) {tail : List Char}
    (next : ∀ c ∈ tail.head?, isBlank c = false) :
    (text ++ tail).takeWhile isBlank = text.takeWhile isBlank ∧
      skipBlanks (text ++ tail) = skipBlanks text ++ tail := by
  have inside : ∀ c ∈ text.takeWhile isBlank, isBlank c = true :=
    List.all_eq_true.mp List.all_takeWhile
  have outside : ∀ c ∈ (skipBlanks text ++ tail).head?, isBlank c = false := by
    cases left : skipBlanks text with
    | nil => exact next
    | cons d u =>
      have first := dropWhile_head (p := isBlank) text
      rw [show text.dropWhile isBlank = d :: u from left] at first
      exact first
  have split := span_append inside outside
  rwa [← List.append_assoc, skipBlanks, List.takeWhile_append_dropWhile] at split

/-- The comments, each with the text after it, as they are written. -/
def commented : List (String × String) → List Char
  | [] => []
  | p :: more => spelledComment p.1.toList (p.2.toList ++ commented more)

theorem toList_join_commented (pieces : List (String × String)) :
    (String.join (pieces.map fun p => "\x7b#" ++ p.1 ++ "#\x7d" ++ p.2)).toList =
      commented pieces := by
  induction pieces with
  | nil => rfl
  | cons p more ih =>
    rw [List.map_cons, String.join_cons, String.toList_append, ih, commented, spelledComment]
    simp

theorem commented_ends (pieces : List (String × String)) :
    EndsText (commented pieces) ∧ ∀ c ∈ (commented pieces).head?, isBlank c = false := by
  cases pieces with
  | nil => exact ⟨.inl rfl, by simp [commented]⟩
  | cons p more =>
    have opener : startsWith "\x7b#" (commented (p :: more)) = true :=
      (startsWith_iff (by decide)).mpr ⟨_, rfl⟩
    refine ⟨.inr (startsTag_of_startsWith (by decide) opener), ?_⟩
    rintro c ⟨⟩
    decide

/-- No statement starts in a text or at a comment after it. -/
theorem statementKeyword?_commented {t : List Char} (h : CleanText t)
    (pieces : List (String × String)) :
    plain (statementKeyword? (t ++ commented pieces)) = none := by
  have noStatement : plain (tagStart? "\x7b%" (t ++ commented pieces)) = none := by
    cases t with
    | nil => cases pieces <;> rfl
    | cons c t => exact tagStart?_of_not_startsTag (h.not_startsTag _) (by decide)
  rw [plain_statementKeyword?, noStatement]
  rfl

theorem startsDocBlock_append {c : Char} {t rest : List Char} (h : CleanText (c :: t))
    (ends : EndsText rest) : startsDocBlock (c :: t ++ rest) = false := by
  have noComment : startsWith "\x7b#" (c :: t ++ rest) = false :=
    (Bool.or_eq_false_iff.mp (h.not_startsTag rest)).2
  rw [startsDocBlock, h.isSome_docComment? ends, noComment]
  rfl

/-- Comments, with a text after each, add their texts to the text before them. The comments held
back so far add the blanks after them first. -/
theorem elementsFrom_commented {pieces : List (String × String)}
    (h : ∀ p ∈ pieces, CommentBody p.1.toList ∧ CleanText p.2.toList) (s : List Char)
    (run : List DocBlock) : elementsFrom (textNodes s) run none false (commented pieces) =
      .ok (textNodes (s ++ run.flatMap DocBlock.asText ++ pieces.flatMap (·.2.toList))) := by
  induction pieces generalizing s run with
  | nil =>
    rw [commented, elementsFrom_nil, pushRun_textNodes, reverse_textNodes, List.flatMap_nil,
      List.append_nil]
  | cons p more ih =>
    obtain ⟨⟨body, text⟩, others⟩ := List.forall_mem_cons.mp h
    obtain ⟨ends, next⟩ := commented_ends more
    obtain ⟨blanks, left⟩ := blanks_append p.2.toList next
    have clean : CleanText (skipBlanks p.2.toList) := text.of_suffix (List.dropWhile_suffix isBlank)
    have split : ∀ r, p.2.toList.takeWhile isBlank ++ (skipBlanks p.2.toList ++ r) =
        p.2.toList ++ r := by
      intro r
      rw [← List.append_assoc, skipBlanks, List.takeWhile_append_dropWhile]
    rw [commented, body.elementsFrom_eq, blanks, left]
    dsimp only
    rw [statementKeyword?_commented clean, Option.any_none, if_neg Bool.false_ne_true]
    by_cases held : startsDocBlock (skipBlanks p.2.toList ++ commented more) = true
    · -- The run goes on, so nothing but blanks stands before the next comment.
      have blank : skipBlanks p.2.toList = [] := by
        cases rest : skipBlanks p.2.toList with
        | nil => rfl
        | cons c t =>
          rw [rest] at held clean
          rw [startsDocBlock_append clean ends] at held
          cases held
      simp only [blank, List.nil_append] at split
      rw [if_pos held, blank, List.nil_append, ih others]
      simp [split]
    · rw [if_neg held, pushRun_textNodes, elementsFrom_text clean ends, ih others]
      simp [split]

/-- A template of texts with comments between them is read as the text that is left when the
comments are taken out, whatever blanks stand around them; as nothing, if that text is empty. -/
theorem comments_dropped_from_text {first : String} {pieces : List (String × String)}
    (clean : CleanText first.toList)
    (h : ∀ p ∈ pieces, CommentBody p.1.toList ∧ CleanText p.2.toList) :
    parse (first ++ String.join (pieces.map fun p => "\x7b#" ++ p.1 ++ "#\x7d" ++ p.2)) =
      .ok (.list (if first ++ String.join (pieces.map Prod.snd) = "" then []
        else [.text (first ++ String.join (pieces.map Prod.snd))])) := by
  have source : (first ++ String.join
      (pieces.map fun p => "\x7b#" ++ p.1 ++ "#\x7d" ++ p.2)).toList =
      first.toList ++ commented pieces := by
    rw [String.toList_append, toList_join_commented]
  have left : (first ++ String.join (pieces.map Prod.snd)).toList =
      first.toList ++ pieces.flatMap (·.2.toList) := by
    rw [String.toList_append, String.toList_join, List.flatMap_map]
  have read : elementsFrom [] [] none false (first.toList ++ commented pieces) =
      .ok (textNodes (first ++ String.join (pieces.map Prod.snd)).toList) := by
    refine (elementsFrom_text clean (commented_ends pieces).1 []).trans ?_
    rw [elementsFrom_commented h, left]
    simp
  rw [parse_eq, source, read]
  refine congrArg Except.ok ((ofElements_textNodes _).trans ?_)
  simp only [textNodes, String.ofList_toList, String.toList_eq_nil_iff]

/-- Comments at both ends and side by side, with blanks between them and braces in the texts. -/
theorem comments_dropped_around_blanks :
    (CleanText "".toList ∧
      ∀ p ∈ [(" a ", " \n"), ("#", "\x7d x\x7b y "), ("", "\t"), ("/**", "")],
        CommentBody p.1.toList ∧ CleanText p.2.toList) ∧
    parse "\x7b# a #\x7d \n\x7b###\x7d\x7d x\x7b y \x7b##\x7d\t\x7b#/**#\x7d" =
      .ok (.list [.text " \n\x7d x\x7b y \t"]) := by
  have clean : CleanText "".toList := by decide
  have pieces : ∀ p ∈ [(" a ", " \n"), ("#", "\x7d x\x7b y "), ("", "\t"), ("/**", "")],
      CommentBody p.1.toList ∧ CleanText p.2.toList := by decide
  exact ⟨⟨clean, pieces⟩, comments_dropped_from_text clean pieces⟩

end TagCompiler.Template
