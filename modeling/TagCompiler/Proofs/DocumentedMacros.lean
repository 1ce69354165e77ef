import TagCompiler.Pipeline.SiteMacro
import TagCompiler.Proofs.DroppedComments
import TagCompiler.Proofs.StatementCalls
import TagCompiler.Proofs.TemplateBodies
/-!
# The documentation of a macro

At the top of a template the first block of a run of comments and doc comments documents the macro
after the run, and leaves no other trace. The macro is read as it would be without the run. No macro
inside another element is ever documented.
-/

namespace TagCompiler.Template

open Text Grammar

/-! ### Blocks as they are written -/

/-- A comment or a doc comment as it is written, with the blanks after it. -/
inductive WrittenBlock
  | comment (body blanks : String) (closes : CommentBody body.toList)
      (blank : blanks.toList.all isBlank = true)
  | doc (body blanks : String) (closes : ¬ "*/".toList <:+: body.toList)
      (blank : blanks.toList.all isBlank = true)

namespace WrittenBlock

def body : WrittenBlock → String
  | .comment body .. | .doc body .. => body

def text : WrittenBlock → String
  | .comment body blanks .. => "\x7b#" ++ body ++ "#\x7d" ++ blanks
  | .doc body blanks .. => "/**" ++ body ++ "*/" ++ blanks

variable (b : WrittenBlock) {rest : List Char}

theorem comment_text {body blanks : String} {closes : CommentBody body.toList}
    {blank : blanks.toList.all isBlank = true} (rest : List Char) :
    (comment body blanks closes blank).text.toList ++ rest =
      spelledComment body.toList (blanks.toList ++ rest) := by
  simp [text, spelledComment]

theorem doc_text {body blanks : String} {closes : ¬ "*/".toList <:+: body.toList}
    {blank : blanks.toList.all isBlank = true} (rest : List Char) :
    (doc body blanks closes blank).text.toList ++ rest =
      '/' :: '*' :: '*' :: (body.toList ++ '*' :: '/' :: (blanks.toList ++ rest)) := by
  simp [text]

theorem docComment?_doc {body : List Char} (closes : ¬ "*/".toList <:+: body) (rest : List Char) :
    plain (docComment? ('/' :: '*' :: '*' :: (body ++ '*' :: '/' :: rest))) =
      some (body, rest) := by
  rw [plain_docComment?]
  exact upTo?_append (by decide) closes rest

/-- A block is held back as a whole: what comes after it is read next. -/
theorem docBlock?_eq (next : ∀ c ∈ rest.head?, isBlank c = false) :
    ∃ literal, (docBlock? false (b.text.toList ++ rest)).map plain =
      some (.ok ((⟨docText b.body.toList, literal⟩, false), rest)) := by
  cases b with
  | comment body blanks closes blank =>
    obtain ⟨taken, after⟩ := span_append (List.all_eq_true.mp blank) next
    refine ⟨blanks.toList, ?_⟩
    rw [comment_text, closes.docBlock?_eq, skipBlanks, taken, after]
    rfl
  | doc body blanks closes blank =>
    obtain ⟨taken, after⟩ := span_append (List.all_eq_true.mp blank) next
    refine ⟨['/', '*', '*'] ++ body.toList ++ ['*', '/'] ++ blanks.toList, ?_⟩
    rw [doc_text, plain_docBlock?, docComment?_doc closes]
    dsimp only
    rw [skipBlanks, taken, after]
    rfl

/-- A block is seen to be one from what it starts with, and no statement is. -/
theorem front_eq (rest : List Char) : startsDocBlock (b.text.toList ++ rest) = true ∧
    plain (statementKeyword? (b.text.toList ++ rest)) = none ∧
    ∀ c ∈ (b.text.toList ++ rest).head?, isBlank c = false := by
  cases b with
  | comment body blanks closes blank =>
    have opener : startsWith "\x7b#" (spelledComment body.toList (blanks.toList ++ rest)) = true :=
      (startsWith_iff (by decide)).mpr ⟨_, rfl⟩
    rw [comment_text, startsDocBlock, opener, Bool.or_true]
    refine ⟨rfl, rfl, ?_⟩
    rintro c ⟨⟩
    decide
  | doc body blanks closes blank =>
    rw [doc_text, startsDocBlock, ← isSome_plain, docComment?_doc closes]
    refine ⟨rfl, rfl, ?_⟩
    rintro c ⟨⟩
    decide

end WrittenBlock

/-! ### Macro tags -/

/-- The text starts with the tag of a macro. -/
def OpensMacro (s : List Char) : Prop :=
  ∃ dash blanks rest, (dash = [] ∨ dash = ['-']) ∧ blanks.all isBlank = true ∧
    s = "\x7b%".toList ++ (dash ++ (blanks ++ ("macro".toList ++ rest)))

/-- What a macro tag is read as, up to its keyword. -/
theorem OpensMacro.tagStart? {s : List Char} (h : OpensMacro s) :
    ∃ t rest, plain (tagStart? "\x7b%" s) = some ((), t) ∧
      skipBlanks t = "macro".toList ++ rest := by
  obtain ⟨dash, blanks, rest, dashed, blank, rfl⟩ := h
  rw [List.all_eq_true] at blank
  have skipped : skipBlanks (blanks ++ ("macro".toList ++ rest)) = "macro".toList ++ rest :=
    (skipBlanks_append blank _).trans (skipBlanks_cons (by decide) _)
  refine ⟨blanks ++ ("macro".toList ++ rest), rest, ?_, skipped⟩
  rcases dashed with rfl | rfl
  · have noTrim : plain (word? "-" (blanks ++ ("macro".toList ++ rest))) = none := by
      cases blanks with
      | nil => rfl
      | cons c blanks =>
        have solid : Avoids ['-'] (c :: (blanks ++ ("macro".toList ++ rest))) :=
          avoids_of_blank (blank c List.mem_cons_self) (by decide)
        exact solid.word? (by decide)
    rw [plain_tagStart?, List.nil_append, word?_append (by decide)]
    show (plain (word? "-" _)).or _ = _
    rw [noTrim]
    rfl
  · rw [plain_tagStart?]
    rfl

/-- No comment stands where a tag of another kind does. -/
theorem docBlock?_of_tagStart? {opener : String} (ho : opener ∈ ["\x7b\x7b", "\x7b%"])
    {s r : List Char} {u : Unit} (start : plain (tagStart? opener s) = some (u, r)) (trim : Bool) :
    (docBlock? trim s).map plain = none := by
  obtain ⟨t, rfl, -⟩ := tagStart?_finds start
  simp only [List.mem_cons, List.not_mem_nil, or_false] at ho
  rw [plain_docBlock?, plain_docComment?, plain_comment?, plain_tagStart?]
  rcases ho with rfl | rfl <;> rfl

theorem statementKeyword?_of_name {s t r : List Char} {keyword : String} {u : Unit}
    (start : plain (tagStart? "\x7b%" s) = some (u, t))
    (named : plain (name t) = .ok (keyword, r)) :
    plain (statementKeyword? s) = some (keyword, r) := by
  rw [plain_statementKeyword?, start]
  show plain (name? t) = _
  rw [plain_name?, named]
  rfl

/-- A macro tag that is read has the keyword of a macro: no other keyword starts like it. -/
theorem OpensMacro.keyword {c : Char} {r : List Char} (h : OpensMacro (c :: r)) {top trim : Bool}
    {doc : Option String} {p : Element × List Char}
    (read : plain (element top doc trim c r) = .ok p) :
    ∃ t u, plain (Template.tagStart? "\x7b%" (c :: r)) = some ((), t) ∧
      plain (name t) = .ok ("macro", u) := by
  obtain ⟨t, rest, start, skipped⟩ := h.tagStart?
  have named : plain (name t) = .ok ("macro" ++ String.ofList (rest.takeWhile isNameChar),
      rest.dropWhile isNameChar) := by
    rw [plain_name, skipped, plain_nameHere_eq_ok]
    refine ⟨?_, by simp, dropWhile_head rest⟩
    have inside : ("acro".toList ++ rest.takeWhile isNameChar).all isNameChar = true := by
      rw [List.all_append, List.all_takeWhile]
      decide
    have word : ("macro" ++ String.ofList (rest.takeWhile isNameChar)).toList =
        'm' :: ("acro".toList ++ rest.takeWhile isNameChar) := by simp
    rw [isName, word]
    exact Bool.and_eq_true_iff.mpr ⟨by decide, inside⟩
  have only : ∀ k ∈ statementKeywords, "macro".toList <+: k.toList → k = "macro" := by decide
  have keyword := only _
    (mem_statementKeywords_of_element read (statementKeyword?_of_name start named)) (by simp)
  exact ⟨t, _, start, keyword ▸ named⟩

/-- The documentation of a macro goes into its definition, and changes nothing else. -/
theorem statement_macro {s r : List Char} (named : plain (name s) = .ok ("macro", r))
    {e : Element} {t : List Char} (read : plain (statement none s) = .ok (e, t)) :
    ∃ n ps body, ∀ doc, plain (statement doc s) =
      .ok (⟨some (.macroDef n ps body doc), e.trim⟩, t) := by
  rw [plain_statement, named] at read
  change (plain (macroHead r) >>= _) = _ at read
  obtain ⟨⟨⟨n, ps, trim⟩, r₁⟩, head, read⟩ := ok_of_bind read
  obtain ⟨⟨body, r₂⟩, inside, read⟩ := ok_of_bind read
  obtain ⟨⟨trim', r₃⟩, ends, read⟩ := ok_of_bind read
  cases read
  refine ⟨n, .parameters ps, body.nodes, fun doc => ?_⟩
  rw [plain_statement]
  exact ok_bind named (ok_bind head (ok_bind inside (ok_bind ends rfl)))

theorem OpensMacro.element {c : Char} {r : List Char} (h : OpensMacro (c :: r)) {top trim : Bool}
    {e : Element} {t : List Char} (read : plain (element top none trim c r) = .ok (e, t)) :
    ∃ n ps body, ∀ doc, plain (Template.element top doc trim c r) =
      .ok (⟨some (.macroDef n ps body doc), e.trim⟩, t) := by
  obtain ⟨s, u, start, named⟩ := h.keyword read
  have noOutput : plain (Template.tagStart? "\x7b\x7b" (c :: r)) = none :=
    tagStart?_of_other (by decide) (by decide) (by decide) start
  have same : ∀ doc, plain (Template.element top doc trim c r) = plain (statement doc s) := by
    intro doc
    rw [plain_element, noOutput, start]
  rw [same] at read
  obtain ⟨n, ps, body, reads⟩ := statement_macro named read
  exact ⟨n, ps, body, fun doc => (same doc).trans (reads doc)⟩

/-! ### The run before a macro -/

/-- What is read after a block at the start of a template. -/
theorem WrittenBlock.elementsFrom_eq (b : WrittenBlock) {rest : List Char}
    (next : ∀ c ∈ rest.head?, isBlank c = false) (run : List DocBlock) :
    ∃ literal, elementsFrom [] run none false (b.text.toList ++ rest) =
      (let run := run ++ [⟨docText b.body.toList, literal⟩]
      if (plain (statementKeyword? rest)).any (·.1 == "macro") then
        elementsFrom [] [] (run.head?.map DocBlock.doc) false rest
      else if startsDocBlock rest then elementsFrom [] run none false rest
      else elementsFrom (pushRun [] run) [] none false rest) := by
  obtain ⟨literal, block⟩ := b.docBlock?_eq next
  refine ⟨literal, ?_⟩
  cases text : b.text.toList ++ rest with
  | nil =>
    rw [text] at block
    cases block
  | cons c r =>
    rw [text] at block
    rw [elementsFrom_cons, block, show trimTail [] = [] from rfl, ite_self]
    rfl

/-- A run of blocks before a macro is dropped, and its first block documents the macro. The blocks
that are held back already come first. -/
theorem elementsFrom_blocks {m u : List Char}
    (definition : plain (statementKeyword? m) = some ("macro", u))
    (next : ∀ c ∈ m.head?, isBlank c = false) (b : WrittenBlock) (more : List WrittenBlock)
    (run : List DocBlock) :
    elementsFrom [] run none false (b.text.toList ++ (more.flatMap (·.text.toList) ++ m)) =
      elementsFrom [] [] ((run.head?.map DocBlock.doc).or (some (docText b.body.toList)))
        false m := by
  have first : ∀ (b : WrittenBlock) (run : List DocBlock) (literal : List Char),
      (run ++ [DocBlock.mk (docText b.body.toList) literal]).head?.map DocBlock.doc =
        (run.head?.map DocBlock.doc).or (some (docText b.body.toList)) := by
    intro b run literal
    cases run <;> rfl
  induction more generalizing b run with
  | nil =>
    obtain ⟨literal, step⟩ := b.elementsFrom_eq next run
    rw [List.flatMap_nil, List.nil_append, step, definition]
    exact congrArg (elementsFrom [] [] · false m) (first b run literal)
  | cons b' more ih =>
    obtain ⟨block, noStatement, solid⟩ := b'.front_eq (more.flatMap (·.text.toList) ++ m)
    obtain ⟨literal, step⟩ := b.elementsFrom_eq solid run
    rw [noStatement, Option.any_none, if_neg Bool.false_ne_true, if_pos block] at step
    rw [List.flatMap_cons, List.append_assoc, step, ih, first]
    -- The run has a first block already, so the second one is not asked.
    rw [Option.or_assoc, Option.some_or]

/-! ### Elements before and after -/

section Front

variable {m : Node} (other : isText m = false)
include other

theorem push_append (done : List Node) (n : Node) : push (done ++ [m]) n = push done n ++ [m] := by
  cases n with
  | text s =>
    cases done with
    | nil =>
      cases m with
      | text t => cases other
      | _ => by_cases empty : s.isEmpty = true <;> simp [push, empty]
    | cons d done => cases d <;> by_cases empty : s.isEmpty = true <;> simp [push, empty]
  | _ => rfl

theorem pushAll_append (done ns : List Node) :
    pushAll (done ++ [m]) ns = pushAll done ns ++ [m] := by
  induction ns generalizing done with
  | nil => rfl
  | cons n ns ih =>
    show pushAll (push (done ++ [m]) n) ns = _
    rw [push_append other, ih]
    rfl

theorem trimTail_append (done : List Node) : trimTail (done ++ [m]) = trimTail done ++ [m] := by
  cases done with
  | nil =>
    cases m with
    | text t => cases other
    | _ => rfl
  | cons d done =>
    cases d with
    | text s =>
      simp only [List.cons_append, trimTail]
      split <;> rfl
    | _ => rfl

/-- An element that is no text stays as it is, whatever is read after it. -/
theorem elementsFrom_append (done : List Node) (run : List DocBlock) (doc : Option String)
    (trim : Bool) (s : List Char) : elementsFrom (done ++ [m]) run doc trim s =
      (elementsFrom done run doc trim s).map (m :: ·) := by
  induction hn : s.length using Nat.strongRecOn generalizing s done run doc trim with
  | ind size ih =>
    subst hn
    cases s with
    | nil =>
      rw [elementsFrom_nil, elementsFrom_nil, pushRun, push_append other, List.reverse_append]
      rfl
    | cons c r =>
      have trimmed : (if trimsBefore (c :: r) then trimTail (done ++ [m]) else done ++ [m]) =
          (if trimsBefore (c :: r) then trimTail done else done) ++ [m] := by
        rw [trimTail_append other]
        split <;> rfl
      rw [elementsFrom_cons, elementsFrom_cons, trimmed]
      generalize (if trimsBefore (c :: r) then trimTail done else done) = done
      dsimp only
      cases hf : (docBlock? trim (c :: r)).map plain with
      | some found =>
        rcases found with f | ⟨⟨block, trim'⟩, t⟩
        · rfl
        · have shorter : t.length < (c :: r).length := by
            obtain ⟨x, -, hx⟩ := Option.map_eq_some_iff.mp hf
            exact length_of_plain hx
          show (if _ then _ else if _ then _ else _) =
            Except.map _ (if _ then _ else if _ then _ else _)
          split
          · exact ih _ shorter _ _ _ _ t rfl
          · split
            · exact ih _ shorter _ _ _ _ t rfl
            · rw [pushRun, push_append other]
              exact ih _ shorter _ _ _ _ t rfl
      | none =>
        rcases read : plain (element true doc trim c r) with f | ⟨e, t⟩
        · rfl
        · show elementsFrom (pushAll (done ++ [m]) _) _ _ _ _ = _
          rw [pushAll_append other]
          exact ih _ (length_of_plain read) _ _ _ _ t rfl

end Front

/-! ### Documented macros -/

/-- A documentation for the macro at the start of a template goes into its definition. -/
theorem OpensMacro.elementsFrom {s : List Char} (h : OpensMacro s) {nodes : List Node}
    (read : elementsFrom [] [] none false s = .ok nodes) :
    (∃ u, plain (statementKeyword? s) = some ("macro", u)) ∧
      ∃ n ps body rest, nodes = .macroDef n ps body none :: rest ∧ ∀ doc,
        Template.elementsFrom [] [] doc false s = .ok (.macroDef n ps body doc :: rest) := by
  obtain ⟨c, r, rfl⟩ : ∃ c r, s = c :: r := by
    obtain ⟨-, -, -, -, -, rfl⟩ := h
    exact ⟨_, _, rfl⟩
  have step : ∀ doc, Template.elementsFrom [] [] doc false (c :: r) =
      plain (Template.element true doc false c r) >>= fun p =>
        Template.elementsFrom (pushAll [] p.1.node?.toList) [] none p.1.trim p.2 := by
    intro doc
    obtain ⟨_, _, start, -⟩ := h.tagStart?
    rw [elementsFrom_cons, docBlock?_of_tagStart? (by decide) start,
      show trimTail [] = [] from rfl, ite_self]
  rw [step] at read
  obtain ⟨⟨e, t⟩, first, more⟩ := ok_of_bind read
  obtain ⟨s, u, start, named⟩ := h.keyword first
  obtain ⟨n, ps, body, reads⟩ := h.element first
  refine ⟨⟨u, statementKeyword?_of_name start named⟩, n, ps, body, ?_⟩
  have rest : ∀ doc, Template.elementsFrom [] [] doc false (c :: r) =
      (Template.elementsFrom [] [] none e.trim t).map (.macroDef n ps body doc :: ·) := by
    intro doc
    rw [step]
    refine ok_bind (reads doc) ?_
    exact elementsFrom_append (m := .macroDef n ps body doc) rfl [] [] none e.trim t
  rw [← step, rest none] at read
  cases left : Template.elementsFrom [] [] none e.trim t with
  | error f =>
    rw [left] at read
    cases read
  | ok others =>
    rw [left] at read
    cases read
    exact ⟨others, rfl, fun doc => by rw [rest, left]; rfl⟩

/-- Whether a macro is all of a template does not depend on its documentation. -/
theorem ofElements_macroDef {n n' : String} {ps ps' : Node} {body body' rest : List Node}
    {doc doc' : Option String}
    (h : ofElements (.macroDef n ps body doc :: rest) = .macroDef n' ps' body' doc') :
    (n = n' ∧ ps = ps' ∧ body = body') ∧
      ∀ doc, ofElements (.macroDef n ps body doc :: rest) = .macroDef n ps body doc := by
  have filtered : ∀ doc, (Node.macroDef n ps body doc :: rest).filter (!·.isBlankText) =
      .macroDef n ps body doc :: rest.filter (!·.isBlankText) := fun _ => rfl
  unfold ofElements at h ⊢
  rw [filtered] at h
  cases others : rest.filter (!·.isBlankText) with
  | cons k ks =>
    rw [others] at h
    cases h
  | nil =>
    rw [others] at h
    cases h
    exact ⟨⟨rfl, rfl, rfl⟩, fun doc => by rw [filtered, others]⟩

/-- In a template a run of blocks and a macro after it are read as the macro, documented by the
first block of the run. -/
theorem parse_blocks {m n : String} {ps : Node} {body : List Node} (first : WrittenBlock)
    (more : List WrittenBlock) (opens : OpensMacro m.toList)
    (read : parse m = .ok (.macroDef n ps body none)) :
    parse (String.join ((first :: more).map WrittenBlock.text) ++ m) =
      .ok (.macroDef n ps body (some (docText first.body.toList))) := by
  have source : (String.join ((first :: more).map WrittenBlock.text) ++ m).toList =
      first.text.toList ++ (more.flatMap (·.text.toList) ++ m.toList) := by
    rw [String.toList_append, String.toList_join, List.flatMap_map, List.flatMap_cons,
      List.append_assoc]
  have solid : ∀ c ∈ m.toList.head?, isBlank c = false := by
    obtain ⟨_, _, _, -, -, same⟩ := opens
    rw [same]
    rintro c ⟨⟩
    decide
  rw [parse_eq] at read ⊢
  cases elements : elementsFrom [] [] none false m.toList with
  | error f =>
    rw [elements] at read
    cases read
  | ok nodes =>
    rw [elements] at read
    obtain ⟨⟨u, keyword⟩, n', ps', body', rest, rfl, documented⟩ := opens.elementsFrom elements
    obtain ⟨⟨rfl, rfl, rfl⟩, lone⟩ := ofElements_macroDef (Except.ok.inj read)
    rw [source, elementsFrom_blocks keyword solid, documented]
    exact congrArg Except.ok (lone _)

/-- A macro inside an element of a template is not documented. -/
theorem doc_eq_none_of_inside {source : String} {tree top inside : Node}
    (read : parse source = .ok tree) (ht : top ∈ tree.topLevel) (hi : inside ∈ top.subtrees)
    {n : String} {ps : Node} {body : List Node} {doc : Option String}
    (hm : .macroDef n ps body doc ∈ inside.preorder) : doc = none := by
  obtain ⟨ns, template, rfl⟩ := isTemplate_of_parse read
  have element : IsStatement .parsed (undocumented top) := by
    refine (isBody_iff.mp template).1 _ (List.mem_map_of_mem ?_)
    unfold ofElements at ht
    split at ht
    · rename_i lone
      rw [List.mem_singleton.mp ht]
      exact (List.mem_filter.mp (lone ▸ List.mem_singleton_self _)).1
    · exact ht
  rw [← subtrees_undocumented] at hi
  have part := element.isTemplateTree _ (Node.mem_preorder.mpr (.inr ⟨inside, hi, hm⟩))
  cases part with
  | statement h =>
    cases h
    rfl
  | expression h => cases h

/-- A macro is documented by the first block of the run before it, and only at the top of a
template: a macro inside another element has no documentation. -/
theorem macro_documented_by_first_block :
    (∀ (first : WrittenBlock) (more : List WrittenBlock) (m n : String) (ps : Node)
      (body : List Node), OpensMacro m.toList → parse m = .ok (.macroDef n ps body none) →
      parse (String.join ((first :: more).map WrittenBlock.text) ++ m) =
        .ok (.macroDef n ps body (some (docText first.body.toList)))) ∧
    ∀ (source : String) (tree : Node), parse source = .ok tree → ∀ top ∈ tree.topLevel,
      ∀ inside ∈ top.subtrees, ∀ n ps body doc,
        .macroDef n ps body doc ∈ inside.preorder → doc = none :=
  ⟨fun first more _ _ _ _ opens read => parse_blocks first more opens read,
    fun _ _ read _ ht _ hi _ _ _ _ hm => doc_eq_none_of_inside read ht hi hm⟩

/-- A comment and two doc comments before a macro with another comment and another macro in it. -/
theorem macro_documented_by_first_of_three :
    parse "\x7b%- macro m() -%\x7d \x7b##\x7d\x7b%macro k()%\x7d\x7b%endmacro%\x7d\x7b%endmacro%\x7d\n" =
      .ok (.macroDef "m" (.parameters []) [.macroDef "k" (.parameters []) [] none] none) ∧
    parse ("\x7b# a\n * b #\x7d\n/** c\x7b# **/ /**/*/" ++
        "\x7b%- macro m() -%\x7d \x7b##\x7d\x7b%macro k()%\x7d\x7b%endmacro%\x7d\x7b%endmacro%\x7d\n") =
      .ok (.macroDef "m" (.parameters []) [.macroDef "k" (.parameters []) [] none] (some "a\nb")) ∧
    ∀ doc, .macroDef "k" (.parameters []) [] doc ∈
      (Node.macroDef "k" (.parameters []) [] none).preorder → doc = none := by
  have read : parse
      "\x7b%- macro m() -%\x7d \x7b##\x7d\x7b%macro k()%\x7d\x7b%endmacro%\x7d\x7b%endmacro%\x7d\n" =
      .ok (.macroDef "m" (.parameters []) [.macroDef "k" (.parameters []) [] none] none) := by
    rw [Template.parse_eq]
    cbv
  have documented := macro_documented_by_first_block.1
    (.comment " a\n * b " "\n" (by decide +kernel) (by decide +kernel))
    [.doc " c\x7b# *" " " (by decide +kernel) (by decide +kernel),
      .doc "/" "" (by decide +kernel) (by decide)] _ _ _ _
    ⟨['-'], [' '], _, .inr rfl, by decide, by cbv⟩ read
  have doc : docText " a\n * b ".toList = "a\nb" := by decide +kernel
  rw [show WrittenBlock.body _ = " a\n * b " from rfl, doc] at documented
  exact ⟨read, documented, fun doc h => macro_documented_by_first_block.2 _ _ read _
    (List.mem_singleton_self _) _ (by simp [Node.subtrees]) _ _ _ _ h⟩

end TagCompiler.Template
