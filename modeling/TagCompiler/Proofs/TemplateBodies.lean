import TagCompiler.Proofs.FollowedStatements
import TagCompiler.Proofs.RoundTrip
/-!
# Templates as bodies of macros

A template and the body of a block are read by two different loops. They read alike: what a template
consists of is also what stands in a macro that has the template between its tags. Where the loops
differ is left out, namely comments, which document a macro at the top of a template, and a brace at
the end, which would open a tag inside the macro.
-/

namespace TagCompiler.Template

open Text Grammar

/-- The text has no comment and no doc comment in it. -/
structure Uncommented (s : List Char) : Prop where
  comment : ¬ "\x7b#".toList <:+: s
  doc : ¬ "/**".toList <:+: s

theorem Uncommented.of_suffix {r s : List Char} (h : Uncommented s) (end_ : r <:+ s) :
    Uncommented r :=
  ⟨fun inside => h.comment (inside.trans end_.isInfix),
    fun inside => h.doc (inside.trans end_.isInfix)⟩

theorem word?_of_not_infix {w : String} {s : List Char} (h : ¬ w.toList <:+: s) :
    plain (word? w s) = none := by
  cases found : plain (word? w s) with
  | none => rfl
  | some p =>
    obtain ⟨-, rfl⟩ := plain_word?_eq_some.mp found
    exact absurd (List.prefix_append _ _).isInfix h

theorem Uncommented.docComment? {s : List Char} (h : Uncommented s) :
    plain (docComment? s) = none := by
  rw [plain_docComment?, word?_of_not_infix h.doc]
  rfl

theorem Uncommented.docBlock? {s : List Char} (h : Uncommented s) (trim : Bool) :
    (docBlock? trim s).map plain = none := by
  have noComment : (comment? s).map plain = none := by
    rw [plain_comment?, plain_tagStart?, word?_of_not_infix h.comment]
    rfl
  rw [plain_docBlock?, h.docComment?, noComment]
  rfl

/-! ### Elements -/

/-- Text at the top of a template goes as far as text in a body. -/
theorem Uncommented.textSpan {s : List Char} (h : Uncommented s) :
    (textSpan true s).value = (Template.textSpan false s).value ∧
      (Template.textSpan true s).rest = (Template.textSpan false s).rest := by
  induction s with
  | nil => exact ⟨rfl, rfl⟩
  | cons c s ih =>
    obtain ⟨value, rest⟩ := ih (h.of_suffix (List.suffix_cons c s))
    have absent : (Template.docComment? (c :: s)).isSome = false := by
      rw [← isSome_plain, h.docComment?]
      rfl
    rw [Template.textSpan, Template.textSpan, absent, Bool.and_false, Bool.and_false]
    split
    · exact ⟨rfl, rfl⟩
    · exact ⟨congrArg (c :: ·) value, rest⟩

theorem Uncommented.element {c : Char} {r : List Char} (h : Uncommented (c :: r))
    (doc : Option String) (trim : Bool) :
    plain (element true doc trim c r) = plain (Template.element false doc trim c r) := by
  obtain ⟨value, rest⟩ := (h.of_suffix (List.suffix_cons c r)).textSpan
  have same : (textFrom true trim c r).value = (textFrom false trim c r).value := by
    dsimp only [textFrom, Reading.map, Reading.cons]
    rw [value]
  rw [plain_element, plain_element, same, rest]

theorem statement_of_unknown {doc : Option String} {s r : List Char} {keyword : String}
    (named : plain (name s) = .ok (keyword, r)) (other : keyword ∉ statementKeywords) :
    plain (statement doc s) = fail (.unknownKeyword keyword) r := by
  rw [plain_statement, named]
  refine ok_bind rfl ?_
  dsimp only
  split
  case h_8 => rfl
  all_goals exact absurd (by decide) other

/-- A statement that is read as an element has a keyword that a statement can have. -/
theorem mem_statementKeywords_of_element {top : Bool} {doc : Option String} {trim : Bool} {c : Char}
    {r u : List Char} {keyword : String} {p : Element × List Char}
    (read : plain (element top doc trim c r) = .ok p)
    (h : plain (statementKeyword? (c :: r)) = some (keyword, u)) :
    keyword ∈ statementKeywords := by
  rw [plain_statementKeyword?] at h
  obtain ⟨⟨_, m⟩, start, named⟩ := Option.bind_eq_some_iff.mp h
  have noOutput : plain (tagStart? "\x7b\x7b" (c :: r)) = none :=
    tagStart?_of_other (by decide) (by decide) (by decide) start
  have name : plain (name m) = .ok (keyword, u) := by
    change plain (name? m) = _ at named
    rw [plain_name?] at named
    cases found : plain (name m) with
    | error f =>
      rw [found] at named
      cases named
    | ok p =>
      rw [found] at named
      exact congrArg Except.ok (Option.some.inj named)
  rw [plain_element, noOutput, start] at read
  by_contra other
  have failed : plain (statement doc m) = .ok p := read
  rw [statement_of_unknown name other] at failed
  cases failed

/-- A statement that is read as an element does not end a body. -/
theorem endTag?_of_element {ends : List String} (free : ∀ k ∈ statementKeywords, k ∉ ends)
    {top : Bool} {doc : Option String} {trim : Bool} {c : Char} {r : List Char}
    {p : Element × List Char} (read : plain (element top doc trim c r) = .ok p) :
    plain (endTag? ends (c :: r)) = none := by
  rw [plain_endTag?]
  cases found : plain (statementKeyword? (c :: r)) with
  | none => rfl
  | some q =>
    have known := mem_statementKeywords_of_element read found
    simp [Option.filter, free _ known]

/-! ### Bodies -/

/-- The elements of a template are the body that is read from it up to a tag that ends the body. -/
theorem bodyFrom_of_elementsFrom {ends : List String} {closer : String} {t rest : List Char}
    (free : ∀ k ∈ statementKeywords, k ∉ ends) (hc : closer ∈ ends) (close : TagWord closer t rest)
    {s : List Char} (uncommented : Uncommented s) (shut : Shut s) {done nodes : List Node}
    {trim : Bool} (h : elementsFrom done [] none trim s = .ok nodes) :
    plain (bodyFrom ends done trim (s ++ t)) = .ok (⟨nodes, closer⟩, rest) := by
  obtain ⟨u, rfl, -⟩ := close.spelled
  have tag : "\x7b%".toList <+: "\x7b%".toList ++ u := List.prefix_append _ _
  have brace := startsWithBrace_of_prefix tag
  induction hn : s.length using Nat.strongRecOn generalizing s done trim with
  | ind n ih =>
    subst hn
    cases s with
    | nil =>
      rw [elementsFrom_nil, pushRun_nil] at h
      cases h
      have found : plain (endTag? ends ('\x7b' :: '%' :: u)) = some (closer, rest) := by
        refine (plain_endTag? _ _).trans ?_
        rw [show plain (statementKeyword? ('\x7b' :: '%' :: u)) = _ from close.statementKeyword?]
        simp [Option.filter, hc]
      have noTrim : trimsBefore ('\x7b' :: '%' :: u) = false := close.startsTag.2.trimsBefore
      refine (plain_bodyFrom_cons ends done trim '\x7b' ('%' :: u)).trans ?_
      rw [found, noTrim]
      rfl
    | cons c r =>
      rw [elementsFrom_cons, uncommented.docBlock? trim] at h
      dsimp only at h
      rcases read : plain (element true none trim c r) with f | ⟨e, v⟩
      · rw [read] at h
        cases h
      · rw [read] at h
        have notEnd := endTag?_of_element free read
        have trims := trimsBefore_followed brace (List.cons_ne_nil c r) shut
        have closes := endTag?_followed brace ends (List.cons_ne_nil c r) shut
        rw [uncommented.element] at read
        have element := element_followed tag none trim c r shut e v read
        have suffix := (element_reads false none trim c r)
        rw [read] at suffix
        rw [List.cons_append] at trims closes ⊢
        rw [plain_bodyFrom_cons, trims, closes, notEnd]
        refine ok_bind element ?_
        exact ih _ (length_of_plain read) (uncommented.of_suffix suffix.1) (shut.of_suffix suffix.1)
          h rfl

theorem elementsFrom_of_parse {source : String} {ns : List Node}
    (h : parse source = .ok (.list ns)) : elementsFrom [] [] none false source.toList = .ok ns := by
  rw [parse_eq] at h
  cases read : elementsFrom [] [] none false source.toList with
  | error f =>
    rw [read] at h
    cases h
  | ok nodes =>
    rw [read] at h
    have tree := ofElements_isTreeOf nodes
    rw [Except.ok.inj h] at tree
    cases tree
    rfl

/-- A template that is no lone macro, with the tags of a macro around it, is read as a macro without
parameters and documentation that has the elements of the template for its body. -/
theorem parse_between_macro_tags {name body : String} {ns : List Node} (named : isName name = true)
    (comment : ¬ "\x7b#".toList <:+: body.toList) (doc : ¬ "/**".toList <:+: body.toList)
    (last : body.toList.getLast? ≠ some '\x7b') (h : parse body = .ok (.list ns)) :
    parse ("\x7b% macro " ++ name ++ "() %\x7d" ++ body ++ "\x7b% endmacro %\x7d") =
      .ok (.macroDef name (.parameters []) ns none) := by
  let inner : List Piece := .word name :: bracketed "(" (argumentsPieces []) ")"
  let closed : List Char := render (tag [.word "endmacro"]) ++ []
  have free : ∀ k ∈ statementKeywords, k ∉ ["endmacro"] := by decide
  have text : ("\x7b% macro " ++ name ++ "() %\x7d" ++ body ++ "\x7b% endmacro %\x7d").toList =
      render (tag (.word "macro" :: .gap :: inner)) ++ (body.toList ++ closed) := by
    simp [inner, closed, render, tag, bracketed, argumentsPieces, Style.arguments, commaSeparated,
      Piece.text]
  obtain ⟨m, r, t, tagWord, gap, spelled, close⟩ :=
    tagWord_of_spells (by decide)
      (spells_render (tag (.word "macro" :: .gap :: inner)) (body.toList ++ closed))
  obtain ⟨e, endWord, closing⟩ :=
    tagWord_of_keyword (by decide) (spells_render (tag [.word "endmacro"]) [])
  have head := macroHead_spelled named .nil ⟨r, gap, spelled⟩ close
  have read := bodyFrom_of_elementsFrom free (by simp) endWord ⟨comment, doc⟩ last
    (elementsFrom_of_parse h)
  have ends := (fronts_of_spells_gap (by decide) closing).tagEnd (by decide)
  have element : ReadsElement (.macroDef name (.parameters []) ns none) _ [] :=
    readsElement_of_statement tagWord (by decide) fun u keyword => by
      rw [plain_statement]
      exact ok_bind keyword (ok_bind head (ok_bind read (ok_bind ends rfl)))
  rw [parse_eq, text, elementsFrom_element element rfl, elementsFrom_nil, pushRun_nil]
  rfl

/-- A template with trim marks and a block. -/
theorem parse_between_macro_tags_trimmed :
    parse "x \x7b%- if y -%\x7d z\x7b% endif %\x7d" =
      .ok (.list [.text "x", .branch (.var ["y"]) [.text "z"] []]) ∧
    parse ("\x7b% macro " ++ "m" ++ "() %\x7d" ++ "x \x7b%- if y -%\x7d z\x7b% endif %\x7d" ++
        "\x7b% endmacro %\x7d") =
      .ok (.macroDef "m" (.parameters [])
        [.text "x", .branch (.var ["y"]) [.text "z"] []] none) := by
  have read : parse "x \x7b%- if y -%\x7d z\x7b% endif %\x7d" =
      .ok (.list [.text "x", .branch (.var ["y"]) [.text "z"] []]) := by
    rw [Template.parse_eq]
    cbv
  exact ⟨read, parse_between_macro_tags (by decide) (by decide +kernel) (by decide +kernel)
    (by decide +kernel) read⟩

end TagCompiler.Template
