import TagCompiler.Proofs.WellBuiltTrees
import TagCompiler.TagFile.Expression
/-!
# The texts of variable paths

What a path looks like in an expression of a tag file: a name, and then an accessor for each further
part, which is a name after a dot, a number in brackets, or a string in brackets. The grammar is
stated apart from the renderer, and a text of it denotes one path only. What the renderer writes for
a variable denotes that variable, unless a part of its path is the empty string: the renderer takes
that for a number without digits.
-/

namespace TagCompiler.TagFile

open Text

/-! ### The grammar of paths -/

/-- The inside of a string literal, and the string that it denotes. A backslash stands before each
quote and each backslash, and nowhere else. -/
inductive EscapesInKey : List Char → List Char → Prop
  | nil : EscapesInKey [] []
  | plain {c : Char} {cs s : List Char} : c ≠ '\'' → c ≠ '\\' → EscapesInKey cs s →
      EscapesInKey (c :: cs) (c :: s)
  | escaped {c : Char} {cs s : List Char} : c = '\'' ∨ c = '\\' → EscapesInKey cs s →
      EscapesInKey ('\\' :: c :: cs) (c :: s)

/-- An accessor, and the part of a path that it denotes. -/
inductive Accesses : List Char → String → Prop
  | name {n : String} : isName n = true → Accesses ('.' :: n.toList) n
  | index {ds : String} : ds ≠ "" → (∀ d ∈ ds.toList, isDigit d = true) →
      Accesses ('[' :: (ds.toList ++ [']'])) ds
  | key {cs : List Char} {part : String} : EscapesInKey cs part.toList →
      Accesses ('[' :: '\'' :: (cs ++ ['\'', ']'])) part

/-- One accessor after the other, and the parts that they denote. -/
inductive AllAccess : List Char → List String → Prop
  | nil : AllAccess [] []
  | cons {a t : List Char} {part : String} {parts : List String} : Accesses a part →
      AllAccess t parts → AllAccess (a ++ t) (part :: parts)

/-- The text is a path: a name with accessors after it. -/
inductive IsPathText : String → List String → Prop
  | path {text root : String} {t : List Char} {parts : List String} : isName root = true →
      AllAccess t parts → text.toList = root.toList ++ t → IsPathText text (root :: parts)

/-! ### A text denotes one path -/

/-- No name and no number goes on into an accessor. -/
theorem Accesses.head {a : List Char} {part : String} (h : Accesses a part) :
    ∃ c r, a = c :: r ∧ Template.isNameChar c = false := by
  cases h with
  | name => exact ⟨'.', _, rfl, by decide⟩
  | index | key => exact ⟨'[', _, rfl, by decide⟩

theorem AllAccess.endsName {t : List Char} {parts : List String} (h : AllAccess t parts) :
    Template.EndsName t := by
  cases h with
  | nil => simp [Template.EndsName]
  | cons first _ =>
    obtain ⟨c, r, rfl, other⟩ := first.head
    rintro d ⟨⟩
    exact other

/-- Two texts that go on where a kind of characters ends are split there alike. -/
theorem split_unique {p : Char → Bool} {v w r t : List Char} (hv : ∀ c ∈ v, p c = true)
    (hw : ∀ c ∈ w, p c = true) (hr : ∀ c ∈ r.head?, p c = false) (ht : ∀ c ∈ t.head?, p c = false)
    (same : v ++ r = w ++ t) : v = w ∧ r = t := by
  obtain ⟨take, drop⟩ := span_append hv hr
  obtain ⟨take', drop'⟩ := span_append hw ht
  rw [same] at take drop
  exact ⟨take.symm.trans take', drop.symm.trans drop'⟩

theorem EscapesInKey.unique {cs ds s u r t : List Char} (h : EscapesInKey cs s)
    (h' : EscapesInKey ds u) (same : cs ++ '\'' :: r = ds ++ '\'' :: t) : s = u ∧ r = t := by
  induction h generalizing ds u with
  | nil =>
    cases h' with
    | nil => exact ⟨rfl, (List.cons.inj same).2⟩
    | plain quote => exact absurd (List.cons.inj same).1.symm quote
    | escaped => cases (List.cons.inj same).1
  | plain quote backslash _ ih =>
    cases h' with
    | nil => exact absurd (List.cons.inj same).1 quote
    | plain _ _ rest =>
      obtain ⟨rfl, inner⟩ := List.cons.inj same
      obtain ⟨rfl, tail⟩ := ih rest inner
      exact ⟨rfl, tail⟩
    | escaped => exact absurd (List.cons.inj same).1 backslash
  | escaped _ _ ih =>
    cases h' with
    | nil => cases (List.cons.inj same).1
    | plain _ backslash => exact absurd (List.cons.inj same).1.symm backslash
    | escaped _ rest =>
      obtain ⟨rfl, inner⟩ := List.cons.inj (List.cons.inj same).2
      obtain ⟨rfl, tail⟩ := ih rest inner
      exact ⟨rfl, tail⟩

/-- A number is not taken for a string, nor for the end of the brackets. -/
theorem not_digit_front {ds : String} (nonempty : ds ≠ "")
    (digits : ∀ d ∈ ds.toList, isDigit d = true) {c : Char} (other : isDigit c = false)
    {r t : List Char} (same : ds.toList ++ r = c :: t) : False := by
  obtain ⟨d, ds', front⟩ := List.exists_cons_of_ne_nil (mt String.toList_eq_nil_iff.mp nonempty)
  have digit : isDigit d = true := digits d (front ▸ List.mem_cons_self)
  rw [front] at same
  rw [(List.cons.inj same).1, other] at digit
  cases digit

theorem Accesses.unique {a b r t : List Char} {part other : String} (h : Accesses a part)
    (h' : Accesses b other) (hr : Template.EndsName r) (ht : Template.EndsName t)
    (same : a ++ r = b ++ t) : part = other ∧ r = t := by
  cases h <;> cases h' <;>
    simp only [List.cons_append, List.append_assoc, List.nil_append, List.cons.injEq, true_and]
      at same
  case name.name hn hm =>
    obtain ⟨names, rest⟩ := split_unique (Template.all_isNameChar_of_isName hn)
      (Template.all_isNameChar_of_isName hm) hr ht same
    exact ⟨String.toList_inj.mp names, rest⟩
  case index.index digits _ digits' =>
    obtain ⟨numbers, rest⟩ := split_unique digits digits' (by rintro _ ⟨⟩; decide)
      (by rintro _ ⟨⟩; decide) same
    exact ⟨String.toList_inj.mp numbers, (List.cons.inj rest).2⟩
  case key.key escaped _ escaped' =>
    obtain ⟨strings, rest⟩ := escaped.unique escaped' same
    exact ⟨String.toList_inj.mp strings, (List.cons.inj rest).2⟩
  case index.key nonempty digits _ _ =>
    exact (not_digit_front nonempty digits (by decide) same).elim
  case key.index nonempty digits =>
    exact (not_digit_front nonempty digits (by decide) same.symm).elim
  all_goals exact absurd same.1 (by decide)

/-! ### What the renderer writes -/

theorem escapes_flatMap (s : List Char) : EscapesInKey (s.flatMap escapeLiteral) s := by
  induction s with
  | nil => exact .nil
  | cons c s ih =>
    rw [List.flatMap_cons, escapeLiteral]
    split
    · rename_i backslash
      subst backslash
      exact .escaped (.inr rfl) ih
    · rename_i backslash
      split
      · rename_i quote
        subst quote
        exact .escaped (.inl rfl) ih
      · rename_i quote
        exact .plain quote backslash ih

theorem accesses_accessor {part : String} (nonempty : part ≠ "") :
    Accesses (accessor part).toList part := by
  unfold accessor
  split
  · rename_i named
    simpa using Accesses.name named
  · split
    · rename_i digits
      simpa using Accesses.index nonempty (List.all_eq_true.mp digits)
    · simpa [quote] using Accesses.key (escapes_flatMap part.toList)

theorem accessor_empty : accessor "" = "[]" := by decide

/-- The empty brackets are no accessor, whatever comes after them. -/
theorem not_accesses_brackets {a r t : List Char} {part : String} (h : Accesses a part)
    (same : '[' :: ']' :: r = a ++ t) : False := by
  cases h with
  | name | key => cases same
  | index nonempty digits =>
    simp only [List.cons_append, List.append_assoc, List.cons.injEq, true_and] at same
    exact not_digit_front nonempty digits (by decide) same.symm

theorem toList_join_accessors (parts : List String) :
    (String.join (parts.map accessor)).toList =
      parts.flatMap fun part => (accessor part).toList := by
  rw [String.toList_join, List.flatMap_map]

theorem endsName_accessors (parts : List String) :
    Template.EndsName (parts.flatMap fun part => (accessor part).toList) := by
  cases parts with
  | nil => simp [Template.EndsName]
  | cons part parts =>
    rw [List.flatMap_cons]
    by_cases empty : part = ""
    · subst empty
      rw [accessor_empty]
      rintro c ⟨⟩
      decide
    · obtain ⟨c, r, front, other⟩ := (accesses_accessor empty).head
      rw [front]
      rintro d ⟨⟩
      exact other

/-- The accessors that are written denote the parts they are written for and no others; where a part
is empty, they denote nothing. -/
theorem allAccess_accessors_iff {parts others : List String} :
    AllAccess (parts.flatMap fun part => (accessor part).toList) others ↔
      others = parts ∧ "" ∉ parts := by
  induction parts generalizing others with
  | nil =>
    refine ⟨fun h => ?_, ?_⟩
    · generalize written : [].flatMap (fun part => (accessor part).toList) = text at h
      cases h with
      | nil => exact ⟨rfl, List.not_mem_nil⟩
      | cons first _ =>
        obtain ⟨c, r, rfl, -⟩ := first.head
        cases written
    · rintro ⟨rfl, -⟩
      exact .nil
  | cons part parts ih =>
    refine ⟨fun h => ?_, ?_⟩
    · generalize written : (part :: parts).flatMap (fun part => (accessor part).toList) = text at h
      rw [List.flatMap_cons] at written
      by_cases empty : part = ""
      · subst empty
        rw [accessor_empty] at written
        cases h with
        | nil => cases written
        | cons first _ => exact (not_accesses_brackets first written).elim
      · have own := accesses_accessor empty
        cases h with
        | nil =>
          obtain ⟨c, r, front, -⟩ := own.head
          rw [front] at written
          cases written
        | cons first rest =>
          obtain ⟨rfl, rfl⟩ := own.unique first (endsName_accessors parts) rest.endsName written
          obtain ⟨rfl, nonempty⟩ := ih.mp rest
          exact ⟨rfl, List.not_mem_cons_of_ne_of_not_mem (Ne.symm empty) nonempty⟩
    · rintro ⟨rfl, nonempty⟩
      obtain ⟨own, others⟩ := not_or.mp (mt List.mem_cons.mpr nonempty)
      exact .cons (accesses_accessor (Ne.symm own)) (ih.mpr ⟨rfl, others⟩)

theorem isPathText_path_iff {root : String} {parts p : List String} (named : isName root = true) :
    IsPathText (path (root :: parts)) p ↔ p = root :: parts ∧ "" ∉ parts := by
  have written : (path (root :: parts)).toList =
      root.toList ++ parts.flatMap fun part => (accessor part).toList := by
    rw [path, String.toList_append, toList_join_accessors]
  constructor
  · rintro ⟨named', access, same⟩
    rw [written] at same
    obtain ⟨roots, rfl⟩ := split_unique (Template.all_isNameChar_of_isName named)
      (Template.all_isNameChar_of_isName named') (endsName_accessors parts) access.endsName same
    obtain ⟨rfl, nonempty⟩ := allAccess_accessors_iff.mp access
    exact ⟨by rw [String.toList_inj.mp roots], nonempty⟩
  · rintro ⟨rfl, nonempty⟩
    exact .path named (allAccess_accessors_iff.mpr ⟨rfl, nonempty⟩) written

end TagCompiler.TagFile

/-! ### Variables of a template -/

namespace TagCompiler.Grammar

open Template

/-- The path of a variable in a template starts with a name. -/
theorem IsPart.exists_root {p : List String} (h : IsPart (.var p)) :
    ∃ root parts, p = root :: parts ∧ isName root = true := by
  cases h with
  | target named => exact ⟨_, [], rfl, named⟩
  | parameter h =>
    obtain ⟨name, value, same, -⟩ := h
    cases same
  | statement h => cases h
  | condition h =>
    cases h with
    | expression h =>
      cases h with
      | operand h =>
        cases h with
        | term h =>
          cases h with
          | primary h =>
            cases h with
            | literal h => cases h
            | var h =>
              obtain ⟨root, parts, rfl, named, -⟩ := h
              exact ⟨root, parts, rfl, named⟩

end TagCompiler.Grammar

namespace TagCompiler.TagFile

open Template Grammar

/-- The text of a variable is its first name and an accessor for each further part. The accessor of
a part denotes it, except that the empty part becomes empty brackets. So the whole is the text of a
path exactly if no part is empty, and then it denotes the path of the variable and no other. -/
theorem variable_text_denotes_iff {source : String} {tree : Node} {p : List String}
    (read : parse source = .ok tree) (var : .var p ∈ tree.preorder) :
    ∃ root parts, p = root :: parts ∧ isName root = true ∧
      expression (.var p) = .ok (root ++ String.join (parts.map accessor)) ∧
      (∀ part ∈ parts, if part = "" then accessor part = "[]"
        else Accesses (accessor part).toList part) ∧
      ∀ q, IsPathText (root ++ String.join (parts.map accessor)) q ↔ q = p ∧ "" ∉ parts := by
  obtain ⟨root, parts, rfl, named⟩ := ((isPart_of_parse read).of_mem_preorder var).exists_root
  refine ⟨root, parts, rfl, named, rfl, fun part _ => ?_, fun q => isPathText_path_iff named⟩
  split
  · rename_i empty
    rw [empty, accessor_empty]
  · rename_i nonempty
    exact accesses_accessor nonempty

/-- A quote and a backslash in a string, a number, and a digit that starts no number. -/
theorem variable_text_denotes_odd_parts :
    ∃ tree, parse "\x7b\x7b x['it\\'s \\\\'][10].y[2b] \x7d\x7d" = .ok tree ∧
      .var ["x", "it's \\", "10", "y", "2b"] ∈ tree.preorder ∧
      expression (.var ["x", "it's \\", "10", "y", "2b"]) =
        .ok "x['it\\'s \\\\'][10].y['2b']" ∧
      IsPathText "x['it\\'s \\\\'][10].y['2b']" ["x", "it's \\", "10", "y", "2b"] := by
  have read : parse "\x7b\x7b x['it\\'s \\\\'][10].y[2b] \x7d\x7d" =
      .ok (.list [.output [.var ["x", "it's \\", "10", "y", "2b"]]]) := by
    rw [Template.parse_eq]
    cbv
  have var : Node.var ["x", "it's \\", "10", "y", "2b"] ∈
      (Node.list [.output [.var ["x", "it's \\", "10", "y", "2b"]]]).preorder := by
    simp [Node.preorder, Node.preorderAll]
  obtain ⟨root, parts, same, -, text, -, denotes⟩ := variable_text_denotes_iff read var
  cases same
  have written : "x" ++ String.join (["it's \\", "10", "y", "2b"].map accessor) =
      "x['it\\'s \\\\'][10].y['2b']" := by decide +kernel
  rw [written] at text denotes
  exact ⟨_, read, var, text, (denotes _).mpr ⟨rfl, by decide⟩⟩

/-- A variable with an empty part, whose text is no path at all. -/
theorem variable_text_empty_brackets :
    ∃ tree, parse "\x7b\x7b x[''] \x7d\x7d" = .ok tree ∧ .var ["x", ""] ∈ tree.preorder ∧
      expression (.var ["x", ""]) = .ok "x[]" ∧ ∀ q, ¬ IsPathText "x[]" q := by
  have read : parse "\x7b\x7b x[''] \x7d\x7d" = .ok (.list [.output [.var ["x", ""]]]) := by
    rw [Template.parse_eq]
    cbv
  have text : path ["x", ""] = "x[]" := by decide +kernel
  refine ⟨_, read, by simp [Node.preorder, Node.preorderAll], congrArg Except.ok text,
    fun q h => ?_⟩
  rw [← text] at h
  exact absurd (List.mem_singleton_self "") ((isPathText_path_iff (by decide)).mp h).2

end TagCompiler.TagFile
