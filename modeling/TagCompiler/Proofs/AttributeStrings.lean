import TagCompiler.Proofs.PathTexts
/-!
# Strings in attributes

A string that is written into an attribute goes through two notations: it becomes a literal of an
expression, in single quotes, and the literal becomes the value of the attribute, in double quotes.
What stands in the tag file is decoded the other way round. The decoder is stated apart from the
writer: first the character references of the value are resolved, from left to right, and then the
literal is read up to its closing quote. It gives the string again with nothing left over, and the
value never ends before its time, since no double quote stands in it.
-/

namespace TagCompiler.TagFile

/-! ### One replacement after the other -/

/-- Puts `t` in the place of every `c`. -/
def replaceChar (c : Char) (t s : List Char) : List Char :=
  s.flatMap fun e => if e = c then t else [e]

theorem replaceChar_eq_self {c : Char} {t s : List Char} (absent : c ∉ s) :
    replaceChar c t s = s := by
  induction s with
  | nil => rfl
  | cons e s ih =>
    obtain ⟨other, absent⟩ := not_or.mp (mt List.mem_cons.mpr absent)
    have kept : replaceChar c t (e :: s) = e :: replaceChar c t s := by
      simp [replaceChar, Ne.symm other]
    rw [kept, ih absent]

/-- The second replacement finds nothing in what the first one wrote, so both are made at once. -/
theorem replaceChar_replaceChar {c d : Char} {t u : List Char} (fresh : d ∉ t) (s : List Char) :
    replaceChar d u (replaceChar c t s) =
      s.flatMap fun e => if e = c then t else if e = d then u else [e] := by
  have single : ∀ e, replaceChar d u (if e = c then t else [e]) =
      if e = c then t else if e = d then u else [e] := by
    intro e
    by_cases first : e = c
    · simpa only [if_pos first] using replaceChar_eq_self fresh
    · simp [replaceChar, first]
  calc replaceChar d u (replaceChar c t s)
      = s.flatMap fun e => replaceChar d u (if e = c then t else [e]) := List.flatMap_assoc
    _ = _ := by simp only [single]

theorem toList_quote (s : String) :
    (quote s).toList = '\'' ::
      (replaceChar '\'' "\\'".toList (replaceChar '\\' "\\\\".toList s.toList) ++ ['\'']) := by
  rw [replaceChar_replaceChar (by decide), quote, String.toList_ofList]
  rfl

theorem toList_attributeText (s : String) :
    (attributeText s).toList =
      replaceChar '"' "&quot;".toList (replaceChar '&' "&amp;".toList s.toList) := by
  rw [replaceChar_replaceChar (by decide), attributeText, String.toList_ofList]
  rfl

/-! ### Decoding -/

/-- Resolves the references to a double quote and to an ampersand. -/
def resolveReferences : List Char → List Char
  | '&' :: 'q' :: 'u' :: 'o' :: 't' :: ';' :: r => '"' :: resolveReferences r
  | '&' :: 'a' :: 'm' :: 'p' :: ';' :: r => '&' :: resolveReferences r
  | c :: r => c :: resolveReferences r
  | [] => []

/-- The string up to the closing quote of a literal, and what comes after the quote. A backslash
stands before a quote or a backslash. -/
def literalBody? : List Char → Option (List Char × List Char)
  | [] => none
  | '\'' :: r => some ([], r)
  | '\\' :: c :: r =>
    if c = '\'' ∨ c = '\\' then (literalBody? r).map fun x => (c :: x.1, x.2) else none
  | c :: r => (literalBody? r).map fun x => (c :: x.1, x.2)

/-- The string that a literal denotes, and what comes after the literal. -/
def literal? : List Char → Option (String × List Char)
  | '\'' :: r => (literalBody? r).map fun x => (String.ofList x.1, x.2)
  | _ => none

theorem resolveReferences_cons {c : Char} (plain : c ≠ '&') (r : List Char) :
    resolveReferences (c :: r) = c :: resolveReferences r := by
  rw [resolveReferences]
  · intro _ same
    exact absurd same plain
  · intro _ same
    exact absurd same plain

theorem resolveReferences_escapeAttribute (c : Char) (r : List Char) :
    resolveReferences (escapeAttribute c ++ r) = c :: resolveReferences r := by
  by_cases ampersand : c = '&'
  · subst ampersand
    rfl
  · by_cases quote : c = '"'
    · subst quote
      rfl
    · rw [escapeAttribute, if_neg ampersand, if_neg quote]
      exact resolveReferences_cons ampersand r

theorem resolveReferences_attributeText (s : String) :
    resolveReferences (attributeText s).toList = s.toList := by
  rw [attributeText, String.toList_ofList]
  induction s.toList with
  | nil => rfl
  | cons c cs ih => rw [List.flatMap_cons, resolveReferences_escapeAttribute, ih]

/-- A literal is read to its own closing quote, whatever comes after it. -/
theorem literalBody?_of_escapes {cs s : List Char} (h : EscapesInKey cs s) (r : List Char) :
    literalBody? (cs ++ '\'' :: r) = some (s, r) := by
  induction h with
  | nil => rfl
  | plain quote backslash _ ih => simp [literalBody?, backslash, ih]
  | escaped special _ ih => simp [literalBody?, special, ih]

theorem literal?_quote (s : String) (r : List Char) :
    literal? ((quote s).toList ++ r) = some (s, r) := by
  have body := literalBody?_of_escapes (escapes_flatMap s.toList) r
  rw [quote, String.toList_ofList]
  simp [literal?, body]

theorem not_mem_escapeAttribute (c : Char) : '"' ∉ escapeAttribute c := by
  by_cases ampersand : c = '&'
  · rw [escapeAttribute, if_pos ampersand]
    decide
  · by_cases quote : c = '"'
    · rw [escapeAttribute, if_neg ampersand, if_pos quote]
      decide
    · rw [escapeAttribute, if_neg ampersand, if_neg quote]
      exact mt List.mem_singleton.mp (Ne.symm quote)

theorem not_mem_attributeText (s : String) : '"' ∉ (attributeText s).toList := by
  rw [attributeText, String.toList_ofList, List.mem_flatMap]
  rintro ⟨c, -, found⟩
  exact not_mem_escapeAttribute c found

/-- The value that is written for a string is made by four replacements, one after the other. No
double quote stands in it, and decoding it uses all of it and gives the string. -/
theorem attribute_string_decodes (s : String) :
    (attributeText (quote s)).toList =
      replaceChar '"' "&quot;".toList (replaceChar '&' "&amp;".toList ('\'' ::
        (replaceChar '\'' "\\'".toList (replaceChar '\\' "\\\\".toList s.toList) ++ ['\'']))) ∧
    '"' ∉ (attributeText (quote s)).toList ∧
    literal? (resolveReferences (attributeText (quote s)).toList) = some (s, []) := by
  refine ⟨?_, not_mem_attributeText (quote s), ?_⟩
  · rw [toList_attributeText, toList_quote]
  · rw [resolveReferences_attributeText]
    simpa using literal?_quote s []

/-- Each of the characters with a meaning of its own, next to texts that look like their escapes. -/
example : attributeText (quote "\\' &quot; \"") = "'\\\\\\' &amp;quot; &quot;'" := by decide

end TagCompiler.TagFile
