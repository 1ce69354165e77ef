import TagCompiler.Content.Store
import TagCompiler.Pipeline.SiteMacro
import TagCompiler.Proofs.ElementInduction
/-!
# Scanning finds every macro that reading finds

A source is scanned for the starts of macro definitions, from left to right, and what was matched is
not looked at again. A match has a brace at its front and no other, so no other match can start
inside it, and a scan misses none. The readers come upon a definition only at such a start, with the
same name: a name ends at a blank or a parenthesis, and neither is a word character.
-/

namespace TagCompiler.Template

open Text Grammar

/-! ### Equations of the scanner -/

theorem plain_scannedName? (p : Char → Bool) (c : Char) (r : List Char) :
    plain (scannedName? p (c :: r)) =
      if isNameStart c then some (String.ofList (c :: r.takeWhile p), r.dropWhile p) else none := by
  unfold scannedName?
  dsimp only
  split <;> rfl

theorem plain_blanks? (c : Char) (r : List Char) :
    plain (blanks? (c :: r)) = if isBlank c then some ((), skipBlanks r) else none := by
  unfold blanks?
  dsimp only
  split <;> rfl

theorem plain_scannedCallee? (p : Char → Bool) (s : List Char) : plain (scannedCallee? p s) = (do
    let (n, r) ← plain (scannedName? p s)
    let (_, r) ← plain (spaced? "(" r)
    some (n, r)) := by
  unfold scannedCallee?
  rcases scannedName? p s with _ | ⟨n, r, h⟩
  · rfl
  · show plain (past h (spaced? "(" r) >>= _) = plain (spaced? "(" r) >>= _
    rcases spaced? "(" r with _ | x <;> rfl

theorem plain_definitionStart? (s : List Char) : plain (definitionStart? s) = (do
    let (_, r) ← plain (tagStart? "\x7b%" s)
    let (_, r) ← plain (spaced? "macro" r)
    let (_, r) ← plain (blanks? r)
    plain (scannedCallee? isWordChar r)) := by
  unfold definitionStart?
  rcases tagStart? "\x7b%" s with _ | ⟨_, r, h⟩
  · rfl
  · show plain (past h (spaced? "macro" r) >>= _) = plain (spaced? "macro" r) >>= _
    rcases spaced? "macro" r with _ | ⟨_, t, h⟩
    · rfl
    · show plain (past _ (blanks? t) >>= _) = plain (blanks? t) >>= _
      rcases blanks? t with _ | ⟨_, t, h⟩
      · rfl
      · exact plain_past _ _

/-! ### Matches -/

/-- From `s` on to its end `r` the character `a` is not passed. -/
def Passes (a : Char) (s r : List Char) : Prop := ∃ w, s = w ++ r ∧ a ∉ w

theorem Passes.trans {a : Char} {s r t : List Char} (first : Passes a s r)
    (second : Passes a r t) : Passes a s t := by
  obtain ⟨v, rfl, hv⟩ := first
  obtain ⟨w, rfl, hw⟩ := second
  refine ⟨v ++ w, (List.append_assoc v w t).symm, ?_⟩
  rw [List.mem_append]
  exact not_or.mpr ⟨hv, hw⟩

theorem Passes.cons {a c : Char} {s r : List Char} (other : c ≠ a) (h : Passes a s r) :
    Passes a (c :: s) r := by
  obtain ⟨w, rfl, hw⟩ := h
  exact ⟨c :: w, rfl, fun ha => (List.mem_cons.mp ha).elim (fun h => other h.symm) hw⟩

theorem Passes.isSuffix {a : Char} {s r : List Char} (h : Passes a s r) : r <:+ s := by
  obtain ⟨w, rfl, -⟩ := h
  exact List.suffix_append w r

/-- An end of `s` that starts with `a` is an end of what comes after the passed part. -/
theorem Passes.suffix {a : Char} {s r t : List Char} (h : Passes a s r) (end_ : a :: t <:+ s) :
    a :: t <:+ r := by
  obtain ⟨w, rfl, hw⟩ := h
  induction w with
  | nil => exact end_
  | cons c w ih =>
    obtain ⟨other, hw⟩ := not_or.mp (mt List.mem_cons.mpr hw)
    rcases List.suffix_cons_iff.mp end_ with same | later
    · exact absurd (List.cons.inj same).1 other
    · exact ih hw later

theorem passes_dropWhile {a : Char} {p : Char → Bool} (other : p a = false) (s : List Char) :
    Passes a s (s.dropWhile p) := by
  refine ⟨s.takeWhile p, List.takeWhile_append_dropWhile.symm, fun ha => ?_⟩
  have := List.all_eq_true.mp List.all_takeWhile _ ha
  rw [other] at this
  cases this

theorem passes_spaced? {a : Char} {w : String} {s r : List Char} {u : Unit}
    (visible : isBlank a = false) (other : a ∉ w.toList) (h : plain (spaced? w s) = some (u, r)) :
    Passes a s r := by
  rw [plain_spaced?] at h
  exact (passes_dropWhile visible s).trans ⟨_, (plain_word?_eq_some.mp h).2, other⟩

theorem passes_blanks? {a : Char} {s r : List Char} {u : Unit} (visible : isBlank a = false)
    (h : plain (blanks? s) = some (u, r)) : Passes a s r := by
  cases s with
  | nil => cases h
  | cons c s =>
    rw [plain_blanks?] at h
    split at h
    · rename_i blank
      cases h
      refine .cons ?_ (passes_dropWhile visible s)
      rintro rfl
      rw [visible] at blank
      cases blank
    · cases h

theorem passes_scannedCallee? {a : Char} {p : Char → Bool} {s r : List Char} {n : String}
    (visible : isBlank a = false) (start : isNameStart a = false) (other : p a = false)
    (parenthesis : a ≠ '(') (h : plain (scannedCallee? p s) = some (n, r)) : Passes a s r := by
  rw [plain_scannedCallee?] at h
  obtain ⟨⟨m, t⟩, named, h⟩ := Option.bind_eq_some_iff.mp h
  obtain ⟨⟨_, t'⟩, opened, h⟩ := Option.bind_eq_some_iff.mp h
  cases h
  refine Passes.trans ?_ (passes_spaced? visible (by simpa using parenthesis) opened)
  cases s with
  | nil => cases named
  | cons c s =>
    rw [plain_scannedName?] at named
    split at named
    · rename_i starts
      cases named
      refine .cons ?_ (passes_dropWhile other s)
      rintro rfl
      rw [start] at starts
      cases starts
    · cases named

/-- What is matched starts with a brace and has no other. -/
theorem passes_definitionStart? {s r : List Char} {n : String}
    (h : plain (definitionStart? s) = some (n, r)) :
    ∃ t, s = '\x7b' :: t ∧ Passes '\x7b' t r := by
  rw [plain_definitionStart?] at h
  obtain ⟨⟨_, s₁⟩, opened, h⟩ := Option.bind_eq_some_iff.mp h
  obtain ⟨⟨_, s₂⟩, keyword, h⟩ := Option.bind_eq_some_iff.mp h
  obtain ⟨⟨_, s₃⟩, blanks, h⟩ := Option.bind_eq_some_iff.mp h
  have inside : Passes '\x7b' s₁ r :=
    ((passes_spaced? (by decide) (by decide) keyword).trans
      (passes_blanks? (by decide) blanks)).trans
      (passes_scannedCallee? (by decide) (by decide) (by decide) (by decide) h)
  obtain ⟨t, rfl, rfl | rfl⟩ := tagStart?_finds opened
  · exact ⟨_, rfl, .cons (by decide) (.cons (by decide) inside)⟩
  · exact ⟨_, rfl, .cons (by decide) inside⟩

/-! ### The way of a scan -/

section
variable {p : (s : List Char) → Option (Reading 1 String s)} {s t r : List Char} {n : String}

theorem scan_cons (p : (s : List Char) → Option (Reading 1 String s)) (c : Char) (r : List Char) :
    scan p (c :: r) =
      match plain (p (c :: r)) with
      | some (n, r) => n :: scan p r
      | none => scan p r := by
  rw [scan]
  rcases p (c :: r) with _ | x <;> rfl

/-- Going through `s` from left to right, a scan for `p` comes to the place `t`. -/
inductive Visits (p : (s : List Char) → Option (Reading 1 String s)) :
    List Char → List Char → Prop
  | here (s : List Char) : Visits p s s
  | step {c : Char} {s t : List Char} :
      plain (p (c :: s)) = none → Visits p s t → Visits p (c :: s) t
  | jump {n : String} {s r t : List Char} :
      plain (p s) = some (n, r) → Visits p r t → Visits p s t

/-- On its way through `s` a scan finds `n` at the place `t`, and `r` is left after the match. -/
def IsFind (p : (s : List Char) → Option (Reading 1 String s)) (s t : List Char) (n : String)
    (r : List Char) : Prop :=
  Visits p s t ∧ plain (p t) = some (n, r)

/-- One of the finds starts before the place `t` and goes on beyond it. -/
def PassedOver (p : (s : List Char) → Option (Reading 1 String s)) (s t : List Char) : Prop :=
  ∃ u n r, IsFind p s u n r ∧ t <:+ u ∧ t ≠ u ∧ ¬ t <:+ r

/-- What is left after a match is an end of the text. -/
def LeavesEnd (p : (s : List Char) → Option (Reading 1 String s)) : Prop :=
  ∀ s n r, plain (p s) = some (n, r) → r <:+ s

theorem mem_scan_iff : n ∈ scan p s ↔ ∃ t r, IsFind p s t n r := by
  constructor
  · intro h
    induction hn : s.length using Nat.strongRecOn generalizing s with
    | ind size ih =>
      subst hn
      cases s with
      | nil =>
        rw [scan] at h
        cases h
      | cons c s =>
        rw [scan_cons] at h
        split at h
        · rename_i m v matched
          rcases List.mem_cons.mp h with rfl | h
          · exact ⟨_, v, .here _, matched⟩
          · obtain ⟨t, r, way, found⟩ := ih _ (length_of_plain_some matched) h rfl
            exact ⟨t, r, .jump matched way, found⟩
        · rename_i missed
          obtain ⟨t, r, way, found⟩ := ih _ (Nat.lt_succ_self _) h rfl
          exact ⟨t, r, .step missed way, found⟩
  · rintro ⟨t, r, way, found⟩
    induction way with
    | here s =>
      cases s with
      | nil => exact absurd (length_of_plain_some found) (by simp)
      | cons c s =>
        rw [scan_cons, found]
        exact List.mem_cons_self
    | step missed _ ih =>
      rw [scan_cons, missed]
      exact ih found
    | @jump m s v t matched _ ih =>
      cases s with
      | nil => exact absurd (length_of_plain_some matched) (by simp)
      | cons c s =>
        rw [scan_cons, matched]
        exact List.mem_cons_of_mem m (ih found)

theorem Visits.isSuffix (ends : LeavesEnd p) (h : Visits p s t) : t <:+ s := by
  induction h with
  | here s => exact List.suffix_refl s
  | @step c s t _ _ ih => exact ih.trans (List.suffix_cons c s)
  | jump matched _ ih => exact ih.trans (ends _ _ _ matched)

/-- The way from a find goes on after it. -/
theorem Visits.after_find (ends : LeavesEnd p) {u : List Char} (way : Visits p s t)
    (find : IsFind p s u n r) (before : t <:+ u) : t = u ∨ t <:+ r := by
  obtain ⟨onward, found⟩ := find
  induction onward with
  | here u =>
    cases way with
    | here => exact .inl rfl
    | step missed _ =>
      rw [found] at missed
      cases missed
    | jump matched way =>
      rw [found] at matched
      cases matched
      exact .inr (way.isSuffix ends)
  | @step c s u missed onward ih =>
    cases way with
    | here =>
      have := (before.trans (onward.isSuffix ends)).length_le
      rw [List.length_cons] at this
      omega
    | step _ way => exact ih way before found
    | jump matched _ =>
      rw [missed] at matched
      cases matched
  | @jump m s v u matched onward ih =>
    cases way with
    | here =>
      have shorter := length_of_plain_some matched
      have := (before.trans (onward.isSuffix ends)).length_le
      omega
    | step missed _ =>
      rw [missed] at matched
      cases matched
    | jump other way =>
      rw [matched] at other
      cases other
      exact ih way before found

/-- A scan comes to every place that no find passes over, and to no other. -/
theorem visits_iff (ends : LeavesEnd p) (end_ : t <:+ s) :
    Visits p s t ↔ ¬ PassedOver p s t := by
  constructor
  · rintro way ⟨u, n, r, find, before, other, beyond⟩
    exact (way.after_find ends find before).elim other beyond
  · intro clear
    induction hn : s.length using Nat.strongRecOn generalizing s with
    | ind size ih =>
      subst hn
      by_cases same : t = s
      · exact same ▸ .here t
      · cases found : plain (p s) with
        | none =>
          cases s with
          | nil => exact absurd (List.suffix_nil.mp end_) same
          | cons c s =>
            have later := (List.suffix_cons_iff.mp end_).resolve_left same
            refine .step found (ih _ (Nat.lt_succ_self _) later ?_ rfl)
            rintro ⟨u, n, r, ⟨way, matched⟩, passed⟩
            exact clear ⟨u, n, r, ⟨.step found way, matched⟩, passed⟩
        | some m =>
          obtain ⟨n, r⟩ := m
          have shorter : r.length < s.length := length_of_plain_some found
          have later : t <:+ r := by
            by_contra beyond
            exact clear ⟨s, n, r, ⟨.here s, found⟩, end_, same, beyond⟩
          refine .jump found (ih _ shorter later ?_ rfl)
          rintro ⟨u, m, v, ⟨way, matched⟩, passed⟩
          exact clear ⟨u, m, v, ⟨.jump found way, matched⟩, passed⟩

end

theorem leavesEnd_definitionStart? : LeavesEnd definitionStart? := by
  intro s n r found
  obtain ⟨t, rfl, passes⟩ := passes_definitionStart? found
  exact passes.isSuffix.trans (List.suffix_cons _ t)

/-- A scan finds every definition that starts at an end of `s`. -/
theorem mem_scan {s t r : List Char} {n : String} (end_ : t <:+ s)
    (found : plain (definitionStart? t) = some (n, r)) : n ∈ scan definitionStart? s := by
  refine mem_scan_iff.mpr ⟨t, r, (visits_iff leavesEnd_definitionStart? end_).mpr ?_, found⟩
  rintro ⟨u, m, v, ⟨-, matched⟩, inside, other, beyond⟩
  -- The end that is looked for starts with a brace, so it does not start inside the match.
  obtain ⟨t, rfl, -⟩ := passes_definitionStart? found
  obtain ⟨u, rfl, passes⟩ := passes_definitionStart? matched
  exact beyond (passes.suffix ((List.suffix_cons_iff.mp inside).resolve_left other))

/-! ### Heads of definitions -/

theorem isWordChar_of_isNameChar {c : Char} (h : isNameChar c = true) : isWordChar c = true := by
  have ascii : isAsciiWordChar c = true := by
    simp only [isNameChar, isNameStart, isDigit, Bool.or_eq_true] at h
    simp only [isAsciiWordChar, Bool.or_eq_true]
    grind
  have small : c.toNat < 0x80 := by
    simp only [isAsciiWordChar, Bool.or_eq_true, Bool.and_eq_true, decide_eq_true_eq,
      beq_iff_eq] at ascii
    rcases ascii with ((⟨-, h⟩ | ⟨-, h⟩) | ⟨-, h⟩) | rfl
    · exact Nat.lt_of_le_of_lt h (by decide)
    · exact Nat.lt_of_le_of_lt h (by decide)
    · exact Nat.lt_of_le_of_lt h (by decide)
    · decide
  rw [isWordChar, if_pos small, ascii]

/-- The numbers of the blank characters. -/
def blankCodes : List Nat :=
  [9, 10, 11, 12, 13, 0x20, 0x85, 0xA0, 0x1680, 0x2000, 0x2001, 0x2002, 0x2003, 0x2004, 0x2005,
    0x2006, 0x2007, 0x2008, 0x2009, 0x200A, 0x2028, 0x2029, 0x202F, 0x205F, 0x3000]

theorem not_isWordChar_of_isBlank {c : Char} (h : isBlank c = true) : isWordChar c = false := by
  have table : ∀ n ∈ blankCodes, isWordChar (Char.ofNat n) = false := by decide +kernel
  have code : c.toNat ∈ blankCodes := by
    simp only [isBlank, Bool.or_eq_true, Bool.and_eq_true, decide_eq_true_eq, beq_iff_eq] at h
    simp only [blankCodes, List.mem_cons, List.not_mem_nil, or_false]
    omega
  rw [← Char.ofNat_toNat c]
  exact table _ code

theorem plain_demandSpaced_eq_ok {w : String} {s r : List Char} {u : Unit} :
    plain (demandSpaced w s) = .ok (u, r) ↔ plain (spaced? w s) = some (u, r) := by
  rw [plain_demandSpaced, plain_spaced?, plain_demand]
  split
  · rename_i p found
    rw [found]
    simp
  · rename_i missing
    rw [missing]
    split <;> simp [fail]

/-- Two names have a blank between them. -/
theorem blanks?_of_endsName {s r : List Char} {n : String} (ends : EndsName s)
    (hn : isName n = true) (next : skipBlanks s = n.toList ++ r) :
    plain (blanks? s) = some ((), skipBlanks s) := by
  obtain ⟨c, cs, hc, start⟩ := exists_cons_of_isName hn
  rw [hc] at next
  cases s with
  | nil => cases next
  | cons d s =>
    by_cases blank : isBlank d = true
    · rw [plain_blanks?, if_pos blank, skipBlanks, skipBlanks, List.dropWhile_cons_of_pos blank]
    · rw [skipBlanks_cons (Bool.eq_false_iff.mpr blank)] at next
      obtain rfl := (List.cons.inj next).1
      have inside := isNameChar_of_isNameStart start
      rw [ends d rfl] at inside
      cases inside

/-- Before a parenthesis no name goes on, if it has no blank and no parenthesis in it. -/
theorem not_of_spaced? {p : Char → Bool} (blank : ∀ c, isBlank c = true → p c = false)
    (parenthesis : p '(' = false) {s r : List Char} {u : Unit}
    (opened : plain (spaced? "(" s) = some (u, r)) : ∀ c ∈ s.head?, p c = false := by
  rintro c hc
  obtain ⟨s, rfl⟩ := List.head?_eq_some_iff.mp hc
  by_cases hb : isBlank c = true
  · exact blank c hb
  · rw [plain_spaced?, skipBlanks_cons (Bool.eq_false_iff.mpr hb)] at opened
    obtain rfl := (List.cons.inj (plain_word?_eq_some.mp opened).2).1
    exact parenthesis

theorem scannedCallee?_append {p : Char → Bool} (blank : ∀ c, isBlank c = true → p c = false)
    (parenthesis : p '(' = false) {c : Char} {cs r t : List Char} {u : Unit}
    (start : isNameStart c = true) (inside : ∀ d ∈ cs, p d = true)
    (opened : plain (spaced? "(" r) = some (u, t)) :
    plain (scannedCallee? p (c :: (cs ++ r))) = some (String.ofList (c :: cs), t) := by
  obtain ⟨take, drop⟩ := span_append inside (not_of_spaced? blank parenthesis opened)
  rw [plain_scannedCallee?, plain_scannedName?, if_pos start, take, drop]
  show (plain (spaced? "(" r) >>= _) = _
  rw [opened]
  rfl

theorem scannedCallee?_of_name {r t : List Char} {n : String} {u : Unit} (hn : isName n = true)
    (opened : plain (spaced? "(" r) = some (u, t)) :
    plain (scannedCallee? isWordChar (n.toList ++ r)) = some (n, t) := by
  obtain ⟨c, cs, hc, start⟩ := exists_cons_of_isName hn
  have inside : ∀ d ∈ cs, isWordChar d = true := fun d hd =>
    isWordChar_of_isNameChar (all_isNameChar_of_isName hn d (hc ▸ List.mem_cons_of_mem c hd))
  have found := scannedCallee?_append (fun _ => not_isWordChar_of_isBlank) (by decide) start inside
    opened
  rw [← hc, String.ofList_toList] at found
  rw [hc]
  exact found

/-- The tag of a definition, as it is read, is a match of the scanner. -/
theorem definitionStart?_of_head {s r₁ r₂ r₃ r₄ : List Char} {u v : Unit} {n : String}
    (opened : plain (tagStart? "\x7b%" s) = some (u, r₁))
    (keyword : plain (name r₁) = .ok ("macro", r₂)) (named : plain (name r₂) = .ok (n, r₃))
    (list : plain (demandSpaced "(" r₃) = .ok (v, r₄)) :
    plain (definitionStart? s) = some (n, r₄) := by
  rw [plain_name, plain_nameHere_eq_ok] at keyword named
  obtain ⟨-, hr₁, ends⟩ := keyword
  obtain ⟨hn, hr₂, -⟩ := named
  have word : plain (spaced? "macro" r₁) = some ((), r₂) := by
    rw [plain_spaced?, plain_word?_eq_some]
    exact ⟨by decide, hr₁⟩
  have callee : plain (scannedCallee? isWordChar (skipBlanks r₂)) = some (n, r₄) := by
    rw [hr₂]
    exact scannedCallee?_of_name hn (plain_demandSpaced_eq_ok.mp list)
  rw [plain_definitionStart?, opened]
  show (plain (spaced? "macro" r₁) >>= _) = _
  rw [word]
  show (plain (blanks? r₂) >>= _) = _
  rw [blanks?_of_endsName ends hn hr₂]
  exact callee

/-! ### Definitions in a tree -/

/-- Somewhere in the source stands the start of a definition of the macro. -/
def Announced (source : List Char) (name : String) : Prop :=
  ∃ t r, t <:+ source ∧ plain (definitionStart? t) = some (name, r)

/-- All macros that are defined in the tree are announced in the source. -/
def AllAnnounced (source : List Char) (n : Node) : Prop :=
  ∀ name params body doc, .macroDef name params body doc ∈ n.preorder → Announced source name

variable {source : List Char}

theorem allAnnounced_of_subtrees {n : Node} (other : n.isMacroDef = false)
    (below : ∀ m ∈ n.subtrees, AllAnnounced source m) : AllAnnounced source n := by
  intro name params body doc h
  rcases Node.mem_preorder.mp h with rfl | ⟨m, hm, h⟩
  · cases other
  · exact below m hm _ _ _ _ h

theorem allAnnounced_text (s : String) : AllAnnounced source (.text s) :=
  allAnnounced_of_subtrees rfl (by simp [Node.subtrees, Node.children])

theorem allAnnounced_expression {n : Node} (h : IsExpressionTree n) : AllAnnounced source n := by
  intro name params body doc inside
  cases h _ inside

/-- Where a definition is read, it is announced. -/
theorem ElementAt.announced {t : List Char} {name : String} {params : Node} {body : List Node}
    {doc : Option String} (h : ElementAt t (.macroDef name params body doc)) (end_ : t <:+ source) :
    Announced source name := by
  obtain ⟨s, e, r, -, -, same⟩ | ⟨s, doc, opened, form⟩ | ⟨v, same⟩ := h.form
  · unfold outputOf at same
    split at same <;> cases same
  · cases form with
    | macroDef keyword head =>
      rw [plain_macroHead] at head
      obtain ⟨⟨n, r₁⟩, named, head⟩ := ok_of_bind head
      obtain ⟨⟨_, r₂⟩, list, head⟩ := ok_of_bind head
      obtain ⟨p, -, head⟩ := ok_of_bind head
      obtain ⟨p, -, head⟩ := ok_of_bind head
      cases head
      exact ⟨t, r₂, end_, definitionStart?_of_head opened keyword named list⟩
  · cases same

theorem inherited_allAnnounced : Inherited source (AllAnnounced source) where
  text := allAnnounced_text
  branch hc hyes hno := allAnnounced_of_subtrees rfl (List.forall_mem_cons.mpr
    ⟨allAnnounced_expression hc.isExpressionTree, List.forall_mem_append.mpr ⟨hyes, hno⟩⟩)
  loop hi hb := allAnnounced_of_subtrees rfl
    (List.forall_mem_cons.mpr ⟨allAnnounced_expression hi.isExpressionTree, hb⟩)
  element end_ read inside := by
    rcases read.isStatement with rfl | statement
    · exact allAnnounced_text ""
    · have below := forall_subtrees_of_isStatement (Q := AllAnnounced source) statement
        (fun _ h => allAnnounced_expression h) (allAnnounced_of_subtrees rfl inside) inside
      intro name params body doc h
      rcases Node.mem_preorder.mp h with rfl | ⟨m, hm, h⟩
      · exact read.announced end_
      · exact below m hm _ _ _ _ h

/-- A macro that is defined in the tree of a template is found by a scan of its source. -/
theorem mem_definitions {source name : String} {tree params : Node} {body : List Node}
    {doc : Option String} (read : parse source = .ok tree)
    (defined : .macroDef name params body doc ∈ tree.preorder) (other : name ≠ "caller") :
    name ∈ (usage source).definitions := by
  rw [parse_eq] at read
  split at read
  · rename_i ns elements
    cases read
    obtain ⟨n, hn, inside⟩ := mem_preorder_ofElements defined rfl
    have announced := elementsFrom_inherited inherited_allAnnounced (List.suffix_refl _) (by simp)
      elements n hn
    obtain ⟨t, r, end_, found⟩ := announced _ _ _ _ inside
    refine NameSet.mem_ofNames.mpr (List.mem_filter.mpr ⟨mem_scan end_ found, ?_⟩)
    simpa using other
  · cases read

end TagCompiler.Template

namespace TagCompiler.Store

open Template

theorem lookup_append_of_mem {site name : String} {names : List String} {file : MacroFile}
    (h : name ∈ names) (more : List ((String × String) × MacroFile)) :
    (names.map (fun n => ((site, n), file)) ++ more).lookup (site, name) = some file := by
  induction names with
  | nil => cases h
  | cons n names ih =>
    rw [List.map_cons, List.cons_append, List.lookup_cons]
    split
    · rfl
    · rename_i differ
      rcases List.mem_cons.mp h with rfl | h
      · simp at differ
      · exact ih h

/-- A file that was registered last is the one that is found. -/
theorem resolve_addEntity {site name source : String} (h : name ∈ (usage source).definitions)
    (s : Store) (entity : Entity) (file : String) (properties : Members) :
    (s.addEntity site entity file source properties).2.resolve site name =
      .ok ⟨entity, file, source⟩ := by
  have known : (s.addEntity site entity file source properties).2.sites.contains site = true := by
    simp [addEntity]
  have found : (s.addEntity site entity file source properties).2.macros.lookup (site, name) =
      some ⟨entity, file, source⟩ := lookup_append_of_mem h s.macros
  rw [resolve, if_pos known, found]

/-- Registering a macro file misses no macro that is defined in its tree, at any depth: the scan for
definitions finds its name, and under that name the file is found. -/
theorem definition_found_of_parse {source name : String} {tree params : Node} {body : List Node}
    {doc : Option String} (read : parse source = .ok tree)
    (defined : .macroDef name params body doc ∈ tree.preorder) (other : name ≠ "caller") :
    name ∈ (usage source).definitions ∧
    ∀ (s : Store) (site : String) (entity : Entity) (file : String) (properties : Members),
      name ∈ (s.addEntity site entity file source properties).1 ∧
      (s.addEntity site entity file source properties).2.content.resolve site name =
        .ok ⟨entity, file, source⟩ := by
  have found := mem_definitions read defined other
  exact ⟨found, fun s site entity file properties =>
    ⟨found, resolve_addEntity found s entity file properties⟩⟩

/-- A definition inside a loop, in a tag with a trim mark and all kinds of blanks, after a comment
that looks like another definition. -/
def definitionInLoop : String :=
  "\x7b# \x7b% macro a() #\x7d\x7b% for i in x %\x7d\x7b%-\tmacro\n card (b=1) %\x7d" ++
    "\x7b\x7b b \x7d\x7d\x7b% endmacro %\x7d\x7b% endfor %\x7d"

theorem definition_found_in_loop : ∃ tree params body doc,
    parse definitionInLoop = .ok tree ∧ .macroDef "card" params body doc ∈ tree.preorder ∧
    "card" ∈ (usage definitionInLoop).definitions ∧
    (empty.addEntity "site" ⟨"1", "page", "pages", "home"⟩ "card.html" definitionInLoop
      []).2.content.resolve "site" "card" =
        .ok ⟨⟨"1", "page", "pages", "home"⟩, "card.html", definitionInLoop⟩ := by
  have names : ((parse definitionInLoop).toOption.map fun t =>
      t.preorder.filterMap Node.macroName?) = some ["card"] := by decide +kernel
  cases read : parse definitionInLoop with
  | error e =>
    rw [read] at names
    cases names
  | ok tree =>
    rw [read] at names
    have only : tree.preorder.filterMap Node.macroName? = ["card"] := Option.some.inj names
    obtain ⟨k, hk, named⟩ := List.mem_filterMap.mp (only ▸ List.mem_singleton_self "card")
    cases k with
    | macroDef name params body doc =>
      cases named
      obtain ⟨found, resolved⟩ := definition_found_of_parse read hk (by decide)
      exact ⟨tree, params, body, doc, rfl, hk, found, (resolved empty _ _ _ _).2⟩
    | _ => cases named

end TagCompiler.Store
