import TagCompiler.Proofs.RenderingFailures
import TagCompiler.Proofs.StatementCalls
/-!
# Text that comes to life

In a tag file `$` or `#` before a brace opens an expression, unless a backslash stands before it.
The text of a template is escaped for that, but each text on its own: one that ends in `$` and one
that starts with a brace, written side by side, open an expression that no template has. This module
says that it happens there and nowhere else, both for trees as they are read and after inlining.
-/

namespace TagCompiler

namespace TagFile

/-- The characters that open an expression if a brace follows. -/
def isSigil (c : Char) : Bool := c == '$' || c == '#'

/-- The last character is a sigil, and no backslash stands before it. -/
def EndsInSigil (s : List Char) : Prop :=
  ∃ before sigil, s = before ++ [sigil] ∧ isSigil sigil = true ∧ before.getLast? ≠ some '\\'

/-- An expression is opened somewhere. -/
def HasLiveOpener (s : List Char) : Prop :=
  ∃ before after, s = before ++ '\x7b' :: after ∧ EndsInSigil before

/-! ### Escaped text -/

theorem escapeText_other {c : Char} {s : List Char}
    (other : isSigil c = false ∨ s.head? ≠ some '\x7b') :
    escapeText (c :: s) = c :: escapeText s := by
  rw [escapeText]
  · rintro t rfl rfl
    rcases other with sigil | brace
    · cases sigil
    · exact brace rfl
  · rintro t rfl rfl
    rcases other with sigil | brace
    · cases sigil
    · exact brace rfl

theorem escapeText_opener {c : Char} (sigil : isSigil c = true) (s : List Char) :
    escapeText (c :: '\x7b' :: s) = '\\' :: c :: '\x7b' :: escapeText s := by
  rcases (Bool.or_eq_true _ _).mp sigil with dollar | hash
  · rw [beq_iff_eq] at dollar
    subst dollar
    rw [escapeText]
  · rw [beq_iff_eq] at hash
    subst hash
    rw [escapeText]

/-- Induction over text as it is escaped: an opener counts as one step. -/
theorem text_induction {motive : List Char → Prop} (nil : motive [])
    (opener : ∀ c t, isSigil c = true → motive t → motive (c :: '\x7b' :: t))
    (other : ∀ c t, isSigil c = false ∨ t.head? ≠ some '\x7b' → motive t → motive (c :: t))
    (s : List Char) : motive s := by
  fun_induction escapeText s with
  | case1 s ih => exact opener '$' s rfl ih
  | case2 s ih => exact opener '#' s rfl ih
  | case3 c s notDollar notHash ih =>
    refine other c s ?_ ih
    by_cases sigil : isSigil c = true
    · refine .inr fun brace => ?_
      obtain ⟨t, rfl⟩ := List.head?_eq_some_iff.mp brace
      rcases (Bool.or_eq_true _ _).mp sigil with dollar | hash
      · exact notDollar t (beq_iff_eq.mp dollar) rfl
      · exact notHash t (beq_iff_eq.mp hash) rfl
    · exact .inl (Bool.not_eq_true _ ▸ sigil)
  | case4 => exact nil

theorem head?_escapeText (s : List Char) :
    (escapeText s).head? = some '\x7b' ↔ s.head? = some '\x7b' := by
  induction s using text_induction with
  | nil => rfl
  | opener c t sigil ih =>
    have different : c ≠ '\x7b' := by
      rintro rfl
      cases sigil
    rw [escapeText_opener sigil]
    simp [different]
  | other c t free ih =>
    rw [escapeText_other free]
    rfl

theorem escapeText_eq_nil {s : List Char} : escapeText s = [] ↔ s = [] := by
  induction s using text_induction with
  | nil => rfl
  | opener c t sigil ih => simp [escapeText_opener sigil]
  | other c t free ih => simp [escapeText_other free]

theorem getLast?_escapeText (s : List Char) : (escapeText s).getLast? = s.getLast? := by
  induction s using text_induction with
  | nil => rfl
  | opener c t sigil ih =>
    rw [escapeText_opener sigil, List.getLast?_cons_cons, List.getLast?_cons_cons,
      List.getLast?_cons_cons, List.getLast?_cons, List.getLast?_cons, ih]
  | other c t free ih => rw [escapeText_other free, List.getLast?_cons, List.getLast?_cons, ih]

theorem escapeText_concat {c : Char} (solid : c ≠ '\x7b') (s : List Char) :
    escapeText (s ++ [c]) = escapeText s ++ [c] := by
  induction s using text_induction with
  | nil => exact escapeText_other (.inr (by simp))
  | opener d t sigil ih =>
    rw [escapeText_opener sigil, List.cons_append, List.cons_append, escapeText_opener sigil, ih]
    rfl
  | other d t free ih =>
    have still : isSigil d = false ∨ (t ++ [c]).head? ≠ some '\x7b' := by
      refine free.imp_right fun notBrace => ?_
      cases t with
      | nil => simpa using solid
      | cons e t => exact notBrace
    rw [escapeText_other free, List.cons_append, escapeText_other still, ih]
    rfl

/-- In escaped text, a sigil before a brace has a backslash before it. -/
theorem backslash_of_escapeText {s before after : List Char} {sigil : Char}
    (isSig : isSigil sigil = true) (h : escapeText s = before ++ sigil :: '\x7b' :: after) :
    before.getLast? = some '\\' := by
  induction s using text_induction generalizing before with
  | nil => simp [escapeText] at h
  | opener c t sigil' ih =>
    rw [escapeText_opener sigil'] at h
    rcases before with _ | ⟨a, _ | ⟨b, _ | ⟨d, before⟩⟩⟩
    · obtain ⟨rfl, -⟩ := List.cons.inj h
      cases isSig
    · obtain ⟨rfl, -⟩ := List.cons.inj h
      rfl
    · obtain ⟨-, h⟩ := List.cons.inj h
      obtain ⟨-, h⟩ := List.cons.inj h
      obtain ⟨rfl, -⟩ := List.cons.inj h
      cases isSig
    · obtain ⟨-, h⟩ := List.cons.inj h
      obtain ⟨-, h⟩ := List.cons.inj h
      obtain ⟨-, h⟩ := List.cons.inj h
      rw [List.getLast?_cons_cons, List.getLast?_cons_cons, List.getLast?_cons, ih h]
      rfl
  | other c t free ih =>
    rw [escapeText_other free] at h
    rcases before with _ | ⟨a, before⟩
    · obtain ⟨rfl, rest⟩ := List.cons.inj h
      have brace : t.head? = some '\x7b' := (head?_escapeText t).mp (by rw [rest]; rfl)
      rcases free with notSigil | notBrace
      · cases isSig.symm.trans notSigil
      · exact absurd brace notBrace
    · obtain ⟨-, h⟩ := List.cons.inj h
      rw [List.getLast?_cons, ih h]
      rfl

/-! ### Texts and tags side by side -/

/-- A part of a tag file: a text of the template, or a tag. -/
inductive Fragment where
  | text (s : String)
  | tag (s : String)

namespace Fragment

/-- What the template has there. -/
def content : Fragment → List Char
  | .text s | .tag s => s.toList

/-- What the tag file has there. -/
def written : Fragment → List Char
  | .text s => escapeText s.toList
  | .tag s => s.toList

/-- Text, or a tag that opens no expression itself. -/
def Inert : Fragment → Prop
  | .text _ => True
  | .tag s => ¬ HasLiveOpener s.toList

variable (f : Fragment)

theorem written_eq_nil : f.written = [] ↔ f.content = [] := by
  cases f with
  | text s => exact escapeText_eq_nil
  | tag s => exact Iff.rfl

theorem head?_written : f.written.head? = some '\x7b' ↔ f.content.head? = some '\x7b' := by
  cases f with
  | text s => exact head?_escapeText _
  | tag s => exact Iff.rfl

theorem getLast?_written : f.written.getLast? = f.content.getLast? := by
  cases f with
  | text s => exact getLast?_escapeText _
  | tag s => rfl

theorem written_concat {s : List Char} {c : Char} (h : f.content = s ++ [c]) (solid : c ≠ '\x7b') :
    ∃ t, f.written = t ++ [c] ∧ t.getLast? = s.getLast? := by
  cases f with
  | text v =>
    have escaped : escapeText v.toList = escapeText s ++ [c] := by
      rw [← escapeText_concat solid, ← h]
      rfl
    exact ⟨escapeText s, escaped, getLast?_escapeText s⟩
  | tag v => exact ⟨s, h, rfl⟩

/-- No expression is opened inside a text or a tag. -/
theorem Inert.backslash {f : Fragment} (h : f.Inert) {before after : List Char} {sigil : Char}
    (isSig : isSigil sigil = true) (inside : f.written = before ++ sigil :: '\x7b' :: after) :
    before.getLast? = some '\\' := by
  cases f with
  | text s => exact backslash_of_escapeText isSig inside
  | tag s =>
    by_contra free
    have same : s.toList = before ++ [sigil] ++ '\x7b' :: after := by
      rw [List.append_assoc]
      exact inside
    exact h ⟨_, _, same, _, _, rfl, isSig, free⟩

end Fragment

/-- The template's part of a tag file. -/
def contents (fs : List Fragment) : List Char := (fs.map Fragment.content).flatten

def writtenAll (fs : List Fragment) : List Char := (fs.map Fragment.written).flatten

/-- Between two fragments, the contents before end in a sigil and those after start with a brace. -/
def SigilMeetsBrace (fs : List Fragment) : Prop :=
  ∃ before after, fs = before ++ after ∧ EndsInSigil (contents before) ∧
    (contents after).head? = some '\x7b'

theorem head?_writtenAll (fs : List Fragment) :
    (writtenAll fs).head? = some '\x7b' ↔ (contents fs).head? = some '\x7b' := by
  unfold writtenAll contents
  induction fs with
  | nil => rfl
  | cons f fs ih =>
    rw [List.map_cons, List.map_cons, List.flatten_cons, List.flatten_cons]
    by_cases empty : f.content = []
    · rw [f.written_eq_nil.mpr empty, empty]
      exact ih
    · have nonempty := mt f.written_eq_nil.mp empty
      rw [List.head?_append_of_ne_nil _ nonempty, List.head?_append_of_ne_nil _ empty]
      exact f.head?_written

theorem getLast?_writtenAll (fs : List Fragment) :
    (writtenAll fs).getLast? = (contents fs).getLast? := by
  unfold writtenAll contents
  induction fs with
  | nil => rfl
  | cons f fs ih =>
    rw [List.map_cons, List.map_cons, List.flatten_cons, List.flatten_cons, List.getLast?_append,
      List.getLast?_append, ih, f.getLast?_written]

theorem endsInSigil_append {s t : List Char} : EndsInSigil (s ++ t) ↔
    (t = [] ∧ EndsInSigil s) ∨ ∃ u sigil, t = u ++ [sigil] ∧ isSigil sigil = true ∧
      (s ++ u).getLast? ≠ some '\\' := by
  unfold EndsInSigil
  rcases List.eq_nil_or_concat t with rfl | ⟨u, c, rfl⟩
  · simp
  · rw [List.concat_eq_append, ← List.append_assoc]
    constructor
    · rintro ⟨before, sigil, same, isSig, free⟩
      obtain ⟨rfl, ⟨⟩⟩ := List.append_inj' same rfl
      exact .inr ⟨u, c, rfl, isSig, free⟩
    · rintro (⟨empty, -⟩ | ⟨v, sigil, same, isSig, free⟩)
      · simp at empty
      · obtain ⟨rfl, ⟨⟩⟩ := List.append_inj' same rfl
        exact ⟨s ++ u, c, rfl, isSig, free⟩

theorem not_endsInSigil_of_getLast? {s : List Char} {c : Char} (last : s.getLast? = some c)
    (other : isSigil c = false) : ¬ EndsInSigil s := by
  rintro ⟨before, sigil, rfl, isSig, -⟩
  rw [List.getLast?_concat] at last
  cases last
  rw [isSig] at other
  cases other

theorem HasLiveOpener.of_append_left {s t : List Char} (plain : '\x7b' ∉ t)
    (h : HasLiveOpener (s ++ t)) : HasLiveOpener s := by
  obtain ⟨before, after, split, ends⟩ := h
  rcases List.append_eq_append_iff.mp split with ⟨u, -, rest⟩ | ⟨u, rfl, rest⟩
  · exact absurd (by simp [rest]) plain
  · cases u with
    | nil =>
      obtain rfl : '\x7b' :: after = t := rest
      exact absurd (List.mem_cons_self ..) plain
    | cons c u =>
      obtain ⟨rfl, -⟩ := List.cons.inj rest
      exact ⟨before, u, rfl, ends⟩

theorem HasLiveOpener.of_append_right {s t : List Char} (plain : '\x7b' ∉ s)
    (closed : ¬ EndsInSigil s) (h : HasLiveOpener (s ++ t)) : HasLiveOpener t := by
  obtain ⟨before, after, split, ends⟩ := h
  rcases List.append_eq_append_iff.mp split with ⟨u, rfl, rest⟩ | ⟨u, rfl, rest⟩
  · rcases endsInSigil_append.mp ends with ⟨-, sooner⟩ | ⟨v, sigil, rfl, isSig, free⟩
    · exact absurd sooner closed
    · refine ⟨_, after, rest, v, sigil, rfl, isSig, fun backslash => free ?_⟩
      rw [List.getLast?_append, backslash]
      rfl
  · cases u with
    | nil => exact absurd (by simpa using ends) closed
    | cons c u =>
      obtain ⟨rfl, -⟩ := List.cons.inj rest
      exact absurd (by simp) plain

theorem writtenAll_append (fs gs : List Fragment) :
    writtenAll (fs ++ gs) = writtenAll fs ++ writtenAll gs := by
  unfold writtenAll
  rw [List.map_append, List.flatten_append]

theorem contents_append (fs gs : List Fragment) :
    contents (fs ++ gs) = contents fs ++ contents gs := by
  unfold contents
  rw [List.map_append, List.flatten_append]

theorem endsInSigil_writtenAll (fs : List Fragment) :
    EndsInSigil (writtenAll fs) ↔ EndsInSigil (contents fs) := by
  induction fs using List.reverseRecOn with
  | nil => rfl
  | append_singleton fs f ih =>
    have lone : writtenAll [f] = f.written ∧ contents [f] = f.content := by
      simp [writtenAll, contents]
    have last : ∀ {t u : List Char}, t.getLast? = u.getLast? →
        (writtenAll fs ++ t).getLast? = (contents fs ++ u).getLast? := by
      intro t u same
      rw [List.getLast?_append, List.getLast?_append, same, getLast?_writtenAll]
    rw [writtenAll_append, contents_append, lone.1, lone.2, endsInSigil_append, endsInSigil_append,
      f.written_eq_nil, ih]
    refine or_congr_right ⟨?_, ?_⟩
    · rintro ⟨u, sigil, ends, isSig, free⟩
      have solid : sigil ≠ '\x7b' := by
        rintro rfl
        cases isSig
      have lastContent : f.content.getLast? = some sigil := by
        rw [← f.getLast?_written, ends, List.getLast?_concat]
      obtain ⟨v, hv⟩ := List.getLast?_eq_some_iff.mp lastContent
      obtain ⟨t, ht, same⟩ := f.written_concat hv solid
      obtain rfl : t = u := (List.append_inj' (ht.symm.trans ends) rfl).1
      exact ⟨v, sigil, hv, isSig, last same ▸ free⟩
    · rintro ⟨v, sigil, ends, isSig, free⟩
      have solid : sigil ≠ '\x7b' := by
        rintro rfl
        cases isSig
      obtain ⟨t, ht, same⟩ := f.written_concat ends solid
      exact ⟨t, sigil, ht, isSig, (last same).symm ▸ free⟩

/-- What is written has a live opener exactly where a sigil and a brace meet between two
fragments. -/
theorem hasLiveOpener_iff {fs : List Fragment} (inert : ∀ f ∈ fs, f.Inert) :
    HasLiveOpener (writtenAll fs) ↔ SigilMeetsBrace fs := by
  constructor
  · rintro ⟨before, after, split, ends⟩
    rcases List.flatten_eq_append_iff.mp split with
      ⟨xs, ys, parts, rfl, rest⟩ | ⟨xs, u, c, v, ys, parts, rfl, rest⟩
    · obtain ⟨fs, gs, rfl, rfl, rfl⟩ := List.map_eq_append_iff.mp parts
      refine ⟨fs, gs, rfl, (endsInSigil_writtenAll fs).mp ends, (head?_writtenAll gs).mp ?_⟩
      rw [writtenAll, ← rest]
      rfl
    · obtain ⟨rfl, -⟩ := List.cons.inj rest
      obtain ⟨fs, gs, rfl, rfl, later⟩ := List.map_eq_append_iff.mp parts
      obtain ⟨f, gs, rfl, inside, rfl⟩ := List.map_eq_cons_iff.mp later
      rcases endsInSigil_append.mp ends with ⟨rfl, sooner⟩ | ⟨u, sigil, rfl, isSig, free⟩
      · refine ⟨fs, f :: gs, rfl, (endsInSigil_writtenAll fs).mp sooner,
          (head?_writtenAll _).mp ?_⟩
        rw [writtenAll, List.map_cons, List.flatten_cons, inside]
        rfl
      · rw [List.append_assoc] at inside
        have backslash := (inert f (by simp)).backslash isSig inside
        refine absurd ?_ free
        rw [List.getLast?_append, backslash]
        rfl
  · rintro ⟨fs, gs, rfl, ends, brace⟩
    obtain ⟨after, rest⟩ := List.head?_eq_some_iff.mp ((head?_writtenAll gs).mpr brace)
    refine ⟨writtenAll fs, after, ?_, (endsInSigil_writtenAll fs).mpr ends⟩
    rw [writtenAll_append, rest]

/-! ### Trees of text -/

/-- Trees of texts with the property `P`, of lists and of macros that declare nothing and have no
documentation. If `calls` holds, then also of calls without arguments and of yields. -/
inductive IsTextTree (calls : Prop) (P : String → Prop) : Node → Prop
  | text {s : String} : P s → IsTextTree calls P (.text s)
  | list {ns : List Node} : (∀ n ∈ ns, IsTextTree calls P n) → IsTextTree calls P (.list ns)
  | macroDef {name : String} {body : List Node} : (∀ n ∈ body, IsTextTree calls P n) →
      IsTextTree calls P (.macroDef name (.parameters []) body none)
  | call {name : String} {block : List Node} : calls → Template.isName name = true →
      (∀ n ∈ block, IsTextTree calls P n) → IsTextTree calls P (.call name (.parameters []) block)
  | output {name : String} : calls → Template.isName name = true →
      IsTextTree calls P (.output [.call name (.parameters []) []])
  | yield : calls → IsTextTree calls P .yield

/-- The tags around what stands in the block of a call. -/
def tagFragments (o : TagOptions) (name : String) (block : List Node) (inside : List Fragment) :
    List Fragment :=
  let start := "<" ++ o.tagPrefix ++ ":" ++ name
  if block.isEmpty then [.tag (start ++ "/>")]
  else .tag (start ++ ">") :: (inside ++ [.tag ("</" ++ o.tagPrefix ++ ":" ++ name ++ ">")])

mutual

/-- The fragments of a tree of text, in their order. -/
def fragments (o : TagOptions) : Node → List Fragment
  | .text s => [.text s]
  | .list ns => fragmentsAll o ns
  | .macroDef _ _ body _ => fragmentsAll o body
  | .call name _ block => tagFragments o name block (fragmentsAll o block)
  | .output inner => fragmentsAll o inner
  | .yield => [.tag runBody]
  | _ => []

def fragmentsAll (o : TagOptions) : List Node → List Fragment
  | [] => []
  | n :: ns => fragments o n ++ fragmentsAll o ns

end

theorem fragments_output (o : TagOptions) (n : Node) :
    fragments o (.output [n]) = fragments o n := by
  have alone : fragmentsAll o [n] = fragments o n := List.append_nil _
  rw [fragments, alone]

section

variable {o : TagOptions} {calls : Prop} {P : String → Prop}

theorem statements_of_fragments {ns : List Node}
    (h : ∀ n ∈ ns, statement o n = .ok (String.ofList (writtenAll (fragments o n)))) :
    statements o ns = .ok (String.ofList (writtenAll (fragmentsAll o ns))) := by
  induction ns with
  | nil =>
    rw [statements, fragmentsAll]
    rfl
  | cons n ns ih =>
    obtain ⟨first, rest⟩ := List.forall_mem_cons.mp h
    rw [statements, fragmentsAll, first, ih rest, writtenAll_append, String.ofList_append]
    rfl

theorem ofList_written_tag (s : String) : String.ofList (writtenAll [.tag s]) = s := by
  simp [writtenAll, Fragment.written]

theorem call_of_fragments {name : String} {inner : List Node}
    (h : ∀ n ∈ inner, statement o n = .ok (String.ofList (writtenAll (fragments o n)))) :
    statement o (.call name (.parameters []) inner) =
      .ok (String.ofList (writtenAll (fragments o (.call name (.parameters []) inner)))) := by
  have attributes : tagAttributes 0 (Node.parameters []).parameterList = .ok "" := rfl
  rw [statement, fragments, tagFragments, attributes]
  cases inner with
  | nil =>
    rw [block]
    show Except.ok (customTag o name "" none) = .ok (String.ofList (writtenAll [.tag _]))
    rw [ofList_written_tag, customTag, String.append_empty]
  | cons n ns =>
    have inside := statements_of_fragments h
    rw [block_eq, inside]
    show Except.ok (customTag o name "" (some _)) =
      .ok (String.ofList (writtenAll ([.tag _] ++ (fragmentsAll o (n :: ns) ++ [.tag _]))))
    rw [writtenAll_append, writtenAll_append, String.ofList_append, String.ofList_append,
      ofList_written_tag, ofList_written_tag, customTag, String.append_empty]
    simp only [String.append_assoc]

theorem statement_of_isTextTree (bare : o.emitHeader = false) {n : Node}
    (h : IsTextTree calls P n) :
    statement o n = .ok (String.ofList (writtenAll (fragments o n))) := by
  induction h with
  | @text s hs =>
    rw [statement, fragments, text]
    simp [writtenAll, Fragment.written]
  | list _ ih =>
    rw [statement, fragments]
    exact statements_of_fragments ih
  | macroDef _ ih =>
    have start : head o (Node.parameters []).parameterList none = .ok "" := by
      rw [head, Node.parameterList, attributes, bare]
      rfl
    rw [statement, fragments, start, statements_of_fragments ih]
    show Except.ok ("" ++ _) = _
    rw [String.empty_append]
  | call _ _ _ ih => exact call_of_fragments ih
  | @output name _ _ =>
    have alone : statement o (.call name (.parameters []) []) = _ := call_of_fragments (by simp)
    rw [statement_output_call, alone, fragments_output]
  | yield _ =>
    rw [statement, fragments, ofList_written_tag]

/-- The tags of a tree of text. -/
inductive IsTag (o : TagOptions) : String → Prop
  | custom {start ending name : String} : start = "<" ∨ start = "</" →
      ending = ">" ∨ ending = "/>" → Template.isName name = true →
      IsTag o (start ++ o.tagPrefix ++ ":" ++ name ++ ending)
  | runBody : IsTag o runBody

/-- A fragment of a tree of text. -/
inductive IsFragment (o : TagOptions) (calls : Prop) (P : String → Prop) : Fragment → Prop
  | text {s : String} : P s → IsFragment o calls P (.text s)
  | tag {s : String} : calls → IsTag o s → IsFragment o calls P (.tag s)

theorem isFragment_of_fragmentsAll {ns : List Node}
    (h : ∀ n ∈ ns, ∀ f ∈ fragments o n, IsFragment o calls P f) :
    ∀ f ∈ fragmentsAll o ns, IsFragment o calls P f := by
  induction ns with
  | nil => simp [fragmentsAll]
  | cons n ns ih =>
    obtain ⟨first, rest⟩ := List.forall_mem_cons.mp h
    rw [fragmentsAll]
    exact List.forall_mem_append.mpr ⟨first, ih rest⟩

theorem isFragment_of_tagFragments {name : String} {block : List Node} {inside : List Fragment}
    (called : calls) (hn : Template.isName name = true)
    (h : ∀ f ∈ inside, IsFragment o calls P f) :
    ∀ f ∈ tagFragments o name block inside, IsFragment o calls P f := by
  unfold tagFragments
  cases block.isEmpty with
  | true => exact List.forall_mem_singleton.mpr (.tag called (.custom (.inl rfl) (.inr rfl) hn))
  | false =>
    refine List.forall_mem_cons.mpr ⟨.tag called (.custom (.inl rfl) (.inl rfl) hn), ?_⟩
    refine List.forall_mem_append.mpr ⟨h, ?_⟩
    exact List.forall_mem_singleton.mpr (.tag called (.custom (.inr rfl) (.inl rfl) hn))

theorem IsTextTree.isFragment {n : Node} (h : IsTextTree calls P n) :
    ∀ f ∈ fragments o n, IsFragment o calls P f := by
  induction h with
  | text hs =>
    rw [fragments]
    exact List.forall_mem_singleton.mpr (.text hs)
  | list _ ih | macroDef _ ih =>
    rw [fragments]
    exact isFragment_of_fragmentsAll ih
  | call called hn _ ih =>
    rw [fragments]
    exact isFragment_of_tagFragments called hn (isFragment_of_fragmentsAll ih)
  | output called hn =>
    rw [fragments_output, fragments]
    exact isFragment_of_tagFragments called hn (by simp [fragmentsAll])
  | yield called =>
    rw [fragments]
    exact List.forall_mem_singleton.mpr (.tag called .runBody)

/-- Only the name space can bring a live opener into a tag. -/
theorem IsTag.not_live (free : ¬ HasLiveOpener o.tagPrefix.toList) {s : String} (h : IsTag o s) :
    ¬ HasLiveOpener s.toList := by
  intro live
  cases h with
  | @custom start ending name hs he hn =>
    have named : '\x7b' ∉ name.toList := fun brace =>
      absurd (Template.all_isNameChar_of_isName hn _ brace) (by decide)
    have ended : '\x7b' ∉ ending.toList := by
      rcases he with rfl | rfl <;> decide
    have started : '\x7b' ∉ start.toList ∧ ¬ EndsInSigil start.toList := by
      rcases hs with rfl | rfl <;> exact ⟨by decide, not_endsInSigil_of_getLast? rfl rfl⟩
    rw [String.toList_append, String.toList_append, String.toList_append, String.toList_append,
      List.append_assoc, List.append_assoc] at live
    have inPrefix := live.of_append_left (by simp [named, ended])
    exact free (inPrefix.of_append_right started.1 started.2)
  | runBody =>
    obtain ⟨before, after, split, -⟩ := live
    have brace : '\x7b' ∈ TagFile.runBody.toList := by simp [split]
    exact absurd brace (by decide)

theorem IsTag.head? {s : String} (h : IsTag o s) : s.toList.head? = some '<' := by
  cases h with
  | custom hs => rcases hs with rfl | rfl <;> simp
  | runBody => rfl

theorem IsTextTree.inert (free : calls → ¬ HasLiveOpener o.tagPrefix.toList) {n : Node}
    (h : IsTextTree calls P n) : ∀ f ∈ fragments o n, f.Inert := by
  intro f hf
  cases h.isFragment f hf with
  | text => trivial
  | tag called tag => exact tag.not_live (free called)

/-- Nothing comes to life if no text starts with a brace. -/
theorem IsTextTree.not_sigilMeetsBrace (solid : ∀ s, P s → s.toList.head? ≠ some '\x7b') {n : Node}
    (h : IsTextTree calls P n) : ¬ SigilMeetsBrace (fragments o n) := by
  rintro ⟨before, after, parts, -, brace⟩
  have starts : ∀ f ∈ after, f.content.head? ≠ some '\x7b' := by
    intro f hf
    cases h.isFragment f (parts ▸ List.mem_append_right before hf) with
    | text hs => exact solid _ hs
    | tag _ tag =>
      rw [Fragment.content, tag.head?]
      decide
  clear parts
  induction after with
  | nil => cases brace
  | cons f fs ih =>
    obtain ⟨first, rest⟩ := List.forall_mem_cons.mp starts
    rw [contents, List.map_cons, List.flatten_cons, List.head?_append] at brace
    rcases Option.or_eq_some_iff.mp brace with here | ⟨-, later⟩
    · exact first here
    · exact ih later rest

/-- The tag file of a tree of text has a live opener exactly where two fragments make one. -/
theorem IsTextTree.render (bare : o.emitHeader = false)
    (free : calls → ¬ HasLiveOpener o.tagPrefix.toList) {n : Node} (h : IsTextTree calls P n) :
    ∃ out, TagFile.render o n = .ok out ∧
      (HasLiveOpener out.toList ↔ SigilMeetsBrace (fragments o n)) := by
  refine ⟨_, statement_of_isTextTree bare h, ?_⟩
  rw [String.toList_ofList]
  exact hasLiveOpener_iff (h.inert free)

end

end TagFile

/-! ### Inlining -/

namespace Inlining

open TagFile Meaning

variable {P : String → Prop}

/-- The macros of the library declare nothing, and their bodies are made of text and calls. -/
def HasTextBodies (P : String → Prop) (lib : Library) : Prop :=
  ∀ d ∈ lib, d.parameters = .parameters [] ∧ ∀ n ∈ d.body, IsTextTree True P n

theorem HasTextBodies.without {lib : Library} (h : HasTextBodies P lib) (name : String) :
    HasTextBodies P (lib.without name) := by
  intro d hd
  exact h d (List.mem_filter.mp hd).1

theorem isTextTree_substitute {calls : Prop} {d : Definition} {block : List Node}
    (filled : ∀ n ∈ block, IsTextTree calls P n) {n : Node} (h : IsTextTree calls P n) :
    IsTextTree calls P (substitute d block n) := by
  have mapped : ∀ {ns : List Node}, (∀ n ∈ ns, IsTextTree calls P (substitute d block n)) →
      ∀ n ∈ ns.map (substitute d block), IsTextTree calls P n := List.forall_mem_map.mpr
  induction h with
  | text hs => exact .text hs
  | @list ns _ ih =>
    have same : substitute d block (.list ns) = .list (ns.map (substitute d block)) :=
      congrArg Node.list (Host.runBody_substitution (freshNames d) block ns)
    rw [same]
    exact .list (mapped ih)
  | @macroDef name body _ ih =>
    have same : substitute d block (.macroDef name (.parameters []) body none) =
        .macroDef name (.parameters []) (body.map (substitute d block)) none :=
      (Host.expansion d block).adapt_macroDef name [] body none
    rw [same]
    exact .macroDef (mapped ih)
  | @call name inner called hn _ ih =>
    have same : substitute d block (.call name (.parameters []) inner) =
        .call name (.parameters []) (inner.map (substitute d block)) :=
      (Host.expansion d block).adapt_call name [] inner
    rw [same]
    exact .call called hn (mapped ih)
  | output called hn => exact .output called hn
  | yield => exact .list filled

/-- Inlining the statement succeeds and leaves text and calls. -/
def StaysText (P : String → Prop) (lib : Library) (n : Node) : Prop :=
  ∃ m, statement lib n = .ok m ∧ IsTextTree True P m

theorem body_staysText {lib : Library} {ns : List Node} (h : ∀ n ∈ ns, StaysText P lib n) :
    ∃ ms, body lib ns = .ok ms ∧ ∀ m ∈ ms, IsTextTree True P m := by
  induction ns with
  | nil => exact ⟨[], by rw [body], by simp⟩
  | cons n ns ih =>
    obtain ⟨⟨m, inlined, hm⟩, others⟩ := List.forall_mem_cons.mp h
    obtain ⟨ms, rest, hms⟩ := ih others
    refine ⟨m :: ms, ?_, List.forall_mem_cons.mpr ⟨hm, hms⟩⟩
    rw [body, inlined, rest]
    rfl

theorem node_no_parameters (lib : Library) :
    node lib (.parameters []) = .ok (.parameters []) := by
  rw [node, all]
  rfl

theorem call_staysText {lib : Library} {name : String} {block : List Node}
    (hn : Template.isName name = true) (inside : ∀ n ∈ block, StaysText P lib n) :
    ∃ ms, node lib (.call name (.parameters []) block) = .ok (.call name (.parameters []) ms) ∧
      IsTextTree True P (.call name (.parameters []) ms) := by
  obtain ⟨ms, inlined, hms⟩ := body_staysText inside
  refine ⟨ms, ?_, .call trivial hn hms⟩
  rw [node, node_no_parameters, inlined]
  rfl

/-- An expanded call is the text of the macro, with the text of the block in its place. -/
theorem expansion_staysText {lib : Library} (known : HasTextBodies P lib) {name : String}
    {d : Definition} (found : lib.find? name = some d) {block : List Node}
    (inside : ∀ n ∈ block, StaysText P lib n)
    (later : ∀ n, IsTextTree True P n → StaysText P (lib.without name) n) :
    ∃ m, expand lib ⟨d, lib.without name, Library.length_without_lt found⟩ (.parameters []) block =
      .ok m ∧ IsTextTree True P m := by
  obtain ⟨noParameters, texts⟩ := known d (List.mem_of_find?_eq_some found)
  have declared : d.declared = [] := by rw [Definition.declared, noParameters, Node.parameterList]
  obtain ⟨content, inner, filled⟩ := body_staysText inside
  have substituted : ∀ n ∈ d.body.map (substitute d content), StaysText P (lib.without name) n := by
    refine List.forall_mem_map.mpr fun n hn => later _ ?_
    exact isTextTree_substitute filled (texts n hn)
  obtain ⟨statements, outer, hs⟩ := body_staysText substituted
  have unchanged : block.map Host.page.adapt = block := by rw [Host.page_adapt, List.map_id]
  have expanded : expand lib ⟨d, lib.without name, Library.length_without_lt found⟩
      (.parameters ([].map Host.page.adapt)) (block.map Host.page.adapt) =
        .ok (.list (settings .page (.expansion d content) d [] 0 d.declared ++ statements)) :=
    expand_eq found (by simp) (by simp) (by simp [declared]) (unchanged.symm ▸ inner) outer
  rw [unchanged, declared] at expanded
  exact ⟨.list statements, expanded, .list hs⟩

theorem node_output_call (lib : Library) (name : String) :
    node lib (.output [.call name (.parameters []) []]) =
      .ok (.output [.call name (.parameters []) []]) := by
  have kept : node lib (.call name (.parameters []) []) = .ok (.call name (.parameters []) []) := by
    rw [node, node_no_parameters, body]
    rfl
  rw [node, all, kept, all]
  rfl

/-- An expansion goes on with a shorter library, a definition with one that is no longer. So the
outer induction is on a bound for the length, the inner one on the tree. -/
theorem statement_staysText {bound : Nat} {lib : Library} (short : lib.length ≤ bound)
    (known : HasTextBodies P lib) {n : Node} (h : IsTextTree True P n) : StaysText P lib n := by
  induction bound using Nat.strongRecOn generalizing lib n with
  | ind bound shorter =>
    have later : ∀ {lib : Library} {name : String} {d : Definition}, lib.length ≤ bound →
        HasTextBodies P lib → lib.find? name = some d →
        ∀ n, IsTextTree True P n → StaysText P (lib.without name) n := by
      intro lib name d short known found n hn
      have less := Library.length_without_lt found
      exact shorter _ (by omega) (Nat.le_refl _) (known.without name) hn
    induction h generalizing lib with
    | text hs =>
      refine ⟨_, ?_, .text hs⟩
      rw [statement_eq_node rfl, node.eq_def]
    | list _ ih =>
      obtain ⟨ms, inlined, hms⟩ := body_staysText fun n hn => ih n hn short known
      refine ⟨.list ms, ?_, .list hms⟩
      rw [statement_eq_node rfl, node, inlined]
      rfl
    | @macroDef name inner _ ih =>
      have fits := Nat.le_trans (lib.length_without_le name) short
      obtain ⟨ms, inlined, hms⟩ := body_staysText fun n hn => ih n hn fits (known.without name)
      refine ⟨.macroDef name (.parameters []) ms none, ?_, .macroDef hms⟩
      rw [statement_eq_node rfl, node, node_no_parameters, inlined]
      rfl
    | @call name block _ hn _ ih =>
      have inside : ∀ n ∈ block, StaysText P lib n := fun n hn => ih n hn short known
      cases found : lib.find? name with
      | some d =>
        obtain ⟨m, expanded, hm⟩ := expansion_staysText known found inside (later short known found)
        refine ⟨m, ?_, hm⟩
        rw [statement, extract?_of_find? found]
        exact expanded
      | none =>
        obtain ⟨ms, inlined, hms⟩ := call_staysText hn inside
        refine ⟨_, ?_, hms⟩
        rw [statement, extract?_of_absent found]
        exact inlined
    | @output name _ hn =>
      cases found : lib.find? name with
      | some d =>
        have inside : ∀ n ∈ ([] : List Node), StaysText P lib n := by simp
        obtain ⟨m, expanded, hm⟩ := expansion_staysText known found inside (later short known found)
        refine ⟨m, ?_, hm⟩
        rw [statement, extract?_of_find? found]
        exact expanded
      | none =>
        refine ⟨_, ?_, .output trivial hn⟩
        rw [statement, extract?_of_absent found]
        exact node_output_call lib name
    | yield _ =>
      refine ⟨_, ?_, .yield trivial⟩
      rw [statement_eq_node rfl, node.eq_def]

theorem nodes_of_isTextTree {calls : Prop} {t : Node} (h : IsTextTree calls P t) :
    ∀ k ∈ t.preorder, IsTextTree calls P k ∨ k = .parameters [] := by
  have noParameters : ∀ k ∈ (Node.parameters []).preorder,
      IsTextTree calls P k ∨ k = .parameters [] := by
    simp [Node.preorder, Node.preorderAll]
  have noBlock : ∀ {name : String}, calls → Template.isName name = true →
      IsTextTree calls P (.call name (.parameters []) []) := by
    intro name called hn
    exact .call called hn (by simp)
  induction h with
  | text hs =>
    exact Node.forall_preorder_iff.mpr ⟨.inl (.text hs), by simp [Node.subtrees, Node.children]⟩
  | yield called =>
    refine Node.forall_preorder_iff.mpr ⟨.inl (.yield called), ?_⟩
    simp [Node.subtrees, Node.children]
  | list h ih => exact Node.forall_preorder_iff.mpr ⟨.inl (.list h), ih⟩
  | macroDef h ih =>
    exact Node.forall_preorder_iff.mpr
      ⟨.inl (.macroDef h), List.forall_mem_cons.mpr ⟨noParameters, ih⟩⟩
  | call called hn h ih =>
    exact Node.forall_preorder_iff.mpr
      ⟨.inl (.call called hn h), List.forall_mem_cons.mpr ⟨noParameters, ih⟩⟩
  | output called hn =>
    refine Node.forall_preorder_iff.mpr ⟨.inl (.output called hn), ?_⟩
    refine List.forall_mem_singleton.mpr (Node.forall_preorder_iff.mpr ?_)
    exact ⟨.inl (noBlock called hn), List.forall_mem_singleton.mpr noParameters⟩

theorem hasTextBodies_ofTree {t : Node} (h : IsTextTree True P t) :
    HasTextBodies P (Library.ofTree t) := by
  intro d hd
  obtain ⟨k, hk, definition⟩ := List.mem_filterMap.mp hd
  rcases nodes_of_isTextTree h k hk with text | rfl
  · cases text with
    | macroDef inside =>
      cases definition
      exact ⟨rfl, inside⟩
    | _ => cases definition
  · cases definition

/-- Inlining a tree of text and calls succeeds, and what it leaves has no new text. -/
theorem inline_staysText {t : Node} (h : IsTextTree True P t) :
    ∃ n, t.inline (Library.ofTree t) = .ok n ∧ IsTextTree True P n := by
  have known := hasTextBodies_ofTree h
  have inlined : ∀ n, IsTextTree True P n → StaysText P (Library.ofTree t) n :=
    fun n hn => statement_staysText (Nat.le_refl _) known hn
  rw [Node.inline]
  by_cases alone : isCall t = true
  · cases h with
    | call _ hn inside =>
      obtain ⟨ms, result, hms⟩ := call_staysText hn fun n hn => inlined n (inside n hn)
      exact ⟨_, result, hms⟩
    | output _ hn => exact ⟨_, node_output_call _ _, .output trivial hn⟩
    | _ => cases alone
  · obtain ⟨n, result, hn⟩ := inlined t h
    rw [statement_eq_node (Bool.not_eq_true _ ▸ alone)] at result
    exact ⟨n, result, hn⟩

end Inlining

namespace TagFile

/-- Text comes to life exactly where a text that ends in a sigil is followed by one that starts with
a brace, in trees of text and in what inlining leaves of text, macros and calls. So it never does
if no text starts with a brace. -/
theorem text_live_iff_sigilMeetsBrace {o : TagOptions} (bare : o.emitHeader = false)
    (P : String → Prop) (t : Node) :
    (IsTextTree False P t → ∃ out, render o t = .ok out ∧
      (HasLiveOpener out.toList ↔ SigilMeetsBrace (fragments o t)) ∧
      ((∀ s, P s → s.toList.head? ≠ some '\x7b') → ¬ HasLiveOpener out.toList)) ∧
    (IsTextTree True P t → ¬ HasLiveOpener o.tagPrefix.toList → ∃ n out,
      (∀ external m, (Pass.run none t (.inline external)).run m = (.ok n, m)) ∧
      IsTextTree True P n ∧ render o n = .ok out ∧
      (HasLiveOpener out.toList ↔ SigilMeetsBrace (fragments o n)) ∧
      ((∀ s, P s → s.toList.head? ≠ some '\x7b') → ¬ HasLiveOpener out.toList)) := by
  constructor
  · intro h
    obtain ⟨out, written, live⟩ := h.render bare False.elim
    refine ⟨out, written, live, fun solid => ?_⟩
    rw [live]
    exact h.not_sigilMeetsBrace solid
  · intro h free
    obtain ⟨n, inlined, hn⟩ := Inlining.inline_staysText h
    obtain ⟨out, written, live⟩ := hn.render bare fun _ => free
    refine ⟨n, out, fun external m => ?_, hn, written, live, fun solid => ?_⟩
    · have pass : Pass.run none t (.inline external) =
          Run.ofExcept .surplus (t.inline (Library.ofTree t)) := rfl
      rw [pass, inlined]
      rfl
    · rw [live]
      exact hn.not_sigilMeetsBrace solid

/-- A list brings its text next to the sigil before it, and a block to the sigil of the macro. -/
theorem block_text_live :
    (∃ out, render ⟨"ui", "/WEB-INF/tags", "scriptless", false⟩
      (.list [.text "$", .list [.text "\x7bx\x7d"]]) = .ok out ∧ HasLiveOpener out.toList) ∧
    ∃ n out,
      (Pass.run none (.list [.macroDef "m" (.parameters []) [.text "#", .yield] none,
        .call "m" (.parameters []) [.text "\x7bx\x7d"]]) (.inline false)).run .empty =
          (.ok n, .empty) ∧
      render ⟨"ui", "/WEB-INF/tags", "scriptless", false⟩ n = .ok out ∧
      HasLiveOpener out.toList := by
  have law := fun t => text_live_iff_sigilMeetsBrace
    (o := ⟨"ui", "/WEB-INF/tags", "scriptless", false⟩) rfl (fun _ => True) t
  constructor
  · obtain ⟨out, written, live, -⟩ := (law (.list [.text "$", .list [.text "\x7bx\x7d"]])).1
      (.list (List.forall_mem_cons.mpr ⟨.text trivial, List.forall_mem_singleton.mpr
        (.list (List.forall_mem_singleton.mpr (.text trivial)))⟩))
    refine ⟨out, written, live.mpr ⟨[.text "$"], [.text "\x7bx\x7d"], ?_, ?_, rfl⟩⟩
    · simp [fragments, fragmentsAll]
    · exact ⟨[], '$', rfl, rfl, by decide⟩
  · have page : IsTextTree True (fun _ => True)
        (.list [.macroDef "m" (.parameters []) [.text "#", .yield] none,
          .call "m" (.parameters []) [.text "\x7bx\x7d"]]) := by
      refine .list (List.forall_mem_cons.mpr ⟨.macroDef ?_, List.forall_mem_singleton.mpr ?_⟩)
      · refine List.forall_mem_cons.mpr ⟨.text trivial, ?_⟩
        exact List.forall_mem_singleton.mpr (.yield trivial)
      · exact .call trivial rfl (List.forall_mem_singleton.mpr (.text trivial))
    have closed : ¬ HasLiveOpener "ui".toList := by
      rintro ⟨before, after, split, -⟩
      have brace : '\x7b' ∈ "ui".toList := by simp [split]
      exact absurd brace (by decide)
    obtain ⟨n, out, inlined, -, written, live, -⟩ := (law _).2 page closed
    refine ⟨n, out, inlined false .empty, written, live.mpr ?_⟩
    have result : (Pass.run none (.list [.macroDef "m" (.parameters []) [.text "#", .yield] none,
        .call "m" (.parameters []) [.text "\x7bx\x7d"]]) (.inline false)).run .empty =
        (.ok (.list [.macroDef "m" (.parameters []) [.text "#", .yield] none,
          .list [.text "#", .list [.text "\x7bx\x7d"]]]), .empty) := by cbv
    obtain rfl := Except.ok.inj (congrArg Prod.fst (result.symm.trans (inlined false .empty)))
    refine ⟨[.text "#", .tag runBody, .text "#"], [.text "\x7bx\x7d"], ?_, ?_, rfl⟩
    · simp [fragments, fragmentsAll]
    · exact ⟨['#'] ++ runBody.toList, '#', by decide, rfl, by decide⟩

/-- The text in front of a macro ends in a dollar sign and that of the macro starts with a brace. -/
theorem macro_text_live :
    Template.parse "a$\x7b% macro m() %\x7d\x7bb\x7d\x7b% endmacro %\x7d" =
      .ok (.list [.text "a$", .macroDef "m" (.parameters []) [.text "\x7bb\x7d"] none]) ∧
    IsTextTree False (fun _ => True)
      (.list [.text "a$", .macroDef "m" (.parameters []) [.text "\x7bb\x7d"] none]) ∧
    render ⟨"ui", "/WEB-INF/tags", "scriptless", false⟩
      (.list [.text "a$", .macroDef "m" (.parameters []) [.text "\x7bb\x7d"] none]) =
        .ok "a$\x7bb\x7d" ∧
    HasLiveOpener "a$\x7bb\x7d".toList := by
  refine ⟨?_, ?_, by cbv, ?_⟩
  · rw [Template.parse_eq]
    cbv
  · refine .list (List.forall_mem_cons.mpr ⟨.text trivial, List.forall_mem_singleton.mpr ?_⟩)
    exact .macroDef (List.forall_mem_singleton.mpr (.text trivial))
  · exact ⟨['a', '$'], ['b', '\x7d'], rfl, ['a'], '$', rfl, rfl, by decide⟩

end TagFile
end TagCompiler
