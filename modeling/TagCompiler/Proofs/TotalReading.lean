import TagCompiler.Proofs.ReadingProcedure
import TagCompiler.Proofs.ErrorPlace
/-!
# Reading comes to an end

Every question that is asked while a template is read is about a later place of the input than the
question that asks it, or about the same place at a lower level of the grammar. A loop asks itself,
so each of its rounds starts at a later place. For that most readers have to use up something. Text
may be empty: an element of a body makes progress because text is only read where no tag starts,
and at the top level because doc comments are looked for before.
-/

namespace TagCompiler.Template

open Text

/-! ### Later places -/

/-- A later place of the same input. -/
def Past (r s : List Char) : Prop := r <:+ s ∧ r.length < s.length

namespace Past

variable {r s t : List Char}

theorem trans (first : Past t r) (second : Past r s) : Past t s :=
  ⟨first.1.trans second.1, Nat.lt_trans first.2 second.2⟩

theorem of_suffix (first : t <:+ r) (second : Past r s) : Past t s :=
  ⟨first.trans second.1, Nat.lt_of_le_of_lt first.length_le second.2⟩

theorem within (first : Past t r) (second : r <:+ s) : Past t s :=
  ⟨first.1.trans second, Nat.lt_of_lt_of_le first.2 second.length_le⟩

theorem tail (c : Char) (s : List Char) : Past s (c :: s) :=
  ⟨List.suffix_cons c s, Nat.lt_succ_self _⟩

/-- A suffix that is not the whole input. -/
theorem of_ne (suffix : r <:+ s) (other : r ≠ s) : Past r s := by
  refine ⟨suffix, Nat.lt_of_le_of_ne suffix.length_le fun same => other ?_⟩
  exact suffix.eq_of_length same

/-- What is left at a later place takes fewer bytes. -/
theorem byteLength_lt (h : Past r s) : byteLength r < byteLength s := by
  obtain ⟨⟨before, rfl⟩, shorter⟩ := h
  have total : byteLength (before ++ r) = byteLength before + byteLength r :=
    byteLength_append before r
  cases before with
  | nil => exact absurd shorter (Nat.lt_irrefl _)
  | cons c before =>
    have some_bytes : 0 < byteLength (c :: before) :=
      Nat.lt_of_lt_of_le c.utf8Size_pos (Nat.le_add_right _ _)
    omega

end Past

section
variable {α : Type} {P : α → Prop} {s : List Char} {a : α × List Char}

theorem past_of_reads {x : Except Failure (Reading 1 α s)} (reads : Reads s P (plain x))
    (found : plain x = .ok a) : Past a.2 s := by
  rw [found] at reads
  exact ⟨reads.1, length_of_plain found⟩

theorem past_of_read? {x : Option (Except Failure (Reading 1 α s))}
    {y : Except Failure (α × List Char)} (tried : x.map plain = some y) (reads : Reads s P y)
    (found : y = .ok a) : Past a.2 s := by
  obtain ⟨x, -, rfl⟩ := Option.map_eq_some_iff.mp tried
  exact past_of_reads reads found

theorem past_of_found {x : Option (Reading 1 α s)} (found : plain x = some a) (suffix : a.2 <:+ s) :
    Past a.2 s := ⟨suffix, length_of_plain_some found⟩

end

theorem past_of_spaced? {w : String} {s : List Char} {a : Unit × List Char}
    (h : plain (spaced? w s) = some a) : Past a.2 s := past_of_found h (suffix_of_spaced? h)

theorem past_of_spacedKeyword? {w : String} {s : List Char} {a : Unit × List Char}
    (h : plain (spacedKeyword? w s) = some a) : Past a.2 s := by
  refine past_of_found h ?_
  rw [plain_spacedKeyword?] at h
  exact (suffix_of_keyword? h).trans (skipBlanks_suffix s)

theorem past_of_demand {w : String} (nonempty : w ≠ "") {s : List Char} {a : Unit × List Char}
    (h : plain (demandSpaced w s) = .ok a) : Past a.2 s :=
  past_of_reads (demandSpaced_reads nonempty s) h

theorem past_of_name {s : List Char} {a : String × List Char} (h : plain (name s) = .ok a) :
    Past a.2 s := past_of_reads (name_reads s) h

theorem past_of_tagEnd {closer : String} (nonempty : closer ≠ "") {s : List Char}
    {a : Bool × List Char} (h : plain (tagEnd closer s) = .ok a) : Past a.2 s :=
  past_of_reads (tagEnd_reads nonempty s) h

/-! ### Levels of the grammar -/

namespace Question

/-- The input that the question is about. -/
def unread : Question → List Char
  | .template _ _ _ _ s | .body _ _ _ s | .element _ _ _ s | .text _ s | .output s | .statement _ s
  | .macroHead s | .callHead s | .loopHead s | .setStatement s | .ifStatement s | .forStatement s
  | .skipTag s | .declarations s | .condition s | .connectives s | .expression s | .operators s
  | .operand s | .filters _ s | .primary s | .reference s | .pathTail s | .arguments s
  | .argument s | .items s | .entries s | .dottedTail s | .quoted s | .quotedBody _ s => s

/-- The level of the grammar. Questions of level zero ask nothing about their own place. -/
def level : Question → Nat
  | .template .. | .body .. => 2
  | .arguments _ => 7
  | .argument _ | .items _ | .entries _ | .output _ | .ifStatement _ => 6
  | .condition _ => 5
  | .expression _ => 4
  | .operand _ => 3
  | .primary _ => 2
  | .element .. | .forStatement _ | .skipTag _ => 1
  | _ => 0

end Question

/-- About a later place, or about the same place at a lower level. -/
def Lower (p q : Question) : Prop :=
  Past p.unread q.unread ∨ p.unread = q.unread ∧ p.level < q.level

theorem wellFounded_lower : WellFounded Lower := by
  let measure (q : Question) : Nat × Nat := (q.unread.length, q.level)
  have lex : WellFounded (InvImage (Prod.Lex (· < ·) (· < ·)) measure) :=
    InvImage.wf measure (WellFounded.prod_lex Nat.lt_wfRel.wf Nat.lt_wfRel.wf)
  refine Subrelation.wf ?_ lex
  rintro p q (later | ⟨same, below⟩)
  · exact .left _ _ later.2
  · exact Prod.lex_def.mpr (.inr ⟨congrArg List.length same, below⟩)

/-- A place that may be the same, at a lower level. -/
theorem lower_of_suffix {p q : Question} (suffix : p.unread <:+ q.unread)
    (below : p.level < q.level) : Lower p q := by
  by_cases same : p.unread = q.unread
  · exact .inr ⟨same, below⟩
  · exact .inl (.of_ne suffix same)

/-! ### Progress -/

/-- What is known of an answer: how much of the input has been used up. -/
def Progress : (q : Question) → q.Answer → Prop
  | .template .., _ => True
  | .element top _ _ s, a =>
    a.2 <:+ s ∧ (s ≠ [] → (top && (docComment? s).isSome) = false → Past a.2 s)
  | .text top s, a => a.2 <:+ s ∧ (s ≠ [] → Reader.endsText top s = false → Past a.2 s)
  | .body _ _ _ s, a => Past a.2 s
  | .output s, a | .statement _ s, a => Past a.2 s
  | .macroHead s, a | .callHead s, a => Past a.2 s
  | .loopHead s, a => Past a.2 s
  | .setStatement s, a | .ifStatement s, a | .forStatement s, a => Past a.2 s
  | .skipTag s, a => a.2 <:+ s
  | .connectives s, a | .operators s, a => a.2 <:+ s
  | .filters _ s, a => a.2 <:+ s
  | .pathTail s, a | .dottedTail s, a => a.2 <:+ s
  | .declarations s, a | .arguments s, a | .items s, a | .entries s, a => Past a.2 s
  | .condition s, a | .expression s, a | .operand s, a | .primary s, a | .reference s, a
  | .argument s, a => Past a.2 s
  | .quoted s, a => Past a.2 s
  | .quotedBody _ s, a => ∀ p ∈ a, Past p.2 s

/-- The code asks only lower questions than `q`, and its value is as `post` says. -/
abbrev Goes {α : Type} (q : Question) (post : α → Prop) (c : Reader α) : Prop :=
  c.Proceeds Progress (fun p => Lower p q) post

namespace Goes

variable {α β : Type} {q : Question} {post : α → Prop}

theorem ask {p : Question} {g : p.Answer → Reader α} (asked : Lower p q)
    (next : ∀ a, Progress p a → Goes q post (g a)) : Goes q post (Reader.ask p >>= g) :=
  ⟨asked, next⟩

theorem lexeme {x : Except Failure β} {g : β → Reader α}
    (next : ∀ b, x = .ok b → Goes q post (g b)) : Goes q post (Reader.lexeme x >>= g) :=
  (Code.proceeds_ofExcept next).bind

theorem bind {c : Reader β} {mid : β → Prop} {g : β → Reader α} (first : Goes q mid c)
    (next : ∀ b, mid b → Goes q post (g b)) : Goes q post (c >>= g) :=
  (Code.Proceeds.mono first next).bind

theorem last {p : Question} {post : p.Answer → Prop} (asked : Lower p q)
    (h : ∀ a, Progress p a → post a) : Goes q post (Reader.ask p) := Code.proceeds_ask asked h

end Goes

namespace Reader

/-! ### Strings and names -/

theorem quotedBody_goes (quote : Char) (s : List Char) :
    Goes (.quotedBody quote s) (Progress (.quotedBody quote s)) (quotedBody quote s) := by
  have rest : ∀ (r : List Char) (v : Char), Past r s →
      Goes (.quotedBody quote s) (Progress (.quotedBody quote s)) (do
        let found ← ask (.quotedBody quote r)
        return found.map fun p => (v :: p.1, p.2)) := by
    intro r v later
    refine .ask (.inl later) ?_
    intro found progress p hp
    obtain ⟨p, found, rfl⟩ := Option.map_eq_some_iff.mp hp
    exact (progress p found).trans later
  unfold quotedBody
  cases s with
  | nil => exact fun p hp => by cases hp
  | cons c r =>
    dsimp only
    split
    · rintro p ⟨⟩
      exact .tail c r
    · split
      · cases r with
        | nil =>
          refine .last (.inl (.tail c [])) ?_
          intro found progress p hp
          exact (progress p hp).trans (.tail c [])
        | cons e r => exact rest r (unescape e) ((Past.tail e r).trans (.tail c _))
      · exact rest r c (.tail c r)

theorem quoted_goes (s : List Char) : Goes (.quoted s) (Progress (.quoted s)) (quoted s) := by
  unfold quoted
  cases s with
  | nil => trivial
  | cons q r =>
    refine .ask (.inl (.tail q r)) ?_
    rintro (_ | p) progress
    · trivial
    · exact (progress p rfl).trans (.tail q r)

theorem past_dropWhile {p : Char → Bool} {c : Char} (h : p c = true) (r : List Char) :
    Past ((c :: r).dropWhile p) (c :: r) := by
  refine ⟨List.dropWhile_suffix p, ?_⟩
  exact length_dropWhile_lt h r

theorem dotPart_goes {q : Question} {more : List Char → Reader (List String × List Char)} {c : Char}
    {r : List Char}
    (next : ∀ t, Past t ('.' :: c :: r) → Goes q (fun a => a.2 <:+ t) (more t)) :
    Goes q (fun a => a.2 <:+ '.' :: c :: r) (dotPart more c r) := by
  unfold dotPart
  split
  · rename_i h
    have later := (past_dropWhile h r).trans (.tail '.' _)
    refine (next _ later).bind ?_
    rintro ⟨parts, t⟩ ht
    exact (Past.of_suffix ht later).1
  · exact List.suffix_refl _

theorem dottedTail_goes (s : List Char) :
    Goes (.dottedTail s) (Progress (.dottedTail s)) (dottedTail s) := by
  unfold dottedTail
  split
  · exact dotPart_goes fun t later => .last (.inl later) fun a progress => progress
  · exact List.suffix_refl _

theorem index_goes {q : Question} {s : List Char} (later : Past s q.unread) :
    Goes q (fun a => Past a.2 s) (index s) := by
  unfold index
  split
  · exact .last (.inl later) fun a progress => progress
  · exact Code.proceeds_ofExcept fun a found => past_of_reads (index_reads s) found

theorem mapKey_goes {s : List Char} : Goes (.entries s) (fun a => Past a.2 s) (mapKey s) := by
  unfold mapKey
  split
  · refine .last (lower_of_suffix (skipBlanks_suffix s) (by simp [Question.level])) ?_
    intro a progress
    exact progress.within (skipBlanks_suffix s)
  · refine Code.proceeds_ofExcept fun a found => ?_
    exact (past_of_reads (nameHere_reads _) found).within (skipBlanks_suffix s)

theorem pathTail_goes (s : List Char) :
    Goes (.pathTail s) (Progress (.pathTail s)) (pathTail s) := by
  unfold pathTail
  split
  · exact dotPart_goes fun t later => .last (.inl later) fun a progress => progress
  · rename_i r
    have inside : Past (skipBlanks r) ('[' :: r) := .of_suffix (skipBlanks_suffix r) (.tail '[' r)
    refine Goes.bind (index_goes inside) ?_
    rintro ⟨part, t⟩ ht
    refine .lexeme ?_
    rintro ⟨_, u⟩ hu
    have later := (past_of_demand (by decide) hu).trans (ht.trans inside)
    refine .ask (.inl later) ?_
    rintro ⟨more, v⟩ progress
    exact (Past.of_suffix progress later).1
  · exact List.suffix_refl _

/-! ### Expressions -/

theorem chained_goes {q : Question} {wrap : List Node → Node} {first : Reader (Node × List Char)}
    {more : List Char → Reader (List Node × List Char)} {s : List Char}
    (start : Goes q (fun a => Past a.2 s) first)
    (next : ∀ r, Past r s → Goes q (fun a => a.2 <:+ r) (more r)) :
    Goes q (fun a => Past a.2 s) (chained wrap first more) := by
  refine start.bind ?_
  rintro ⟨n, r⟩ hr
  refine (next r hr).bind ?_
  rintro ⟨ns, t⟩ ht
  exact .of_suffix ht hr

theorem linked_goes {q : Question} {link? : Option (Node × List Char)}
    {next : List Char → Reader (Node × List Char)}
    {more : List Char → Reader (List Node × List Char)} {s : List Char}
    (found : ∀ p ∈ link?, Past p.2 s)
    (element : ∀ r, Past r s → Goes q (fun a => Past a.2 r) (next r))
    (rest : ∀ r, Past r s → Goes q (fun a => a.2 <:+ r) (more r)) :
    Goes q (fun a => a.2 <:+ s) (linked link? next more s) := by
  unfold linked
  split
  · exact skipBlanks_suffix s
  · rename_i link r
    have hr : Past r s := found _ rfl
    refine (element r hr).bind ?_
    rintro ⟨n, t⟩ ht
    refine (rest t (ht.trans hr)).bind ?_
    rintro ⟨ns, u⟩ hu
    exact (Past.of_suffix hu (ht.trans hr)).1

theorem condition_goes (s : List Char) :
    Goes (.condition s) (Progress (.condition s)) (condition s) := by
  refine chained_goes (.last (.inr ⟨rfl, by simp [Question.level]⟩) fun a progress => progress) ?_
  exact fun r later => .last (.inl later) fun a progress => progress

theorem connectives_goes (s : List Char) :
    Goes (.connectives s) (Progress (.connectives s)) (connectives s) := by
  refine linked_goes ?_ (fun r later => .last (.inl later) fun a progress => progress)
    fun r later => .last (.inl later) fun a progress => progress
  intro p hp
  obtain ⟨p, found, rfl⟩ := Option.map_eq_some_iff.mp hp
  have later : Past p.2 s := past_of_found found (connective?_finds found).1
  exact later

theorem expression_goes (s : List Char) :
    Goes (.expression s) (Progress (.expression s)) (expression s) := by
  refine chained_goes (.last (.inr ⟨rfl, by simp [Question.level]⟩) fun a progress => progress) ?_
  exact fun r later => .last (.inl later) fun a progress => progress

theorem operators_goes (s : List Char) :
    Goes (.operators s) (Progress (.operators s)) (operators s) := by
  refine linked_goes ?_ (fun r later => .last (.inl later) fun a progress => progress)
    fun r later => .last (.inl later) fun a progress => progress
  intro p hp
  obtain ⟨p, found, rfl⟩ := Option.map_eq_some_iff.mp hp
  have later : Past p.2 s := past_of_found found (operator?_finds found).1
  exact later

theorem operand_goes (s : List Char) : Goes (.operand s) (Progress (.operand s)) (operand s) := by
  unfold operand
  split
  · rename_i r found
    have hr : Past r s := past_of_found found (negation?_finds found)
    refine .ask (.inl hr) ?_
    rintro ⟨e, t⟩ ht
    exact ht.trans hr
  · refine .ask (lower_of_suffix (skipBlanks_suffix s) (by simp [Question.level])) ?_
    rintro ⟨e, r⟩ hr
    have later : Past r s := hr.within (skipBlanks_suffix s)
    exact .last (.inl later) fun a progress => .of_suffix progress later

theorem filters_goes (subject : Node) (s : List Char) :
    Goes (.filters subject s) (Progress (.filters subject s)) (filters subject s) := by
  unfold filters
  split
  · exact skipBlanks_suffix s
  · rename_i r found
    have hr : Past r s := past_of_found found (pipe?_finds found)
    refine .lexeme ?_
    rintro ⟨n, t⟩ ht
    have later := (past_of_name ht).trans hr
    dsimp only
    split
    · rename_i u opens
      have inside := (past_of_spaced? opens).trans later
      refine .ask (.inl inside) ?_
      rintro ⟨args, v⟩ hv
      have further := hv.trans inside
      exact .last (.inl further) fun a progress => (Past.of_suffix progress further).1
    · exact .last (.inl later) fun a progress => (Past.of_suffix progress later).1

theorem primary_goes (s : List Char) : Goes (.primary s) (Progress (.primary s)) (primary s) := by
  unfold primary
  cases s with
  | nil => trivial
  | cons c r =>
    have later : Past r (c :: r) := .tail c r
    dsimp only
    split
    · refine .ask (.inl later) ?_
      rintro ⟨e, t⟩ ht
      refine .lexeme ?_
      rintro ⟨_, u⟩ hu
      exact (past_of_demand (by decide) hu).trans (ht.trans later)
    · split
      · refine .ask (.inl later) ?_
        rintro ⟨cs, t⟩ ht
        exact ht.trans later
      · split
        · refine .ask (.inl later) ?_
          rintro ⟨es, t⟩ ht
          exact ht.trans later
        · split
          · refine .ask (.inr ⟨rfl, by simp [Question.level]⟩) ?_
            rintro ⟨v, t⟩ ht
            exact ht
          · split
            · rename_i n found
              have tried : (number? (c :: r)).map plain = some (plain n) := by rw [found]; rfl
              exact Code.proceeds_ofExcept fun a ha => past_of_read? tried (number_reads tried) ha
            · split
              · exact .last (.inr ⟨rfl, by simp [Question.level]⟩) fun a progress => progress
              · trivial

theorem reference_goes (s : List Char) :
    Goes (.reference s) (Progress (.reference s)) (reference s) := by
  refine .lexeme ?_
  rintro ⟨n, r⟩ hr
  have named : Past r s := past_of_reads (nameHere_reads s) hr
  dsimp only
  split
  · exact named
  · refine .ask (.inl named) ?_
    rintro ⟨parts, t⟩ ht
    have later : Past t s := .of_suffix ht named
    dsimp only
    split
    · rename_i u opens
      have inside : Past u s := (past_of_found opens (suffix_of_word? opens)).trans later
      refine .ask (.inl inside) ?_
      rintro ⟨args, v⟩ hv
      exact hv.trans inside
    · exact later

/-- The end of a list makes progress if every further round does. -/
theorem listEnd_goes {q : Question} {close : String} (nonempty : close ≠ "")
    {again : List Char → Reader (List Node × List Char)} {n : Node} {s : List Char}
    (next : ∀ r, Past r s → Goes q (fun a => Past a.2 r) (again r)) :
    Goes q (fun a => Past a.2 s) (listEnd close again n s) := by
  unfold listEnd
  split
  · rename_i r comma
    have hr := past_of_spaced? comma
    refine (next r hr).bind ?_
    rintro ⟨more, t⟩ ht
    exact ht.trans hr
  · refine .lexeme ?_
    rintro ⟨_, r⟩ hr
    exact past_of_demand nonempty hr

theorem arguments_goes (s : List Char) :
    Goes (.arguments s) (Progress (.arguments s)) (arguments s) := by
  unfold arguments
  split
  · rename_i r closes
    exact past_of_spaced? closes
  · refine .ask (.inr ⟨rfl, by simp [Question.level]⟩) ?_
    rintro ⟨a, r⟩ hr
    refine Code.Proceeds.mono (listEnd_goes (by decide) fun t ht => ?_) fun a ha => ha.trans hr
    exact .last (.inl (ht.trans hr)) fun a progress => progress

theorem argument_goes (s : List Char) :
    Goes (.argument s) (Progress (.argument s)) (argument s) := by
  unfold argument
  split
  · rename_i n r found
    have hr : Past r s := past_of_found found (keywordArgument?_finds found).1
    refine .ask (.inl hr) ?_
    rintro ⟨e, t⟩ ht
    exact ht.trans hr
  · refine .ask (.inr ⟨rfl, by simp [Question.level]⟩) ?_
    rintro ⟨e, t⟩ ht
    exact ht

theorem items_goes (s : List Char) : Goes (.items s) (Progress (.items s)) (items s) := by
  unfold items
  split
  · rename_i r closes
    exact past_of_spaced? closes
  · refine .ask (.inr ⟨rfl, by simp [Question.level]⟩) ?_
    rintro ⟨e, r⟩ hr
    refine Code.Proceeds.mono (listEnd_goes (by decide) fun t ht => ?_) fun a ha => ha.trans hr
    exact .last (.inl (ht.trans hr)) fun a progress => progress

theorem entries_goes (s : List Char) : Goes (.entries s) (Progress (.entries s)) (entries s) := by
  unfold entries
  split
  · rename_i r closes
    exact past_of_spaced? closes
  · refine Goes.bind mapKey_goes ?_
    rintro ⟨key, r⟩ hr
    refine .lexeme ?_
    rintro ⟨_, t⟩ ht
    have later := (past_of_demand (by decide) ht).trans hr
    refine .ask (.inl later) ?_
    rintro ⟨e, u⟩ hu
    have further := hu.trans later
    refine Code.Proceeds.mono (listEnd_goes (by decide) fun t ht => ?_) fun a ha => ha.trans further
    exact .last (.inl (ht.trans further)) fun a progress => progress

/-! ### Heads of statements -/

theorem declarations_goes (s : List Char) :
    Goes (.declarations s) (Progress (.declarations s)) (declarations s) := by
  unfold declarations
  split
  · rename_i r closes
    exact past_of_spaced? closes
  · refine .lexeme ?_
    rintro ⟨n, r⟩ hr
    have named := past_of_name hr
    have value : Goes (.declarations s) (fun a => Past a.2 s) (default r) := by
      unfold default
      split
      · rename_i t equals
        have later := (past_of_spaced? equals).trans named
        refine .ask (.inl later) ?_
        rintro ⟨e, u⟩ hu
        exact hu.trans later
      · exact named
    refine value.bind ?_
    rintro ⟨v, t⟩ ht
    refine Code.Proceeds.mono (listEnd_goes (by decide) fun u hu => ?_) fun a ha => ha.trans ht
    exact .last (.inl (hu.trans ht)) fun a progress => progress

theorem macroHead_goes (s : List Char) :
    Goes (.macroHead s) (Progress (.macroHead s)) (macroHead s) := by
  refine .lexeme ?_
  rintro ⟨n, r⟩ hr
  refine .lexeme ?_
  rintro ⟨_, t⟩ ht
  have later := (past_of_demand (by decide) ht).trans (past_of_name hr)
  refine .ask (.inl later) ?_
  rintro ⟨ps, u⟩ hu
  refine .lexeme ?_
  rintro ⟨trim, v⟩ hv
  exact (past_of_tagEnd (by decide) hv).trans (hu.trans later)

theorem callHead_goes (s : List Char) :
    Goes (.callHead s) (Progress (.callHead s)) (callHead s) := by
  have parameters : Goes (.callHead s) (fun a => a.2 <:+ s) (blockParameters s) := by
    unfold blockParameters
    split
    · rename_i r opens
      have later := past_of_spaced? opens
      refine .ask (.inl later) ?_
      rintro ⟨_, t⟩ ht
      exact (ht.trans later).1
    · exact List.suffix_refl s
  refine parameters.bind ?_
  rintro ⟨_, r⟩ hr
  refine .lexeme ?_
  rintro ⟨first, t⟩ ht
  have named := (past_of_name ht).within hr
  refine .ask (.inl named) ?_
  rintro ⟨parts, u⟩ hu
  refine .lexeme ?_
  rintro ⟨_, v⟩ hv
  have later := (past_of_demand (by decide) hv).trans (.of_suffix hu named)
  refine .ask (.inl later) ?_
  rintro ⟨args, w⟩ hw
  refine .lexeme ?_
  rintro ⟨trim, x⟩ hx
  exact (past_of_tagEnd (by decide) hx).trans (hw.trans later)

theorem loopHead_goes (s : List Char) :
    Goes (.loopHead s) (Progress (.loopHead s)) (loopHead s) := by
  refine .lexeme ?_
  rintro ⟨names, r⟩ hr
  have named : Past r s := past_of_reads (loopNames_reads s) hr
  dsimp only
  split
  · trivial
  · rename_i t found
    have later : Past t s := (past_of_spacedKeyword? found).trans named
    refine .ask (.inl later) ?_
    rintro ⟨e, u⟩ hu
    refine .lexeme ?_
    rintro ⟨trim, v⟩ hv
    exact (past_of_tagEnd (by decide) hv).trans (hu.trans later)

/-! ### Statements -/

theorem output_goes (s : List Char) : Goes (.output s) (Progress (.output s)) (output s) := by
  refine .ask (.inr ⟨rfl, by simp [Question.level]⟩) ?_
  rintro ⟨e, r⟩ hr
  refine .lexeme ?_
  rintro ⟨trim, t⟩ ht
  exact (past_of_tagEnd (by decide) ht).trans hr

theorem skipTag_goes (s : List Char) : Goes (.skipTag s) (Progress (.skipTag s)) (skipTag s) := by
  unfold skipTag
  cases s with
  | nil => exact List.suffix_refl _
  | cons c r =>
    dsimp only
    split
    · exact List.suffix_refl _
    · split
      · refine .ask (.inr ⟨rfl, by simp [Question.level]⟩) ?_
        rintro ⟨_, t⟩ ht
        exact .last (.inl ht) fun a progress => (Past.of_suffix progress ht).1
      · exact .last (.inl (.tail c r)) fun a progress => (Past.of_suffix progress (.tail c r)).1

theorem blockEnd_goes {q : Question} {ends : List String} {trim : Bool} {s : List Char}
    (later : Past s q.unread) : Goes q (fun a => Past a.2 s) (blockEnd ends trim s) := by
  refine .ask (.inl later) ?_
  rintro ⟨b, r⟩ hr
  refine .lexeme ?_
  rintro ⟨trim, t⟩ ht
  exact (past_of_tagEnd (by decide) ht).trans hr

theorem setStatement_goes (s : List Char) :
    Goes (.setStatement s) (Progress (.setStatement s)) (setStatement s) := by
  refine .lexeme ?_
  rintro ⟨n, r⟩ hr
  have named := past_of_name hr
  dsimp only
  split
  · rename_i t equals
    have later := (past_of_spaced? equals).trans named
    refine .ask (.inl later) ?_
    rintro ⟨e, u⟩ hu
    refine .lexeme ?_
    rintro ⟨trim, v⟩ hv
    exact (past_of_tagEnd (by decide) hv).trans (hu.trans later)
  · split
    · trivial
    · refine .lexeme ?_
      rintro ⟨trim, t⟩ ht
      have later := (past_of_tagEnd (by decide) ht).trans named
      refine Goes.bind (blockEnd_goes later) ?_
      rintro ⟨⟨b, trim⟩, u⟩ hu
      exact hu.trans later

theorem ifStatement_goes (s : List Char) :
    Goes (.ifStatement s) (Progress (.ifStatement s)) (ifStatement s) := by
  refine .ask (.inr ⟨rfl, by simp [Question.level]⟩) ?_
  rintro ⟨e, r⟩ hr
  refine .lexeme ?_
  rintro ⟨trim, t⟩ ht
  have opened := (past_of_tagEnd (by decide) ht).trans hr
  refine .ask (.inl opened) ?_
  rintro ⟨yes, u⟩ hu
  have closed : Past u s := hu.trans opened
  have other : ∀ v, Past v s → Goes (.ifStatement s) (Progress (.ifStatement s))
      (otherwise e yes.nodes v) := by
    intro v hv
    refine .ask (.inl hv) ?_
    rintro ⟨n, w⟩ hw
    exact hw.trans hv
  dsimp only
  split
  · exact other u closed
  · split
    · split
      · rename_i v found
        exact other v ((past_of_spacedKeyword? found).trans closed)
      · refine .lexeme ?_
        rintro ⟨trim, v⟩ hv
        have later := (past_of_tagEnd (by decide) hv).trans closed
        refine Goes.bind (blockEnd_goes later) ?_
        rintro ⟨⟨no, trim⟩, w⟩ hw
        exact hw.trans later
    · refine .lexeme ?_
      rintro ⟨trim, v⟩ hv
      exact (past_of_tagEnd (by decide) hv).trans closed

theorem forStatement_goes (s : List Char) :
    Goes (.forStatement s) (Progress (.forStatement s)) (forStatement s) := by
  refine .ask (.inr ⟨rfl, by simp [Question.level]⟩) ?_
  rintro ⟨head, r⟩ hr
  refine Goes.bind (blockEnd_goes hr) ?_
  rintro ⟨⟨b, trim⟩, t⟩ ht
  have later : Past t s := ht.trans hr
  dsimp only
  split
  · refine Goes.bind (blockEnd_goes later) ?_
    rintro ⟨⟨no, trim⟩, u⟩ hu
    exact hu.trans later
  · exact later

theorem given_goes {q : Question} {s : List Char} {x : Reader (Statement × List Char)}
    (h : Goes q (fun a => Past a.2 s) x) : Goes q (fun a => Past a.2 s) (given x) :=
  h.bind fun _ past => past

theorem statement_goes (doc : Option String) (s : List Char) :
    Goes (.statement doc s) (Progress (.statement doc s)) (statement doc s) := by
  refine .lexeme ?_
  rintro ⟨keyword, r⟩ hr
  have named := past_of_name hr
  have imported : Goes (.statement doc s) (Progress (.statement doc s)) (importTag r) := by
    refine .ask (.inl named) ?_
    rintro ⟨_, t⟩ ht
    refine .lexeme ?_
    rintro ⟨trim, u⟩ hu
    exact (past_of_tagEnd (by decide) hu).trans (.of_suffix ht named)
  dsimp only
  split
  · refine .ask (.inl named) ?_
    rintro ⟨⟨n, args, trim⟩, t⟩ ht
    refine Goes.bind (blockEnd_goes (ht.trans named)) ?_
    rintro ⟨⟨b, trim⟩, u⟩ hu
    exact hu.trans (ht.trans named)
  · refine .ask (.inl named) ?_
    rintro ⟨⟨n, ps, trim⟩, t⟩ ht
    refine Goes.bind (blockEnd_goes (ht.trans named)) ?_
    rintro ⟨⟨b, trim⟩, u⟩ hu
    exact hu.trans (ht.trans named)
  · exact given_goes (.last (.inl named) fun a progress => progress.trans named)
  · exact given_goes (.last (.inl named) fun a progress => progress.trans named)
  · exact given_goes (.last (.inl named) fun a progress => progress.trans named)
  · exact imported
  · exact imported
  · trivial

/-! ### Bodies and templates -/

theorem text_goes (top : Bool) (s : List Char) :
    Goes (.text top s) (Progress (.text top s)) (text top s) := by
  unfold text
  cases s with
  | nil => exact ⟨List.suffix_refl _, fun nonempty => absurd rfl nonempty⟩
  | cons c r =>
    dsimp only
    split
    · rename_i ends
      exact ⟨List.suffix_refl _, fun _ goes_on => absurd (ends.symm.trans goes_on) (by decide)⟩
    · refine .ask (.inl (.tail c r)) ?_
      rintro ⟨cs, t⟩ ht
      have later : Past t (c :: r) := .of_suffix ht.1 (.tail c r)
      exact ⟨later.1, fun _ _ => later⟩

theorem element_goes (top : Bool) (doc : Option String) (trim : Bool) (s : List Char) :
    Goes (.element top doc trim s) (Progress (.element top doc trim s))
      (element top doc trim s) := by
  have moved : ∀ {r : List Char}, Past r s → ∀ e : Element,
      Progress (.element top doc trim s) (e, r) := fun later e => ⟨later.1, fun _ _ => later⟩
  unfold element
  split
  · rename_i r found
    have hr : Past r s := past_of_found found (suffix_of_tagStart? found)
    exact .last (.inl hr) fun a progress => moved (progress.trans hr) a.1
  · rename_i output
    split
    · rename_i r found
      have hr : Past r s := past_of_found found (suffix_of_tagStart? found)
      exact .last (.inl hr) fun a progress => moved (progress.trans hr) a.1
    · rename_i statement
      split
      · rename_i x tried
        refine .lexeme ?_
        rintro ⟨b, r⟩ found
        exact moved (past_of_read? tried (comment?_reads tried) found) _
      · rename_i comment
        refine .ask (.inr ⟨rfl, by simp [Question.level]⟩) ?_
        rintro ⟨cs, r⟩ hr
        refine ⟨hr.1, fun nonempty stands => hr.2 nonempty ?_⟩
        rw [endsText_eq output statement comment, stands]

theorem suffix_of_endTag? {ends : List String} {s : List Char} {a : String × List Char}
    (h : plain (endTag? ends s) = some a) : a.2 <:+ s := by
  rw [plain_endTag?] at h
  exact suffix_of_statementKeyword? (Option.filter_eq_some_iff.mp h).1

theorem body_goes (ends : List String) (done : List Node) (trim : Bool) (s : List Char) :
    Goes (.body ends done trim s) (Progress (.body ends done trim s)) (body ends done trim s) := by
  unfold body
  split
  · trivial
  · rename_i nonempty
    dsimp only
    split
    · rename_i closer r found
      have later : Past r s := past_of_found found (suffix_of_endTag? found)
      exact later
    · refine .ask (.inr ⟨rfl, by simp [Question.level]⟩) ?_
      rintro ⟨e, r⟩ hr
      have later : Past r s := hr.2 (by simpa using nonempty) rfl
      exact .last (.inl later) fun a progress => progress.trans later

theorem template_goes (done : List Node) (run : List DocBlock) (doc : Option String) (trim : Bool)
    (s : List Char) : Goes (.template done run doc trim s)
      (Progress (.template done run doc trim s)) (template done run doc trim s) := by
  unfold template
  split
  · trivial
  · rename_i nonempty
    dsimp only
    split
    · rename_i x tried
      refine .lexeme ?_
      rintro ⟨⟨block, trim⟩, r⟩ found
      have later : Past r s := past_of_read? tried (docBlock?_reads tried) found
      dsimp only
      split
      · exact .last (.inl later) fun _ _ => trivial
      · split
        · exact .last (.inl later) fun _ _ => trivial
        · exact .last (.inl later) fun _ _ => trivial
    · rename_i noBlock
      refine .ask (.inr ⟨rfl, by simp [Question.level]⟩) ?_
      rintro ⟨e, r⟩ hr
      have later : Past r s := by
        refine hr.2 (by simpa using nonempty) ?_
        rw [docComment?_of_docBlock? noBlock]
        rfl
      exact .last (.inl later) fun _ _ => trivial

end Reader

theorem reading_goes (q : Question) : Goes q (Progress q) (reading q) := by
  cases q with
  | template done run doc trim s => exact Reader.template_goes done run doc trim s
  | body ends done trim s => exact Reader.body_goes ends done trim s
  | element top doc trim s => exact Reader.element_goes top doc trim s
  | text top s => exact Reader.text_goes top s
  | output s => exact Reader.output_goes s
  | statement doc s => exact Reader.statement_goes doc s
  | macroHead s => exact Reader.macroHead_goes s
  | callHead s => exact Reader.callHead_goes s
  | loopHead s => exact Reader.loopHead_goes s
  | setStatement s => exact Reader.setStatement_goes s
  | ifStatement s => exact Reader.ifStatement_goes s
  | forStatement s => exact Reader.forStatement_goes s
  | skipTag s => exact Reader.skipTag_goes s
  | declarations s => exact Reader.declarations_goes s
  | condition s => exact Reader.condition_goes s
  | connectives s => exact Reader.connectives_goes s
  | expression s => exact Reader.expression_goes s
  | operators s => exact Reader.operators_goes s
  | operand s => exact Reader.operand_goes s
  | filters subject s => exact Reader.filters_goes subject s
  | primary s => exact Reader.primary_goes s
  | reference s => exact Reader.reference_goes s
  | pathTail s => exact Reader.pathTail_goes s
  | arguments s => exact Reader.arguments_goes s
  | argument s => exact Reader.argument_goes s
  | items s => exact Reader.items_goes s
  | entries s => exact Reader.entries_goes s
  | dottedTail s => exact Reader.dottedTail_goes s
  | quoted s => exact Reader.quoted_goes s
  | quotedBody quote s => exact Reader.quotedBody_goes quote s

/-! ### Every source -/

/-- The byte position of a question about an end of the source. -/
def Question.position (source : String) (q : Question) : Nat :=
  source.utf8ByteSize - byteLength q.unread

theorem position_lt {source : String} {p q : Question} (inside : q.unread <:+ source.toList)
    (later : Past p.unread q.unread) : q.position source < p.position source := by
  have whole : byteLength source.toList = source.utf8ByteSize := by
    rw [byteLength_eq, String.ofList_toList]
  have left : byteLength q.unread ≤ byteLength source.toList := by
    by_cases same : q.unread = source.toList
    · rw [same]
    · exact Nat.le_of_lt (Past.of_ne inside same).byteLength_lt
  have fewer := later.byteLength_lt
  unfold Question.position
  omega

/-- Reading comes to an end on every source, valid or not. Each question that is asked is about a
later byte of the source than the one that asks it, or about the same one at a lower level of the
grammar; a loop that asks itself has moved on. There is no infinite chain of questions, every
question has exactly one answer, which is that of the readers, and the answer to the first question
makes a tree or an error. -/
theorem reading_ends (source : String) :
    (∀ q p, q.unread <:+ source.toList → (reading q).Asks reading p →
      p.unread <:+ source.toList ∧ (q.position source < p.position source ∨
        p.position source = q.position source ∧ p.level < q.level)) ∧
    WellFounded (fun p q => (reading q).Asks reading p) ∧
    (∀ q x, (reading q).Ends reading x ↔ x = answer q) ∧
    ((∃ nodes, (reading (.template [] [] none false source.toList)).Ends reading (.ok nodes) ∧
        parse source = .ok (ofElements nodes)) ∨
      ∃ f, (reading (.template [] [] none false source.toList)).Ends reading (.error f) ∧
        parse source = .error (SyntaxError.locate source.toList f)) := by
  have ends := Code.ends_iff wellFounded_lower reading_goes eval_reading
  have descent := Code.wellFounded_asks wellFounded_lower reading_goes
  refine ⟨fun q p inside asked => ?_, descent, ends, ?_⟩
  · rcases Code.lower_of_asks wellFounded_lower reading_goes asked with later | ⟨same, below⟩
    · exact ⟨later.1.trans inside, .inl (position_lt inside later)⟩
    · refine ⟨same ▸ inside, .inr ⟨?_, below⟩⟩
      rw [Question.position, same]
      rfl
  · rw [parse_eq]
    cases read : elementsFrom [] [] none false source.toList with
    | ok nodes => exact .inl ⟨nodes, (ends _ _).mpr read.symm, rfl⟩
    | error f => exact .inr ⟨f, (ends _ _).mpr read.symm, rfl⟩

/-- A round of the loop over text goes on by the two bytes of a letter. -/
theorem text_round_moves_on :
    (reading (.text true "é\x7b#".toList)).Asks reading (.text true "\x7b#".toList) ∧
    (Question.text true "é\x7b#".toList).position "é\x7b#" <
      (Question.text true "\x7b#".toList).position "é\x7b#" := by
  have asked : (reading (.text true "é\x7b#".toList)).Asks reading (.text true "\x7b#".toList) :=
    .now _ _
  obtain ⟨-, later | ⟨-, below⟩⟩ :=
    (reading_ends "é\x7b#").1 _ _ (List.suffix_refl _) asked
  · exact ⟨asked, later⟩
  · exact absurd below (Nat.lt_irrefl _)

end TagCompiler.Template
