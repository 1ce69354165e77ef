/-!
# Procedures that call each other

A piece of `Code` ends in a value or an error, and may ask questions on its way there. A procedure
says for each question by which code it is answered, and that code may ask further questions.
Nothing bounds how far this goes: `Ends` holds of the code that comes to an end, after finitely many
steps.

A procedure is total if every question asks only lower ones. Which questions are asked may depend
on the answers to earlier ones, so `Proceeds` goes through a piece of code with what is known of
the answers, and shows the same of its own result.
-/

namespace TagCompiler

/-- Code that may ask the questions `Q`. The answer to `q` is a value of `A q` or an error. -/
inductive Code (ε Q : Type) (A : Q → Type) (α : Type) where
  | done (a : α)
  | fail (e : ε)
  | asking (q : Q) (next : A q → Code ε Q A α)

namespace Code

variable {ε Q : Type} {A : Q → Type} {α β : Type}

def bind : Code ε Q A α → (α → Code ε Q A β) → Code ε Q A β
  | .done a, g => g a
  | .fail e, _ => .fail e
  | .asking q next, g => .asking q fun a => (next a).bind g

instance : Monad (Code ε Q A) where
  pure := .done
  bind := bind

/-- Asks a question and goes on with the answer. -/
def ask (q : Q) : Code ε Q A (A q) := .asking q .done

/-- Code that asks nothing. -/
def ofExcept : Except ε α → Code ε Q A α
  | .ok a => .done a
  | .error e => .fail e

/-! ### Runs -/

/-- The code comes to an end with the given result, if questions are answered by the procedure. -/
inductive Ends (answering : ∀ q, Code ε Q A (A q)) : {α : Type} → Code ε Q A α → Except ε α → Prop
  | done {α : Type} (a : α) : Ends answering (.done a) (.ok a)
  | fail {α : Type} (e : ε) : Ends answering (.fail e : Code ε Q A α) (.error e)
  | answered {α : Type} {q : Q} {next : A q → Code ε Q A α} {a : A q} {r : Except ε α} :
      Ends answering (answering q) (.ok a) → Ends answering (next a) r →
      Ends answering (.asking q next) r
  | refused {α : Type} {q : Q} {next : A q → Code ε Q A α} {e : ε} :
      Ends answering (answering q) (.error e) → Ends answering (.asking q next) (.error e)

/-- The code asks this question, itself and not through another question. -/
inductive Asks (answering : ∀ q, Code ε Q A (A q)) : Code ε Q A α → Q → Prop
  | now (q : Q) (next : A q → Code ε Q A α) : Asks answering (.asking q next) q
  | later {q r : Q} {next : A q → Code ε Q A α} {a : A q} :
      Ends answering (answering q) (.ok a) → Asks answering (next a) r →
      Asks answering (.asking q next) r

theorem Ends.unique {answering : ∀ q, Code ε Q A (A q)} {c : Code ε Q A α} {x y : Except ε α}
    (hx : Ends answering c x) (hy : Ends answering c y) : x = y := by
  induction hx with
  | done | fail =>
    cases hy
    rfl
  | answered _ _ ihq ih =>
    cases hy with
    | answered hq hnext =>
      cases ihq hq
      exact ih hnext
    | refused hq => cases ihq hq
  | refused _ ihq =>
    cases hy with
    | answered hq => cases ihq hq
    | refused hq =>
      cases ihq hq
      rfl

/-! ### Solutions -/

/-- The result of the code if the answers are `f`. -/
def eval (f : ∀ q, Except ε (A q)) : Code ε Q A α → Except ε α
  | .done a => .ok a
  | .fail e => .error e
  | .asking q next => f q >>= fun a => (next a).eval f

section
variable {f : ∀ q, Except ε (A q)}

theorem eval_bind (c : Code ε Q A α) (g : α → Code ε Q A β) :
    (c >>= g).eval f = c.eval f >>= fun a => (g a).eval f := by
  induction c with
  | done | fail => rfl
  | asking q next ih =>
    show f q >>= _ = (f q >>= _) >>= _
    cases f q with
    | error => rfl
    | ok a => exact ih a

@[simp] theorem eval_ask (q : Q) : (ask q : Code ε Q A (A q)).eval f = f q := by
  show f q >>= _ = f q
  cases f q <;> rfl

@[simp] theorem eval_ofExcept (x : Except ε α) : (ofExcept x : Code ε Q A α).eval f = x := by
  cases x <;> rfl

/-- Answers that solve the equations of a procedure are the ones that it comes to. -/
theorem Ends.eq_eval {answering : ∀ q, Code ε Q A (A q)}
    (solved : ∀ q, (answering q).eval f = f q) {c : Code ε Q A α} {x : Except ε α}
    (h : Ends answering c x) : x = c.eval f := by
  induction h with
  | done | fail => rfl
  | answered _ _ ihq ih =>
    rw [solved] at ihq
    rw [eval, ← ihq]
    exact ih
  | refused _ ihq =>
    rw [solved] at ihq
    rw [eval, ← ihq]
    rfl

end

/-! ### Descent -/

/-- The code asks only questions with the property `P`, and its value has the property `post`, if
the values that it is answered with have the property `known`. -/
def Proceeds (known : ∀ q, A q → Prop) (P : Q → Prop) (post : α → Prop) : Code ε Q A α → Prop
  | .done a => post a
  | .fail _ => True
  | .asking q next => P q ∧ ∀ a, known q a → (next a).Proceeds known P post

section
variable {known : ∀ q, A q → Prop} {P : Q → Prop} {post : α → Prop}

theorem Proceeds.bind {c : Code ε Q A β} {g : β → Code ε Q A α}
    (h : c.Proceeds known P fun b => (g b).Proceeds known P post) :
    (c >>= g).Proceeds known P post := by
  induction c with
  | done b => exact h
  | fail => trivial
  | asking q next ih => exact ⟨h.1, fun a ha => ih a (h.2 a ha)⟩

theorem Proceeds.mono {c : Code ε Q A α} {post' : α → Prop} (h : c.Proceeds known P post)
    (imp : ∀ a, post a → post' a) : c.Proceeds known P post' := by
  induction c with
  | done a => exact imp a h
  | fail => trivial
  | asking q next ih => exact ⟨h.1, fun a ha => ih a (h.2 a ha)⟩

theorem proceeds_ask {q : Q} {post : A q → Prop} (asked : P q) (h : ∀ a, known q a → post a) :
    (ask q : Code ε Q A (A q)).Proceeds known P post := ⟨asked, h⟩

theorem proceeds_ofExcept {x : Except ε α} (h : ∀ a, x = .ok a → post a) :
    (ofExcept x : Code ε Q A α).Proceeds known P post := by
  cases x with
  | error => trivial
  | ok a => exact h a rfl

end

section
variable {answering : ∀ q, Code ε Q A (A q)} {known : ∀ q, A q → Prop} {P : Q → Prop}

/-- Code comes to an end if all questions that it may ask do, with values as known. -/
theorem Proceeds.ends {c : Code ε Q A α} {post : α → Prop} (h : c.Proceeds known P post)
    (answered : ∀ q, P q → ∃ x, Ends answering (answering q) x ∧ ∀ a, x = .ok a → known q a) :
    ∃ x, Ends answering c x ∧ ∀ a, x = .ok a → post a := by
  induction c with
  | done a =>
    refine ⟨.ok a, .done a, ?_⟩
    rintro _ ⟨⟩
    exact h
  | fail e => exact ⟨.error e, .fail e, fun _ h => by cases h⟩
  | asking q next ih =>
    obtain ⟨x, hx, good⟩ := answered q h.1
    cases x with
    | error e => exact ⟨.error e, .refused hx, fun _ h => by cases h⟩
    | ok a =>
      obtain ⟨y, hy, fine⟩ := ih a (h.2 a (good a rfl))
      exact ⟨y, .answered hx hy, fine⟩

theorem Asks.of_proceeds {c : Code ε Q A α} {post : α → Prop} {r : Q} (asked : c.Asks answering r)
    (h : c.Proceeds known P post)
    (answered : ∀ q a, Ends answering (answering q) (.ok a) → known q a) : P r := by
  induction asked with
  | now => exact h.1
  | later hq _ ih => exact ih (h.2 _ (answered _ _ hq))

variable {lower : Q → Q → Prop} (wf : WellFounded lower)
  (descends : ∀ q, (answering q).Proceeds known (fun r => lower r q) (known q))

include wf descends

theorem exists_ends (q : Q) :
    ∃ x, Ends answering (answering q) x ∧ ∀ a, x = .ok a → known q a := by
  induction q using wf.induction with
  | _ q ih => exact (descends q).ends ih

theorem known_of_ends {q : Q} {a : A q} (h : Ends answering (answering q) (.ok a)) : known q a := by
  obtain ⟨x, hx, good⟩ := exists_ends wf descends q
  exact good a (hx.unique h)

/-- A question asks only lower ones. -/
theorem lower_of_asks {q r : Q} (h : (answering q).Asks answering r) : lower r q :=
  h.of_proceeds (descends q) fun _ _ => known_of_ends wf descends

/-- There is no infinite chain of questions of which each asks the next one. -/
theorem wellFounded_asks : WellFounded fun r q => (answering q).Asks answering r :=
  Subrelation.wf (lower_of_asks wf descends) wf

/-- Every question is answered, and as the solution of the equations says. -/
theorem ends_iff {f : ∀ q, Except ε (A q)} (solved : ∀ q, (answering q).eval f = f q) (q : Q)
    (x : Except ε (A q)) : Ends answering (answering q) x ↔ x = f q := by
  have sound : ∀ y, Ends answering (answering q) y → y = f q := by
    intro y hy
    rw [hy.eq_eval solved, solved]
  constructor
  · exact sound x
  · rintro rfl
    obtain ⟨y, hy, -⟩ := exists_ends wf descends q
    exact sound y hy ▸ hy

end

end Code
end TagCompiler
