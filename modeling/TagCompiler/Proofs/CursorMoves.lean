import Mathlib.Algebra.Group.Nat.Defs
import Mathlib.Data.Nat.Find
import Mathlib.Order.Bounds.Basic
import TagCompiler.Node.Cursor
/-!
# What a cursor does at the limits of its index

The index of a cursor is a word of 64 bits, and so are the arguments of the calls that move it. The
place that a call asks for is computed here in integers without bounds. After any calls the cursor
stands where these integers say, and a step that no word can hold is left out. The elements around
the cursor are those at the exact places, and a search looks at every place of its window, which
starts at the cursor, or at the first element if the cursor stands before it, and at no other.
-/

namespace TagCompiler.Cursor

/-! ### Moving -/

/-- A call that moves a cursor. -/
inductive Move where
  | seek (place : Int64)
  | advance (step : Int64)

/-- The place that a call asks for when the cursor stands at `i`. -/
def Move.target (i : Int) : Move → Int
  | .seek place => place.toInt
  | .advance step => i + step.toInt

/-- Whether a word of 64 bits holds `i`. -/
def IsWord (i : Int) : Prop := Int64.minValue.toInt ≤ i ∧ i ≤ Int64.maxValue.toInt

instance (i : Int) : Decidable (IsWord i) := inferInstanceAs (Decidable (_ ∧ _))

/-- The place after a call: a place that no word holds is not gone to. -/
def exactIndex (i : Int) (m : Move) : Int := if IsWord (m.target i) then m.target i else i

/-- Makes one call. -/
def move (c : Cursor) : Move → Bool × Cursor
  | .seek place => c.seek place.toInt
  | .advance step => c.advance step.toInt

/-- Makes one call after the other. -/
def moveAll (c : Cursor) (ms : List Move) : Cursor := ms.foldl (fun c m => (c.move m).2) c

theorem isWord_toInt (w : Int64) : IsWord w.toInt := ⟨w.minValue_le_toInt, w.toInt_le⟩

theorem inRange_iff {i : Int} : inRange i = true ↔ IsWord i := by
  have least : Int64.minValue.toInt = -0x8000000000000000 := rfl
  have greatest : Int64.maxValue.toInt = 0x7fffffffffffffff := rfl
  rw [IsWord, least, greatest, inRange]
  simp only [Bool.and_eq_true, decide_eq_true_eq]
  omega

/-- What one call does: it goes to its place and says whether an element is there, or it does
nothing. -/
theorem move_eq (c : Cursor) (m : Move) :
    c.move m = if IsWord (m.target c.index) then
      (c.isElement (m.target c.index), { c with index := m.target c.index }) else (false, c) := by
  cases m with
  | seek place =>
    rw [Move.target, if_pos (isWord_toInt place), move, seek]
  | advance step =>
    by_cases word : IsWord (c.index + step.toInt)
    · rw [Move.target, if_pos word, move, advance, if_pos (inRange_iff.mpr word), seek]
    · rw [Move.target, if_neg word, move, advance, if_neg (mt inRange_iff.mp word)]

theorem nodes_move (c : Cursor) (m : Move) : (c.move m).2.nodes = c.nodes := by
  rw [move_eq]
  split <;> rfl

theorem index_move (c : Cursor) (m : Move) : (c.move m).2.index = exactIndex c.index m := by
  rw [move_eq, exactIndex]
  split <;> rfl

theorem isWord_exactIndex {i : Int} (h : IsWord i) (m : Move) : IsWord (exactIndex i m) := by
  by_cases held : IsWord (m.target i)
  · rwa [exactIndex, if_pos held]
  · rwa [exactIndex, if_neg held]

theorem nodes_moveAll (c : Cursor) (ms : List Move) : (c.moveAll ms).nodes = c.nodes := by
  induction ms generalizing c with
  | nil => rfl
  | cons m ms ih => exact (ih (c.move m).2).trans (c.nodes_move m)

theorem index_moveAll (c : Cursor) (ms : List Move) :
    (c.moveAll ms).index = ms.foldl exactIndex c.index := by
  induction ms generalizing c with
  | nil => rfl
  | cons m ms ih =>
    have rest := ih (c.move m).2
    rwa [index_move] at rest

theorem isWord_foldl {i : Int} (h : IsWord i) (ms : List Move) :
    IsWord (ms.foldl exactIndex i) := by
  induction ms generalizing i with
  | nil => exact h
  | cons m ms ih => exact ih (isWord_exactIndex h m)

/-! ### Elements around the cursor -/

/-- The element at an integer place. -/
def elementAt? (nodes : List Node) (i : Int) : Option Node :=
  if 0 ≤ i then nodes[i.toNat]? else none

theorem at?_of_isWord {c : Cursor} {i : Int} (h : IsWord i) : c.at? i = elementAt? c.nodes i := by
  simp [at?, elementAt?, inRange_iff.mpr h]

/-- Below all words there is no element either. -/
theorem at?_of_le {c : Cursor} {i : Int} (h : i ≤ Int64.maxValue.toInt) :
    c.at? i = elementAt? c.nodes i := by
  by_cases word : IsWord i
  · exact at?_of_isWord word
  · have negative : ¬ 0 ≤ i := by
      intro nonneg
      exact word ⟨by simp; omega, h⟩
    simp [at?, elementAt?, negative]

/-- There are no more elements than words to count them, so beyond all words there is none. -/
theorem at?_of_length_le {c : Cursor} (few : c.nodes.length ≤ 2 ^ 63) (i : Int) :
    c.at? i = elementAt? c.nodes i := by
  by_cases h : i ≤ Int64.maxValue.toInt
  · exact at?_of_le h
  · have beyond : c.nodes.length ≤ i.toNat := by
      have greatest : Int64.maxValue.toInt = 0x7fffffffffffffff := rfl
      omega
    have none : c.nodes[i.toNat]? = none := List.getElem?_eq_none beyond
    simp [at?, elementAt?, none]

/-! ### Searching -/

/-- Whether a search looks at the place `i` and finds there what it looks for. -/
def Hits (c : Cursor) (type : Option String) (fields : Option FieldPattern) (limit : Option Nat)
    (i : Nat) : Prop :=
  max c.index 0 ≤ i ∧ (∀ n ∈ limit, (i : Int) < max c.index 0 + n) ∧
    ∃ h : i < c.nodes.length, (c.nodes[i].fits type fields) = true

/-- The elements that a search looks at. -/
def window (c : Cursor) (limit : Option Nat) : List Node :=
  limit.elim (c.nodes.drop c.index.toNat) (c.nodes.drop c.index.toNat).take

theorem findIndex?_eq (c : Cursor) (type : Option String) (fields : Option FieldPattern)
    (limit : Option Nat) :
    c.findIndex? type fields limit =
      ((c.window limit).findIdx? (·.fits type fields)).map (c.index.toNat + ·) := rfl

theorem getElem?_window (c : Cursor) (limit : Option Nat) (k : Nat) :
    (c.window limit)[k]? =
      if ∀ n ∈ limit, k < n then c.nodes[c.index.toNat + k]? else none := by
  cases limit with
  | none => simp [window]
  | some n => simp [window, List.getElem?_take]

section
variable {c : Cursor} {type : Option String} {fields : Option FieldPattern} {limit : Option Nat}

theorem Hits.start_le {i : Nat} (h : c.Hits type fields limit i) : c.index.toNat ≤ i := by
  have := h.1
  omega

/-- The places of the window are counted from its start. -/
theorem hits_iff {k : Nat} :
    c.Hits type fields limit (c.index.toNat + k) ↔
      ∃ n, (c.window limit)[k]? = some n ∧ n.fits type fields = true := by
  have start : max c.index 0 = (c.index.toNat : Int) := by omega
  have near : (∀ n ∈ limit, ((c.index.toNat + k : Nat) : Int) < max c.index 0 + n) ↔
      ∀ n ∈ limit, k < n := by
    rw [start]
    refine forall₂_congr fun n _ => ?_
    omega
  rw [Hits, near, getElem?_window]
  constructor
  · rintro ⟨-, within, inside, fits⟩
    exact ⟨_, by rw [if_pos within, List.getElem?_eq_getElem inside], fits⟩
  · rintro ⟨n, found, fits⟩
    split at found
    · rename_i within
      obtain ⟨inside, rfl⟩ := List.getElem?_eq_some_iff.mp found
      exact ⟨by omega, within, inside, fits⟩
    · cases found

theorem findIdx?_window_eq_some_iff {k : Nat} :
    (c.window limit).findIdx? (·.fits type fields) = some k ↔
      c.Hits type fields limit (c.index.toNat + k) ∧
        ∀ j < k, ¬ c.Hits type fields limit (c.index.toNat + j) := by
  simp only [hits_iff, List.findIdx?_eq_some_iff_getElem]
  constructor
  · rintro ⟨inside, fits, before⟩
    refine ⟨⟨_, List.getElem?_eq_getElem inside, fits⟩, ?_⟩
    rintro j less ⟨n, found, fits⟩
    obtain ⟨inside, rfl⟩ := List.getElem?_eq_some_iff.mp found
    exact before j less fits
  · rintro ⟨⟨n, found, fits⟩, before⟩
    obtain ⟨inside, rfl⟩ := List.getElem?_eq_some_iff.mp found
    refine ⟨inside, fits, fun j less fits => ?_⟩
    exact before j less ⟨_, List.getElem?_eq_getElem (less.trans inside), fits⟩

theorem findIndex?_eq_some_iff {i : Nat} :
    c.findIndex? type fields limit = some i ↔ IsLeast {j | c.Hits type fields limit j} i := by
  rw [findIndex?_eq, Option.map_eq_some_iff]
  constructor
  · rintro ⟨k, found, rfl⟩
    obtain ⟨hit, before⟩ := findIdx?_window_eq_some_iff.mp found
    refine ⟨hit, fun j other => ?_⟩
    obtain ⟨l, rfl⟩ := Nat.exists_eq_add_of_le other.start_le
    by_contra less
    exact before l (by omega) other
  · rintro ⟨hit, least⟩
    obtain ⟨k, rfl⟩ := Nat.exists_eq_add_of_le (Hits.start_le hit)
    refine ⟨k, findIdx?_window_eq_some_iff.mpr ⟨hit, fun j less other => ?_⟩, rfl⟩
    have := least other
    omega

/-- A search fails only if there is nothing to find: otherwise there is a first place. -/
theorem findIndex?_eq_none_iff :
    c.findIndex? type fields limit = none ↔ ∀ i, ¬ c.Hits type fields limit i := by
  classical
  constructor
  · intro failed i hit
    have first : c.findIndex? type fields limit = some (Nat.find ⟨i, hit⟩) :=
      findIndex?_eq_some_iff.mpr ⟨Nat.find_spec ⟨i, hit⟩, fun j => Nat.find_min' ⟨i, hit⟩⟩
    rw [failed] at first
    cases first
  · intro nothing
    rw [Option.eq_none_iff_forall_ne_some]
    intro i found
    exact nothing i (findIndex?_eq_some_iff.mp found).1

end

/-- After any calls the cursor stands at the exact place. The next call goes to the place it asks
for and says whether an element is there, unless no word holds the place: then it says no and
nothing changes. The elements around the cursor are those at the exact places; only a sequence with
more elements than a word can count would have others. A search gives the first hit of its
window. -/
theorem cursor_never_wraps (nodes : List Node) (ms : List Move) :
    let c := (ofList nodes).moveAll ms
    c.nodes = nodes ∧ c.index = ms.foldl exactIndex (-1) ∧ IsWord c.index ∧
    (∀ m, IsWord (m.target c.index) → (c.move m).2.nodes = nodes ∧
      (c.move m).2.index = m.target c.index ∧
      ((c.move m).1 = true ↔ 0 ≤ (c.move m).2.index ∧ (c.move m).2.index < nodes.length)) ∧
    (∀ m, ¬ IsWord (m.target c.index) → c.move m = (false, c)) ∧
    c.current? = elementAt? nodes c.index ∧ c.previous? = elementAt? nodes (c.index - 1) ∧
    (nodes.length ≤ 2 ^ 63 → c.next? = elementAt? nodes (c.index + 1) ∧
      ∀ k : Int64, c.peek? k.toInt = elementAt? nodes (c.index + k.toInt)) ∧
    ∀ type fields limit,
      (∀ i, c.findIndex? type fields limit = some i ↔
        IsLeast {j | c.Hits type fields limit j} i) ∧
      (c.findIndex? type fields limit = none ↔ ∀ i, ¬ c.Hits type fields limit i) := by
  intro c
  have same : c.nodes = nodes := nodes_moveAll _ ms
  have place : c.index = ms.foldl exactIndex (-1) := index_moveAll _ ms
  have word : IsWord c.index := place ▸ isWord_foldl (by decide) ms
  refine ⟨same, place, word, fun m held => ?_, fun m lost => ?_, ?_, ?_,
    fun few => ⟨?_, fun k => ?_⟩,
    fun _ _ _ => ⟨fun _ => findIndex?_eq_some_iff, findIndex?_eq_none_iff⟩⟩
  · rw [move_eq, if_pos held]
    simp [isElement, same]
  · rw [move_eq, if_neg lost]
  · rw [current?, peek?, Int.add_zero, at?_of_isWord word, same]
  · rw [previous?, peek?, at?_of_le (by have := word.2; omega), same]
    rfl
  · rw [next?, peek?, at?_of_length_le (same ▸ few), same]
  · rw [peek?, at?_of_length_le (same ▸ few), same]

/-- The step of one from the greatest word is left out, and the step after it is exact. -/
example : ((ofList [.yield]).moveAll
    [.seek Int64.maxValue, .advance 1, .advance Int64.minValue, .advance 1]).index = 0 := by decide

end TagCompiler.Cursor
