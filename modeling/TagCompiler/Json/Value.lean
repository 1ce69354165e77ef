import TagCompiler.Decimal.Layout
/-!
JSON data.

Whole numbers and floating point numbers are kept apart: `1` and `1.0` are different values. The
members of an object are kept in the order of their keys, by code point, each key once.
-/

namespace TagCompiler

inductive Number where
  | int (n : Int)
  | float (x : Double)
  deriving DecidableEq

namespace Number

def same : Number → Number → Bool
  | .int m, .int n => m == n
  | .float x, .float y => x.sameValue y
  | _, _ => false

def text : Number → String
  | .int n => toString n
  | .float x => x.text .standard

end Number

inductive Value where
  | null
  | bool (b : Bool)
  | number (n : Number)
  | string (s : String)
  | array (items : List Value)
  | object (members : List (String × Value))

/-- The members of an object. -/
abbrev Members := List (String × Value)

namespace Value

mutual

/-- Equality of data: as terms, but the two floating point zeros agree. -/
def same : Value → Value → Bool
  | .null, .null => true
  | .bool a, .bool b => a == b
  | .number m, .number n => m.same n
  | .string s, .string t => s == t
  | .array xs, .array ys => sameItems xs ys
  | .object ms, .object ns => sameMembers ms ns
  | _, _ => false

def sameItems : List Value → List Value → Bool
  | [], [] => true
  | x :: xs, y :: ys => same x y && sameItems xs ys
  | _, _ => false

def sameMembers : List (String × Value) → List (String × Value) → Bool
  | [], [] => true
  | (k, v) :: ms, (l, w) :: ns => k == l && same v w && sameMembers ms ns
  | _, _ => false

end

/-- Sets a member, keeping the keys in order; the last value of a key counts. -/
def insertMember (k : String) (v : Value) : List (String × Value) → List (String × Value)
  | [] => [(k, v)]
  | (l, w) :: ms =>
    if k = l then (k, v) :: ms
    else if k < l then (k, v) :: (l, w) :: ms
    else (l, w) :: insertMember k v ms

def ofMembers (ms : List (String × Value)) : Value :=
  .object (ms.foldl (fun acc m => insertMember m.1 m.2 acc) [])

/-- The member `k` of an object. -/
def member? (k : String) : Value → Option Value
  | .object ms => ms.lookup k
  | _ => none

/-- The member `k`, known to be smaller than the object it stands in. -/
def find? (k : String) : (ms : List (String × Value)) → Option { v : Value // sizeOf v < sizeOf ms }
  | [] => none
  | (l, w) :: ms =>
    if k = l then some ⟨w, by simp; omega⟩
    else (find? k ms).map fun v => ⟨v.1, by have := v.2; simp; omega⟩

theorem map_val_find? (k : String) (ms : List (String × Value)) :
    (find? k ms).map Subtype.val = ms.lookup k := by
  induction ms with
  | nil => rfl
  | cons m ms ih =>
    obtain ⟨l, w⟩ := m
    by_cases h : k = l
    · simp [find?, h]
    · have hb : (k == l) = false := by simpa using h
      simp [find?, List.lookup_cons, h, hb, ← ih, Function.comp_def]

end Value
end TagCompiler
