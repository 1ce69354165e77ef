import TagCompiler.Decimal.Double
/-!
The fewest decimal digits that still name a given double.

The reals that round to `x` form an interval around it, whose ends belong to it when the mantissa
is even. For one digit, two digits, and so on, the two decimals next to the value are tried; the
first that lies in the interval wins, the nearer of two, and the even one of two equally near.
Everything is exact arithmetic on natural numbers.
-/

namespace TagCompiler

/-- The decimal `digits · 10^exponent`. -/
structure Decimal where
  digits : Nat
  exponent : Int
  deriving DecidableEq

namespace Decimal

/-- Writes the same value without a trailing zero, for at most `n` zeros. -/
def stripZeros : Nat → Decimal → Decimal
  | 0, d => d
  | n + 1, d =>
    if d.digits ≠ 0 ∧ d.digits % 10 = 0 then stripZeros n ⟨d.digits / 10, d.exponent + 1⟩ else d

end Decimal

def powerOfTen (n : Nat) : Nat := Nat.pow 10 n

/-- The interval of reals that round to a double: `low`, `value` and `high` over the common
denominator `unit`, and whether the ends belong to it. -/
structure RoundingInterval where
  low : Nat
  value : Nat
  high : Nat
  unit : Nat
  closed : Bool

namespace RoundingInterval

def ofDouble (x : Double) : RoundingInterval :=
  let m := x.mantissa
  let below := if x.fractionBits = 0 ∧ 1 < x.exponentBits then 1 else 2
  let q := x.exponent - 2
  let scale := 1 <<< q.toNat
  ⟨(4 * m - below) * scale, 4 * m * scale, (4 * m + 2) * scale, 1 <<< (-q).toNat, m % 2 == 0⟩

/-- Measures the interval in units of `10^e`. -/
def inUnits (i : RoundingInterval) (e : Int) : RoundingInterval :=
  let up := powerOfTen (-e).toNat
  ⟨i.low * up, i.value * up, i.high * up, i.unit * powerOfTen e.toNat, i.closed⟩

def contains (i : RoundingInterval) (n : Nat) : Bool :=
  if i.closed then i.low ≤ n * i.unit && n * i.unit ≤ i.high
  else i.low < n * i.unit && n * i.unit < i.high

/-- The integer of the interval next to its value, if there is one. -/
def nearest? (i : RoundingInterval) : Option Nat :=
  let d := i.value / i.unit
  match i.contains d, i.contains (d + 1) with
  | true, true =>
    let below := i.value - d * i.unit
    let above := (d + 1) * i.unit - i.value
    if below < above ∨ (below = above ∧ d % 2 = 0) then some d else some (d + 1)
  | true, false => some d
  | false, true => some (d + 1)
  | false, false => none

/-- The exponent of the leading decimal digit of the value, which is not zero. -/
def leadingExponent (i : RoundingInterval) : Int :=
  if i.unit ≤ i.value then (Nat.toDigits 10 (i.value / i.unit)).length - 1
  else
    match (List.range 400).find? fun k => i.unit ≤ i.value * powerOfTen k with
    | some k => -k
    | none => -400

end RoundingInterval

/-- The shortest decimal that rounds to the magnitude of `x`. -/
def Double.shortest (x : Double) : Decimal :=
  if x.isZero then ⟨0, 0⟩
  else
    let i := RoundingInterval.ofDouble x
    let lead := i.leadingExponent
    let found := (List.range 17).findSome? fun (n : Nat) =>
      let e := lead - n
      (i.inUnits e).nearest?.map fun d => (⟨d, e⟩ : Decimal)
    ((found.getD ⟨0, 0⟩).stripZeros 17)

end TagCompiler
