import TagCompiler.Decimal.Double
/-!
Decimal numerals as doubles, by one scaling.

A numeral is a run of digits and a power of ten. `Significand` keeps as many leading digits as fit
into 64 bits; `Double.ofScaled?` converts that integer to a double and scales it once, so that the
result can differ from the nearest double in the last place when the numeral has very many digits.
-/

namespace TagCompiler

/-- The leading digits of a numeral, and the power of ten to scale them by. -/
structure Significand where
  digits : Nat
  scale : Int

namespace Significand

def greatest : Nat := 0xFFFFFFFFFFFFFFFF

/-- Adds the digits before the point: one that does not fit, and all after it, only raise the
scale. -/
def addWhole (m : Significand) : List Nat → Significand
  | [] => m
  | d :: ds =>
    if 10 * m.digits + d ≤ greatest ∧ m.scale = 0 then addWhole ⟨10 * m.digits + d, 0⟩ ds
    else ⟨m.digits, m.scale + (ds.length + 1)⟩

/-- Adds the digits after the point: one that does not fit, and all after it, are dropped. -/
def addFraction (m : Significand) : List Nat → Significand
  | [] => m
  | d :: ds =>
    if 10 * m.digits + d ≤ greatest then addFraction ⟨10 * m.digits + d, m.scale - 1⟩ ds else m

end Significand

/-- The value `x · 10^e`; `none` beyond the largest double. -/
def scaleFloat? (x : Float) (e : Int) : Option Float :=
  if e.natAbs ≤ 308 then
    let p := Float.ofScientific 1 false e.natAbs
    if 0 ≤ e then
      let y := x * p
      if y.isFinite then some y else none
    else some (x / p)
  else if x == 0 then some x
  else if 0 ≤ e then none
  else scaleFloat? (x / 1e308) (e + 308)
termination_by e.natAbs
decreasing_by omega

def Double.ofScaled? (negative : Bool) (m : Significand) : Option Double := do
  let x ← scaleFloat? m.digits.toUInt64.toFloat m.scale
  Double.ofFloat? (if negative then -x else x)

end TagCompiler
