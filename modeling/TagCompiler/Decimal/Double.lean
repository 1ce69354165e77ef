/-!
Finite binary floating point numbers of 64 bits, as data.

A `Double` is known by its bits, so that equality is decidable; `sameValue` is the comparison of
numbers, under which the two zeros agree. Every number here is finite.
-/

namespace TagCompiler

structure Double where
  bits : UInt64
  deriving DecidableEq

namespace Double

/-- The double with the value of `x`, if that is finite. -/
def ofFloat? (x : Float) : Option Double := if x.isFinite then some ⟨x.toBits⟩ else none

def toFloat (x : Double) : Float := Float.ofBits x.bits

/-- The value m · 10^(-places), rounded to the nearest double; `none` if that is beyond the
largest one. -/
def ofDecimal? (negative : Bool) (m places : Nat) : Option Double :=
  let x := Float.ofScientific m true places
  ofFloat? (if negative then -x else x)

def isNegative (x : Double) : Bool := x.bits >>> 63 == 1

/-- The bits of the exponent. -/
def exponentBits (x : Double) : Nat := ((x.bits >>> 52) &&& 0x7FF).toNat

/-- The bits of the fraction. -/
def fractionBits (x : Double) : Nat := (x.bits &&& 0xFFFFFFFFFFFFF).toNat

def isZero (x : Double) : Bool := x.exponentBits == 0 && x.fractionBits == 0

def sameValue (x y : Double) : Bool := x == y || (x.isZero && y.isZero)

/-- The magnitude is `mantissa · 2^exponent`. -/
def mantissa (x : Double) : Nat :=
  if x.exponentBits = 0 then x.fractionBits else x.fractionBits + 0x10000000000000

def exponent (x : Double) : Int :=
  if x.exponentBits = 0 then -1074 else (x.exponentBits : Int) - 1075

end Double
end TagCompiler
