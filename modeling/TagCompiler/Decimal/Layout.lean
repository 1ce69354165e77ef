import TagCompiler.Decimal.Shortest
/-!
How a double is written.

`DoubleLayout` holds the decisions of a number format; `Double.text` writes the shortest digits
under them. `Double.standard` is the format of JSON data and of rendered expressions.
-/

namespace TagCompiler

/-- The decisions of a number format: which leading exponents are written positionally, and how an
exponent is marked. -/
structure DoubleLayout where
  leastPositional : Int
  greatestPositional : Int
  mark : String
  plus : String

/-- Positional from 0.00001 up to below 10^16, always with a point; otherwise an exponent with its
sign. -/
def DoubleLayout.standard : DoubleLayout := ⟨-5, 15, "e", "+"⟩

namespace DoubleLayout

/-- The digits `ds` with the point after the digit of exponent zero, the first having exponent
`lead`. -/
def positional (ds : List Char) (lead : Int) : List Char :=
  if lead < 0 then '0' :: '.' :: (List.replicate (-lead - 1).toNat '0' ++ ds)
  else
    let whole := lead.toNat + 1
    let padded := ds ++ List.replicate (whole - ds.length) '0'
    let fraction := ds.drop whole
    padded.take whole ++ '.' :: (if fraction.isEmpty then ['0'] else fraction)

def scientific (l : DoubleLayout) (ds : List Char) (lead : Int) : List Char :=
  let mantissa :=
    match ds with
    | d :: e :: r => d :: '.' :: e :: r
    | ds => ds
  let sign := if lead < 0 then "-" else l.plus
  mantissa ++ l.mark.toList ++ sign.toList ++ Nat.toDigits 10 lead.natAbs

end DoubleLayout

def Double.text (l : DoubleLayout) (x : Double) : String :=
  let d := x.shortest
  let ds := Nat.toDigits 10 d.digits
  let lead := d.exponent + (ds.length - 1)
  let body :=
    if l.leastPositional ≤ lead ∧ lead ≤ l.greatestPositional then DoubleLayout.positional ds lead
    else l.scientific ds lead
  String.ofList (if x.isNegative then '-' :: body else body)

end TagCompiler
