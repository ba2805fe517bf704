import StackScript.Double
import StackScript.Number.Shortest

/-!
# How doubles are written

The digits of a double are the shortest that read back. `Layout` holds what is left to decide:
between which powers of ten the number is written out, and how many fraction digits it then has at
least; outside that range it is written with an exponent.
-/

namespace StackScript.Number

/-- The decisions of a number format. -/
structure Layout where
  /-- The least decimal point that is written out. -/
  leastPoint : Int
  /-- The greatest decimal point that is written out. -/
  greatestPoint : Int
  /-- The least number of digits after the point of a number written out. -/
  fractionDigits : Nat

/-- From `10 ^ -4` up to `10 ^ 16` a number is written out with at least one fraction digit. -/
def Layout.standard : Layout := ⟨-3, 16, 1⟩

/-- The digits `ds` with the decimal point after `point` of them, zeros filling either side. -/
def positional (layout : Layout) (ds : List Char) (point : Int) : List Char :=
  let whole :=
    if point ≤ 0 then ['0']
    else ds.take point.toNat ++ List.replicate (point.toNat - ds.length) '0'
  let fraction := List.replicate (-point).toNat '0' ++ ds.drop point.toNat
  whole ++ '.' :: (fraction ++ List.replicate (layout.fractionDigits - fraction.length) '0')

/-- The digits `ds` with the point after the first and the power of ten behind an `e`. -/
def scientific (ds : List Char) (point : Int) : List Char :=
  let lead := ds.take 1
  let fraction := ds.drop 1
  lead ++ (if fraction.isEmpty then [] else '.' :: fraction) ++ 'e' :: (toString (point - 1)).toList

/-- The text of a finite positive double. -/
def positiveText (layout : Layout) (bits : Nat) : List Char :=
  let d := shortest bits
  let ds := d.significant
  if layout.leastPoint ≤ d.point ∧ d.point ≤ layout.greatestPoint then positional layout ds d.point
  else scientific ds d.point

/-- The text of a double. -/
def text (x : Double) : String :=
  if x.isNaN then "NaN"
  else
    let body :=
      if x.magnitude = Double.infinity then "inf".toList
      else if x.magnitude = 0 then positional .standard [] 0
      else positiveText .standard x.magnitude
    String.ofList (if x.isNegative then '-' :: body else body)

end StackScript.Number
