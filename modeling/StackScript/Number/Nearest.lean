import StackScript.Double

/-!
# The nearest double

Reading a decimal and promoting an integer both ask for the double nearest to an exact quotient.
`nearestBits num den` is its bit pattern: the quotient is scaled to 53 significant bits, or to the
fixed last place of the subnormal range, and rounded once, a half going to the even neighbour.
-/

namespace StackScript.Number

/-- The integer nearest to `num / den`, a half going to the even one. -/
def roundDiv (num den : Nat) : Nat :=
  let q := num / den
  let twice := 2 * (num % den)
  if twice < den then q
  else if den < twice then q + 1
  else q + q % 2

/-- `num / (den * 2 ^ e)` as a numerator and a denominator. -/
def scaleDown (num den : Nat) (e : Int) : Nat × Nat :=
  if 0 ≤ e then (num, den <<< e.toNat) else (num <<< (-e).toNat, den)

/-- The exponent `e` for which `num / den` is `m * 2 ^ e` with `2 ^ 52 ≤ m < 2 ^ 53`, raised to the
least exponent of a double. -/
def lastPlace (num den : Nat) : Int :=
  let e : Int := (num.log2 : Int) - (den.log2 : Int) - 52
  let (n, d) := scaleDown num den e
  max (if n < d <<< 52 then e - 1 else e) (-1074)

/-- The bit pattern of the double nearest to `num / den`, for positive `den`; a quotient beyond the
range of doubles gives infinity. -/
def nearestBits (num den : Nat) : Nat :=
  if num = 0 then 0
  else
    let e := lastPlace num den
    let (n, d) := scaleDown num den e
    min ((e + 1074).toNat <<< 52 + roundDiv n d) Double.infinity

/-- The double nearest to `m * 10 ^ e`. Exponents so large or so small that the result is infinite
or zero whatever the digits are decided without forming the power. -/
def ofDecimal (m : Nat) (e : Int) : Double :=
  .ofMagnitude <|
    if m = 0 then 0
    else if 400 < e then Double.infinity
    else if e < -(400 + (m.log2 : Int)) then 0
    else if 0 ≤ e then nearestBits (m * Nat.pow 10 e.toNat) 1
    else nearestBits m (Nat.pow 10 (-e).toNat)

/-- The double nearest to an integer. -/
def ofInt (n : Int) : Double :=
  let x := Double.ofMagnitude (nearestBits n.natAbs 1)
  if n < 0 then -x else x

end StackScript.Number
