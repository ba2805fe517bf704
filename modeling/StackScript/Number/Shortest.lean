/-!
# The shortest decimal of a double

A finite positive double is `m * 2 ^ q`. The reals that round to it form an interval around it,
and of the decimals in that interval the ones with the fewest digits are wanted, and of those the
nearest. `shortest` tries one digit, two digits and so on, and each time looks at the two
neighbours of the value on that decimal grid. Everything is exact arithmetic on `Nat`.
-/

namespace StackScript.Number

/-- A positive double `mantissa * 2 ^ exponent`, and whether the gap below it is half as wide as
the gap above, as it is at a power of two. -/
structure Binary where
  mantissa : Nat
  exponent : Int
  narrowBelow : Bool

/-- The value of a finite positive double from its bit pattern. -/
def Binary.ofBits (bits : Nat) : Binary :=
  let field : Nat := bits / (1 <<< 52)
  let fraction : Nat := bits % (1 <<< 52)
  if field = 0 then ⟨fraction, -1074, false⟩
  else ⟨fraction + 1 <<< 52, (field : Int) - 1075, fraction = 0 ∧ 1 < field⟩

/-- A decimal `0.d₁d₂… * 10 ^ point`, its digits as one number. -/
structure Decimal where
  digits : Nat
  point : Int
  deriving DecidableEq, Repr

/-- The reals that round to a double, as fractions `low / unit` to `high / unit` around
`value / unit`; the two ends belong to it or not. -/
structure Interval where
  low : Nat
  value : Nat
  high : Nat
  unit : Nat
  closed : Bool

/-- The interval of a double, measured in quarters of its last place. -/
def Binary.interval (b : Binary) : Interval :=
  let e := b.exponent - 2
  let up := e.toNat
  let low := 4 * b.mantissa - (if b.narrowBelow then 1 else 2)
  { low := low <<< up
    value := (4 * b.mantissa) <<< up
    high := (4 * b.mantissa + 2) <<< up
    unit := 1 <<< (-e).toNat
    closed := b.mantissa % 2 = 0 }

/-- How many decimal digits `n` has. -/
def digitCount (n : Nat) : Nat := (Nat.toDigits 10 n).length

/-- The exponent `p` with `10 ^ (p - 1) ≤ value / unit < 10 ^ p`. -/
def Interval.point (i : Interval) : Int :=
  if i.unit ≤ i.value then (digitCount (i.value / i.unit) : Int)
  else 1 - (digitCount ((i.unit - 1) / i.value) : Int)

/-- Whether `num / den` lies in the interval. -/
def Interval.contains (i : Interval) (num den : Nat) : Bool :=
  if i.closed then i.low * den ≤ num * i.unit ∧ num * i.unit ≤ i.high * den
  else i.low * den < num * i.unit ∧ num * i.unit < i.high * den

/-- The decimal of `n` digits in the interval that is nearest to the value, if there is one; of
two that are equally near the larger. -/
def Interval.withDigits? (i : Interval) (n : Nat) : Option Decimal :=
  let p := i.point
  let e := p - (n : Int)
  let grid := Nat.pow 10 e.toNat
  let fine := Nat.pow 10 (-e).toNat
  let below := i.value * fine / (i.unit * grid)
  let rest := i.value * fine % (i.unit * grid)
  let fits (d : Nat) : Bool := i.contains (d * grid) fine
  match fits below, fits (below + 1) with
  | false, false => none
  | true, false => some ⟨below, p⟩
  | false, true => some ⟨below + 1, if below + 1 = Nat.pow 10 n then p + 1 else p⟩
  | true, true =>
    if 2 * rest < i.unit * grid then some ⟨below, p⟩
    else some ⟨below + 1, if below + 1 = Nat.pow 10 n then p + 1 else p⟩

/-- The decimal with the fewest digits that reads back as the double `bits`, for a finite positive
one: seventeen digits always suffice. -/
def shortest (bits : Nat) : Decimal :=
  let i := (Binary.ofBits bits).interval
  ((List.range 17).findSome? fun n => i.withDigits? (n + 1)).getD ⟨0, 0⟩

/-- The digits without the zeros at their end; zero keeps one. -/
def Decimal.significant (d : Decimal) : List Char :=
  match ((Nat.toDigits 10 d.digits).reverse.dropWhile (· == '0')).reverse with
  | [] => ['0']
  | ds => ds

end StackScript.Number
