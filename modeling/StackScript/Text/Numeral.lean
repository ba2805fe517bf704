/-!
# Numerals with a fixed shape

Instruction indices are written with at least four digits and frame offsets always with a sign.
-/

namespace StackScript.Text

/-- An instruction index, with zeros in front up to four digits. -/
def index (n : Nat) : String :=
  let ds := Nat.toDigits 10 n
  String.ofList (List.replicate (4 - ds.length) '0' ++ ds)

/-- An integer with its sign, `+` for zero. -/
def signed (i : Int) : String :=
  if 0 ≤ i then "+" ++ toString i else toString i

end StackScript.Text
