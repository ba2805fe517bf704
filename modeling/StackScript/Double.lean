/-!
# Doubles

A double is an IEEE binary64 number, held by its bit pattern. Arithmetic is that of `Float`, which
knows a single NaN; the pattern keeps NaNs apart, so that a constant leaves a program as it came in.
What that arithmetic computes is out of scope.
-/

namespace StackScript

/-- An IEEE binary64 number. -/
structure Double where
  bits : UInt64
  deriving DecidableEq, Repr

namespace Double

/-- The number for arithmetic, every NaN as the same one. -/
def toFloat (x : Double) : Float := Float.ofBits x.bits

/-- A result of arithmetic. -/
def ofFloat (x : Float) : Double := ⟨x.toBits⟩

/-- The value of the sign bit. -/
def signBit : Nat := 1 <<< 63

/-- The bits other than the sign, as a number. -/
def magnitude (x : Double) : Nat := x.bits.toNat % signBit

/-- Whether the sign is set. -/
def isNegative (x : Double) : Bool := signBit ≤ x.bits.toNat

/-- The magnitude of the infinities; what lies above it is a NaN. -/
def infinity : Nat := 0x7ff <<< 52

/-- Whether a double is no number. -/
def isNaN (x : Double) : Bool := infinity < x.magnitude

/-- The double with a magnitude that is not negative. -/
def ofMagnitude (m : Nat) : Double := ⟨UInt64.ofNat m⟩

instance : Add Double := ⟨fun a b => ofFloat (a.toFloat + b.toFloat)⟩

instance : Sub Double := ⟨fun a b => ofFloat (a.toFloat - b.toFloat)⟩

instance : Mul Double := ⟨fun a b => ofFloat (a.toFloat * b.toFloat)⟩

instance : Div Double := ⟨fun a b => ofFloat (a.toFloat / b.toFloat)⟩

/-- The other sign, also of a zero. -/
instance : Neg Double := ⟨fun x => ⟨x.bits ^^^ 0x8000000000000000⟩⟩

end Double

end StackScript
