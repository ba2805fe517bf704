import StackScript.Operator.Typing
import StackScript.Value.Access

/-!
# Applying operators

`applyUnary` and `applyBinary` evaluate one operator on values. The typing rules decide first
whether the operands fit. Integer results are exact: one that leaves the 64-bit range is an
overflow, never a wrapped number. Doubles follow IEEE arithmetic. `==` on doubles allows for one
unit in the last place (`closeTo`), every other comparison of doubles is exact. `&&` and `||` have
both operands evaluated before they are applied.
-/

namespace StackScript

/-- The distance from 1 to the next double. -/
def epsilon : Float := Float.ofBits 0x3cb0000000000000

/-- Equality of doubles up to `epsilon`, absolute or relative to the larger operand. -/
def closeTo (a b : Double) : Bool :=
  let x := a.toFloat
  let y := b.toFloat
  let distance := (x - y).abs
  let larger := if x.abs < y.abs then y.abs else x.abs
  distance ≤ epsilon || distance ≤ larger * epsilon

namespace Operator

/-- An exact integer result, or an overflow when it leaves the 64-bit range. -/
def exactInt (op : Operator) (n : Int) : Except Cause Int64 :=
  if Int64.minValue.toInt ≤ n ∧ n ≤ Int64.maxValue.toInt then .ok (Int64.ofInt n)
  else .error (.integerOverflow op)

/-- Integer arithmetic. Division truncates toward zero and the remainder has the sign of the
dividend; a remainder overflows where its quotient does. -/
def onInts (op : Operator) (a b : Int64) : Except Cause Int64 :=
  match op with
  | add => op.exactInt (a.toInt + b.toInt)
  | sub => op.exactInt (a.toInt - b.toInt)
  | mul => op.exactInt (a.toInt * b.toInt)
  | div =>
    if b = 0 then .error .divisionByZero
    else op.exactInt (a.toInt.tdiv b.toInt)
  | mod =>
    if b = 0 then .error .divisionByZero
    else do
      let _ ← op.exactInt (a.toInt.tdiv b.toInt)
      op.exactInt (a.toInt.tmod b.toInt)
  | _ => .error (.defect (.notIntOperation op))

/-- Double arithmetic. -/
def onDoubles (op : Operator) (a b : Double) : Except Cause Double :=
  match op with
  | add => .ok (a + b)
  | sub => .ok (a - b)
  | mul => .ok (a * b)
  | div => .ok (a / b)
  | _ => .error (.defect (.notDoubleOperation op))

/-- Whether a comparison holds of operands in a given order. -/
def holdsFor (op : Operator) (o : Ordering) : Except Cause Bool :=
  match op with
  | eq => .ok (o == .eq)
  | ne => .ok (o != .eq)
  | lt => .ok (o == .lt)
  | le => .ok (o != .gt)
  | gt => .ok (o == .gt)
  | ge => .ok (o != .lt)
  | _ => .error (.defect (.notComparison op))

/-- Whether a comparison holds of two doubles. -/
def holdsOnDoubles (op : Operator) (a b : Double) : Except Cause Bool :=
  let x := a.toFloat
  let y := b.toFloat
  match op with
  | eq => .ok (closeTo a b)
  | ne => .ok (x != y)
  | lt => .ok (x < y)
  | le => .ok (x ≤ y)
  | gt => .ok (y < x)
  | ge => .ok (y ≤ x)
  | _ => .error (.defect (.notComparison op))

end Operator

/-- The order of two values of one discrete type: integers by size, strings by code points, false
before true. -/
def Value.order? : Value → Value → Option Ordering
  | .int a, .int b => some (compare a.toInt b.toInt)
  | .string a, .string b => some (compare a b)
  | .bool a, .bool b => some (compare a b)
  | _, _ => none

namespace Operator

/-- A comparison: by order where the values have one, as doubles otherwise. -/
def onOrder (op : Operator) (lhs rhs : Value) : Except Cause Bool :=
  match lhs.order? rhs with
  | some o => op.holdsFor o
  | none => do op.holdsOnDoubles (← lhs.toDouble) (← rhs.toDouble)

/-- Applies a prefix operator. -/
def applyUnary (op : Operator) (v : Value) : Except Cause Value :=
  match op.resultType? v.type none with
  | none => .error (.incompatibleOperand op v.type)
  | some _ =>
    match op, v with
    | .neg, .int n => (op.exactInt (-n.toInt)).map .int
    | .neg, .double x => .ok (.double (-x))
    | .pos, v => .ok v
    | .not, .bool b => .ok (.bool !b)
    | op, v => .error (.incompatibleOperand op v.type)

/-- Applies a binary operator whose result has type `t` and which is no comparison. -/
def applyTyped (op : Operator) (t : ValueType) (lhs rhs : Value) : Except Cause Value :=
  match op, t with
  | .and, _ => do
    let a ← lhs.asBool
    if a then return .bool (← rhs.asBool) else return .bool false
  | .or, _ => do
    let a ← lhs.asBool
    if a then return .bool true else return .bool (← rhs.asBool)
  | .add, .string => do return .string ((← lhs.asString) ++ (← rhs.asString))
  | op, .int => do return .int (← op.onInts (← lhs.asInt) (← rhs.asInt))
  | op, .double => do return .double (← op.onDoubles (← lhs.toDouble) (← rhs.toDouble))
  | op, _ => .error (.defect (.noRule op lhs.type rhs.type))

/-- Applies a binary operator. -/
def applyBinary (op : Operator) (lhs rhs : Value) : Except Cause Value :=
  match op.resultType? lhs.type (some rhs.type) with
  | none => .error (.incompatibleOperands op lhs.type rhs.type)
  | some t =>
    if op.isComparison then (op.onOrder lhs rhs).map .bool else op.applyTyped t lhs rhs

end Operator

end StackScript
