import StackScript.Operator
import StackScript.Value

/-!
# Result types of operators

`Operator.resultType?` says which operand types an operator accepts and what type it yields.
Evaluation in `StackScript.Operator.Apply` consults it first, so an operator applied to types
that it does not accept fails before any payload is looked at.
-/

namespace StackScript

/-- An integer beside a double counts as a double. -/
def ValueType.promote : ValueType → ValueType → ValueType × ValueType
  | .int, .double | .double, .int => (.double, .double)
  | left, right => (left, right)

namespace Operator

/-- The result type of a prefix operator. -/
def unaryType? : Operator → ValueType → Option ValueType
  | .neg, .int | .pos, .int => some .int
  | .neg, .double | .pos, .double => some .double
  | .not, .bool => some .bool
  | _, _ => none

/-- The result type of a binary operator, the first rule that fits:
* `undefined` is never an operand;
* operands of one type, after promotion, can be compared;
* operands of one type other than `bool`, after promotion, can be added;
* numbers have `+ - * /`, which yield a double as soon as one side is one, and integers `%`;
* bools have `&&` and `||`. -/
def binaryType? (op : Operator) (lhs rhs : ValueType) : Option ValueType :=
  let (left, right) := ValueType.promote lhs rhs
  if lhs = .undefined ∨ rhs = .undefined then none
  else if left = right ∧ op.isComparison then some .bool
  else if left = right ∧ op = .add ∧ left ≠ .bool then some left
  else if lhs.isNumeric ∧ rhs.isNumeric ∧ op ∈ [Operator.add, .sub, .mul, .div] then
    some (if lhs = .double ∨ rhs = .double then .double else .int)
  else if lhs = .int ∧ rhs = .int ∧ op = .mod then some .int
  else if lhs = .bool ∧ rhs = .bool ∧ op ∈ [Operator.and, .or] then some .bool
  else none

/-- The type of `op` applied to operands of types `lhs` and `rhs`; a prefix operator has no `rhs`
and does not look at one. -/
def resultType? (op : Operator) (lhs : ValueType) (rhs : Option ValueType) : Option ValueType :=
  if op.isUnary then op.unaryType? lhs else rhs.bind (op.binaryType? lhs)

end Operator

end StackScript
