import StackScript.Fault
import StackScript.Number.Nearest

/-!
# Typed access to values

Each accessor gives the payload of a value of its type and fails with a type mismatch on any other
value. `Value.toDouble` also takes an integer, to the nearest double.
-/

namespace StackScript.Value

/-- The payload of an integer. -/
def asInt : Value → Except Cause Int64
  | int n => .ok n
  | v => .error (.typeMismatch .int v.type)

/-- The payload of a double. -/
def asDouble : Value → Except Cause Double
  | double x => .ok x
  | v => .error (.typeMismatch .double v.type)

/-- The payload of a string. -/
def asString : Value → Except Cause String
  | string s => .ok s
  | v => .error (.typeMismatch .string v.type)

/-- The payload of a bool. -/
def asBool : Value → Except Cause Bool
  | bool b => .ok b
  | v => .error (.typeMismatch .bool v.type)

/-- A number as a double. -/
def toDouble : Value → Except Cause Double
  | int n => .ok (Number.ofInt n.toInt)
  | double x => .ok x
  | v => .error (.typeMismatch .double v.type)

end StackScript.Value
