import StackScript.Double

/-!
# Values

A script computes with five types of value. `Value` is the dynamic value, `ValueType` its tag.
Integers are 64-bit; how each value is written is `Value.text` in `StackScript.Value.Text`.
-/

namespace StackScript

/-- The type of a value. -/
inductive ValueType where
  | undefined
  | int
  | double
  | string
  | bool
  deriving DecidableEq, Repr

/-- The name of a type in messages. -/
def ValueType.name : ValueType → String
  | .undefined => "undefined"
  | .int => "int"
  | .double => "double"
  | .string => "string"
  | .bool => "bool"

/-- Integers and doubles are numbers. -/
def ValueType.isNumeric : ValueType → Bool
  | .int | .double => true
  | _ => false

/-- A value of the language. -/
inductive Value where
  | undefined
  | int (n : Int64)
  | double (x : Double)
  | string (s : String)
  | bool (b : Bool)
  deriving DecidableEq

instance : Inhabited Value := ⟨.undefined⟩

/-- The type of a value. -/
def Value.type : Value → ValueType
  | .undefined => .undefined
  | .int _ => .int
  | .double _ => .double
  | .string _ => .string
  | .bool _ => .bool

end StackScript
