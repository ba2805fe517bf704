import StackScript.Machine.Cell
import StackScript.Operator
import StackScript.Text.Numeral

/-!
# Faults of a running program

A run that does not end with a value ends with a `Fault`: a `Cause`, the index of the instruction
that failed and the functions that were active. `Cause.defect` stands for the failures that no
compiled program shows; a program assembled by hand can reach them.
-/

namespace StackScript

/-- A violation of the stack discipline, which compiled code keeps. -/
inductive Defect where
  | indexOutOfRange
  | noGlobalSlot (slot : Nat)
  | localOutsideFrame (offset : Int) (base : Nat)
  | localNotValue (offset : Int) (found : Cell)
  | stackUnderflow
  | expectedValue (found : Cell)
  | expectedSavedBase (found : Cell)
  | expectedReturnAddress (found : Cell)
  | leftAtEnd (values operators : Nat)
  | frameSize (found expected : Nat)
  | unmatchedParen
  | notIntOperation (op : Operator)
  | notDoubleOperation (op : Operator)
  | notComparison (op : Operator)
  | noRule (op : Operator) (lhs rhs : ValueType)
  /-- A violation that a user of the library words on their own. -/
  | other (reason : String)
  deriving DecidableEq

/-- The wording of a defect. -/
def Defect.message : Defect → String
  | .indexOutOfRange => "instruction pointer out of range"
  | .noGlobalSlot slot => s!"no global slot {slot}"
  | .localOutsideFrame offset base => s!"local {offset} is outside the frame (bp {base})"
  | .localNotValue offset found => s!"local {offset} resolves to {found.description}"
  | .stackUnderflow => "stack underflow"
  | .expectedValue found => s!"expected a value, found {found.description}"
  | .expectedSavedBase found => s!"expected saved bp, found {found.description}"
  | .expectedReturnAddress found => s!"expected return address, found {found.description}"
  | .leftAtEnd values operators =>
    s!"{values} value(s) and {operators} operator(s) left at program end"
  | .frameSize found expected =>
    s!"frame holds {found} slot(s) above bp, expected {expected} local(s)"
  | .unmatchedParen => "')' without matching '('"
  | .notIntOperation op => s!"'{op.symbol}' is not an int operation"
  | .notDoubleOperation op => s!"'{op.symbol}' is not a double operation"
  | .notComparison op => s!"'{op.symbol}' is not a comparison"
  | .noRule op lhs rhs => s!"no evaluation rule for {op.symbol} on {lhs.name} and {rhs.name}"
  | .other reason => reason

/-- Why a run fails. -/
inductive Cause where
  /-- An operator was applied to operands, named in `operands`, that it does not accept. -/
  | incompatibleTypes (op : Operator) (operands : String)
  | divisionByZero
  | integerOverflow (op : Operator)
  | typeMismatch (expected found : ValueType)
  | conditionNotBool (found : ValueType)
  | stackOverflow (limit : Nat)
  | callDepthExceeded (limit : Nat)
  | stepLimitExceeded (limit : Nat)
  /-- The program does not pass its check before the run. -/
  | invalidProgram (reason : String)
  | defect (d : Defect)
  deriving DecidableEq

namespace Cause

/-- The operands of a prefix operator do not fit it. -/
def incompatibleOperand (op : Operator) (operand : ValueType) : Cause :=
  incompatibleTypes op operand.name

/-- The operands of a binary operator do not fit it. -/
def incompatibleOperands (op : Operator) (lhs rhs : ValueType) : Cause :=
  incompatibleTypes op (lhs.name ++ " " ++ rhs.name)

/-- The wording of a cause. -/
def message : Cause → String
  | incompatibleTypes op operands => s!"incompatible types: {op.symbol} {operands}"
  | divisionByZero => "division by zero"
  | integerOverflow op => s!"integer overflow in '{op.symbol}'"
  | typeMismatch expected found => s!"type error: expected {expected.name}, got {found.name}"
  | conditionNotBool found => s!"condition must be bool, got {found.name}"
  | stackOverflow limit => s!"stack size limit exceeded ({limit})"
  | callDepthExceeded limit =>
    s!"call depth limit exceeded ({limit}) - possible infinite recursion"
  | stepLimitExceeded limit => s!"execution step limit exceeded ({limit})"
  | invalidProgram reason => s!"invalid bytecode: {reason}"
  | defect d => s!"internal error: {d.message}"

end Cause

/-- A failed run: its cause, the instruction that failed and the active functions, outermost
first. -/
structure Fault where
  cause : Cause
  index : Option Nat
  calls : List String
  deriving DecidableEq

namespace Fault

/-- A fault of which only the cause is known. -/
def ofCause (cause : Cause) : Fault := ⟨cause, none, []⟩

/-- Records the failing instruction, unless one is recorded already. -/
def locate (f : Fault) (index : Nat) : Fault :=
  { f with index := f.index.or (some index) }

/-- Records the active functions, unless some are recorded already. -/
def within (f : Fault) (calls : List String) : Fault :=
  if f.calls.isEmpty then { f with calls } else f

/-- One line for each active function, innermost first. -/
def trace (calls : List String) : String :=
  String.join (calls.reverse.zipIdx.map fun (name, i) => s!"\n    {i}: {name}")

/-- The report of a fault. -/
def text (f : Fault) : String :=
  let place := match f.index with
    | some index => s!" (at instruction {Text.index index})"
    | none => ""
  let stack := if f.calls.isEmpty then "" else "\n  call stack:" ++ trace f.calls
  "runtime error: " ++ f.cause.message ++ place ++ stack

end Fault

end StackScript
