import StackScript.Fault
import StackScript.Program

/-!
# The machine

The state of a run. Values, arguments, frame links and locals share one stack; pending operators
wait on a stack of their own, the last one first. The base is the height of the stack at which the
locals of the current frame begin. What a machine does is in `Machine.Step` and `Machine.Run`.
-/

namespace StackScript

/-- The bounds of a run. -/
structure Limits where
  maxStack : Nat
  maxDepth : Nat
  /-- How many instructions may be executed, if there is a bound. -/
  maxSteps : Option Nat
  deriving DecidableEq, Repr

/-- Ten thousand cells, a thousand nested calls, any number of steps. -/
def Limits.standard : Limits := ⟨10000, 1000, none⟩

/-- The state of a machine. -/
structure Machine where
  stack : Array Cell
  operators : List Operator
  globals : Array Value
  /-- The index of the next instruction. -/
  ip : Nat
  /-- The height at which the locals of the current frame begin. -/
  base : Nat
  /-- The active functions, outermost first. -/
  calls : Array String
  /-- How many instructions have been started. -/
  steps : Nat
  deriving DecidableEq

namespace Machine

/-- A machine that has run nothing. -/
def idle : Machine := ⟨#[], [], #[], 0, 0, #[], 0⟩

instance : Inhabited Machine := ⟨idle⟩

/-- Forgets everything that a machine has run. -/
def reset (_ : Machine) : Machine := idle

/-- Makes a machine ready to run a program: of what it ran before nothing stays, and all globals
are undefined. -/
def start (m : Machine) (p : Program) : Machine :=
  { m.reset with globals := Array.replicate p.globals.length .undefined }

/-- The address of the variable with an offset in the current frame, if it is on the stack. -/
def address? (m : Machine) (offset : Int) : Option Nat :=
  let address := (m.base : Int) - 1 - offset
  if 0 ≤ address ∧ address < m.stack.size then some address.toNat else none

end Machine

end StackScript
