import StackScript.Compile
import StackScript.Image
import StackScript.Machine.Run

/-!
# Interpreting source texts

Compiling and running in one go, with standard settings and limits.
-/

namespace StackScript

/-- Why a source text has no value. -/
inductive InterpretError where
  | diagnostic (d : Diagnostic)
  | fault (f : Fault)

/-- Runs what a compiler gives. -/
def interpretWith? (compiled : Except Diagnostic Program) (fuel : Nat) :
    Option (Except InterpretError Value) :=
  match compiled with
  | .error d => some (.error (.diagnostic d))
  | .ok p => (p.run? .standard fuel).map (·.mapError .fault)

/-- The value of a source text, if its run takes at most `fuel` ticks. -/
def interpret? (source : String) (fuel : Nat) : Option (Except InterpretError Value) :=
  interpretWith? (compile .standard source) fuel

/-- The value of an expression, if its run takes at most `fuel` ticks. -/
def evaluate? (source : String) (fuel : Nat) : Option (Except InterpretError Value) :=
  interpretWith? (compileExpression .standard source) fuel

end StackScript
