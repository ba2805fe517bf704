import StackScript.Code

/-!
# Programs

What a machine runs: the instruction stream, the names of the globals by slot, and the functions
with the indices where their bodies start.
-/

namespace StackScript

/-- A function of a program: its name, where its body starts and the size of its frame. -/
structure FunctionEntry where
  name : String
  entry : Nat
  params : Nat
  locals : Nat
  deriving DecidableEq, Repr

/-- An executable program. -/
structure Program where
  code : Code
  globals : List String
  functions : List FunctionEntry
  deriving DecidableEq

/-- The first function whose body starts at an index. -/
def Program.functionAt? (p : Program) (index : Nat) : Option FunctionEntry :=
  p.functions.find? (·.entry == index)

end StackScript
