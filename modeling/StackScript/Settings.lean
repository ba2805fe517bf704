/-!
# Settings

How source texts are compiled. The command line and the interpreter choose them.
-/

namespace StackScript

/-- How source texts are read. -/
structure Settings where
  /-- Refuse assignments to names that are not declared. Otherwise such an assignment declares a
  global, if it stands outside all functions and once its right side has been read. -/
  strict : Bool
  /-- How deep parentheses, arguments and bodies may nest. -/
  maxNesting : Nat
  deriving DecidableEq, Repr

/-- Strict, with 256 levels. -/
def Settings.standard : Settings := ⟨true, 256⟩

end StackScript
