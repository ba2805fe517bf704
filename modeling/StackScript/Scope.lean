import StackScript.Scope.Frame
import StackScript.Scope.Globals
import StackScript.Script

/-!
# Scopes

What names mean at a point of a source text. The variables of the function that is being read hide
globals of the same name. A function can call itself and the functions that are complete.
-/

namespace StackScript

/-- What a caller has to know of a function. -/
structure Signature where
  name : String
  arity : Nat
  deriving DecidableEq, Repr

/-- The names known at a point of a source text. -/
structure Scope where
  globals : Globals
  /-- The complete functions, by number. -/
  functions : List Signature
  /-- The function that is being read. -/
  frame : Option Frame

namespace Scope

instance : EmptyCollection Scope := ⟨⟨∅, [], none⟩⟩

instance : Inhabited Scope := ⟨∅⟩

/-- Where the variable of a name lives. -/
def place? (s : Scope) (name : String) : Option Place :=
  match s.frame.bind (·.find? name) with
  | some v => some (.frame v.ordinal)
  | none => (s.globals.slot? name).map .global

/-- Whether a complete function has a name. -/
def hasFunction (s : Scope) (name : String) : Bool := s.functions.any (·.name == name)

/-- The number and the arity of the complete function of a name. -/
def complete? (s : Scope) (name : String) : Option (Nat × Nat) :=
  (s.functions.findIdx? (·.name == name)).bind fun i =>
    (s.functions[i]?).map fun f => (i, f.arity)

/-- The number and the arity of the function that a name means. -/
def function? (s : Scope) (name : String) : Option (Nat × Nat) :=
  match s.frame with
  | some f => if f.name = name then some (s.functions.length, f.params) else s.complete? name
  | none => s.complete? name

end Scope

end StackScript
