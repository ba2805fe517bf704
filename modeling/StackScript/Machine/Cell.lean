import StackScript.Value.Text

/-!
# Stack cells

Temporaries, arguments, locals and the links between frames share one stack. The two link cells
have constructors of their own, so a value is never taken for an address.
-/

namespace StackScript

/-- One cell of the machine's stack. -/
inductive Cell where
  /-- A temporary, an argument or a local. -/
  | value (v : Value)
  /-- Where the caller goes on. -/
  | returnAddress (index : Nat)
  /-- The caller's frame base. -/
  | savedBase (base : Nat)
  deriving DecidableEq

instance : Inhabited Cell := ⟨.value .undefined⟩

/-- A cell as messages show it. -/
def Cell.description : Cell → String
  | .value v => "Value(" ++ v.description ++ ")"
  | .returnAddress index => "ReturnAddress(" ++ toString index ++ ")"
  | .savedBase base => "SavedBp(" ++ toString base ++ ")"

end StackScript
