/-!
# Global variables

A global has a slot, its place in the order of first declaration. Declaring a name again gives the
slot it has.
-/

namespace StackScript

/-- The globals declared so far, by slot. -/
structure Globals where
  names : List String
  deriving DecidableEq, Repr

namespace Globals

instance : EmptyCollection Globals := ⟨⟨[]⟩⟩

instance : Inhabited Globals := ⟨∅⟩

/-- How many globals there are. -/
def size (g : Globals) : Nat := g.names.length

/-- Whether there are none. -/
def isEmpty (g : Globals) : Bool := g.names.isEmpty

/-- The slot of a name. -/
def slot? (g : Globals) (name : String) : Option Nat := g.names.idxOf? name

/-- Declares a name and gives its slot. -/
def declare (g : Globals) (name : String) : Nat × Globals :=
  match g.slot? name with
  | some slot => (slot, g)
  | none => (g.size, ⟨g.names ++ [name]⟩)

end Globals

end StackScript
