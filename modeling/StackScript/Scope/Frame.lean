import StackScript.Program

/-!
# Frames

The variables of a function: parameters and locals, numbered in the order they are declared. On the
stack a frame is laid out, growing upwards, as

    argument 0 … argument p-1, return address, saved base, ‹base› local 0 … local l-1

and a variable is addressed by its offset below the cell under the base: parameter `i` of `p` has
offset `p - i + 1`, local `k` has `-1 - k`. Offsets are known once all parameters are. They are
integers without bound; when they fit 32 bits is said by `Frame.narrow_offset`.
-/

namespace StackScript

/-- A variable of a frame. -/
structure FrameVariable where
  name : String
  /-- Its place in the order of declaration. -/
  ordinal : Nat
  isParameter : Bool
  /-- Its frame offset, once assigned. -/
  offset : Option Int
  deriving DecidableEq, Repr

/-- The variables of one function. -/
structure Frame where
  name : String
  params : Nat
  vars : List FrameVariable
  deriving DecidableEq, Repr

namespace Frame

/-- The frame of a function of which no variable is known yet. -/
def empty (name : String) : Frame := ⟨name, 0, []⟩

/-- The variable of a name. -/
def find? (f : Frame) (name : String) : Option FrameVariable :=
  f.vars.find? (·.name == name)

/-- The number of locals. -/
def locals (f : Frame) : Nat := f.vars.length - f.params

/-- The variable that a new name gets. -/
def next (f : Frame) (name : String) (isParameter : Bool) : FrameVariable :=
  ⟨name, f.vars.length, isParameter, none⟩

/-- Adds a parameter, unless the name is taken. -/
def addParameter? (f : Frame) (name : String) : Option Frame :=
  if (f.find? name).isSome then none
  else some { f with params := f.params + 1, vars := f.vars ++ [f.next name true] }

/-- Adds a local, unless the name is taken. -/
def addLocal? (f : Frame) (name : String) : Option Frame :=
  if (f.find? name).isSome then none
  else some { f with vars := f.vars ++ [f.next name false] }

/-- The frame offset of the variable with an ordinal, in a frame of `params` parameters. -/
def offset (params ordinal : Nat) (isParameter : Bool) : Int :=
  if isParameter then (params : Int) - ordinal + 1 else -1 - ((ordinal : Int) - params)

/-- Assigns every variable its offset. -/
def assignOffsets (f : Frame) : Frame :=
  { f with vars := f.vars.map fun v =>
      { v with offset := some (offset f.params v.ordinal v.isParameter) } }

/-- The function of a program that has this frame and starts at `entry`. -/
def toEntry (f : Frame) (entry : Nat) : FunctionEntry := ⟨f.name, entry, f.params, f.locals⟩

end Frame

end StackScript
