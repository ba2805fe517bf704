import StackScript.Instr

/-!
# Instruction streams

A stream grows at its end only. What an instruction is never changes; of the ones already emitted
only the operands of jumps, local accesses and returns can be patched, once they are known. Each
patch names the instruction by its index and fails, changing nothing, if that is not an instruction
of the right kind.

These are all the ways to change a stream, with the reports of refused patches; the `Compiler` uses
no others. Memory is not bounded here.
-/

namespace StackScript

/-- A stream of instructions. -/
structure Code where
  instrs : Array Instr
  deriving DecidableEq

namespace Code

instance : EmptyCollection Code := ⟨⟨#[]⟩⟩

instance : Inhabited Code := ⟨∅⟩

/-- The instructions of a list in order. -/
def ofList (instrs : List Instr) : Code := ⟨instrs.toArray⟩

/-- How many instructions there are, and the index that the next one gets. -/
def size (c : Code) : Nat := c.instrs.size

/-- Whether nothing has been emitted. -/
def isEmpty (c : Code) : Bool := c.instrs.isEmpty

/-- The instruction at an index. -/
def get? (c : Code) (index : Nat) : Option Instr := c.instrs[index]?

/-- Emits an instruction and gives its index. -/
def push (c : Code) (i : Instr) : Nat × Code :=
  let instrs := c.instrs.push i
  (instrs.size - 1, ⟨instrs⟩)

/-- Emits an instruction that pushes a value. -/
def pushValue (c : Code) (v : Value) : Nat × Code := c.push (.push v)

/-- Emits an operator. -/
def pushOperator (c : Code) (op : Operator) : Nat × Code := c.push (.operator op)

/-- Emits the end of an expression. -/
def endOfExpression (c : Code) : Nat × Code := c.pushOperator .endOfExpression

/-- Emits a jump with its target left open. -/
def reserveJump (c : Code) : Nat × Code := c.push (.jump Instr.unpatched)

/-- Emits a conditional jump with its target left open. -/
def reserveJumpIfFalse (c : Code) : Nat × Code := c.push (.jumpIfFalse Instr.unpatched)

theorem push_eq (c : Code) (i : Instr) : c.push i = (c.size, ⟨c.instrs.push i⟩) := by
  rw [push, Array.size_push, Nat.add_sub_cancel, size]

/-- The kinds of instruction whose operands can be patched. -/
inductive Patchable where
  | jump
  | localAccess
  | ret
  deriving DecidableEq, Repr

/-- A patchable kind as a refused patch names it. -/
def Patchable.name : Patchable → String
  | jump => "jump"
  | localAccess => "local access"
  | ret => "return"

/-- A refused patch: the index, the kind of instruction that it was meant for and what was found
there. -/
structure PatchError where
  index : Nat
  wanted : Patchable
  found : Option Instr
  deriving DecidableEq

/-- The wording of a refused patch. -/
def PatchError.message (e : PatchError) : String :=
  let found := match e.found with
    | some i => "Some(" ++ i.description ++ ")"
    | none => "None"
  s!"instruction {e.index} is not a {e.wanted.name}: {found}"

/-- Sets the operands of the instruction at `index`, if `change` knows how. -/
def patch (c : Code) (wanted : Patchable) (index : Nat) (change : Instr → Option Instr) :
    Except PatchError Code :=
  match c.get? index with
  | none => .error ⟨index, wanted, none⟩
  | some i =>
    match change i with
    | none => .error ⟨index, wanted, some i⟩
    | some j => .ok ⟨c.instrs.setIfInBounds index j⟩

/-- Sets the target of a jump of either kind. -/
def patchJump (c : Code) (index target : Nat) : Except PatchError Code :=
  c.patch .jump index fun
    | .jump _ => some (.jump target)
    | .jumpIfFalse _ => some (.jumpIfFalse target)
    | _ => none

/-- Makes a jump lead to the next instruction that will be emitted. -/
def patchJumpHere (c : Code) (index : Nat) : Except PatchError Code :=
  c.patchJump index c.size

/-- Sets the frame offset of a local access. -/
def patchLocal (c : Code) (index : Nat) (offset : Int) : Except PatchError Code :=
  c.patch .localAccess index fun
    | .getLocal _ => some (.getLocal offset)
    | .setLocal _ => some (.setLocal offset)
    | _ => none

/-- Sets the counts of a return. -/
def patchReturn (c : Code) (index params locals : Nat) : Except PatchError Code :=
  c.patch .ret index fun
    | .ret _ _ => some (.ret params locals)
    | _ => none

end Code

end StackScript
