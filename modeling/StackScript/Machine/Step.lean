import StackScript.Machine
import StackScript.Operator.Apply

/-!
# Steps of the machine

`step` executes one instruction. An operator that arrives first reduces the pending operators that
bind at least as tightly, down to the nearest barrier, and then waits itself; prefix operators
reduce nothing. A call leaves a return address and the caller's base on the stack. A return below a
pending `prepareCall` unwinds one frame, any other ends the program, and then the stacks must hold
the result alone.

All instructions are here, with all the defects that they notice. Out of scope is the log of calls
and returns.
-/

namespace StackScript

/-- A computation of the machine, which keeps its state when it fails. -/
abbrev Exec := EStateM Cause Machine

namespace Exec

/-- Fails by a violation of the stack discipline. -/
def violate {α : Type} (d : Defect) : Exec α := throw (.defect d)

/-- Takes over the outcome of an evaluation. -/
def ofExcept {α : Type} : Except Cause α → Exec α
  | .ok a => pure a
  | .error c => throw c

/-! ## The stack -/

section Stack

variable (limits : Limits)

/-- Pushes a cell, within the bound. -/
def pushCell (c : Cell) : Exec Unit := fun m =>
  if m.stack.size < limits.maxStack then .ok () { m with stack := m.stack.push c }
  else .error (.stackOverflow limits.maxStack) m

/-- Pushes a value. -/
def push (v : Value) : Exec Unit := pushCell limits (.value v)

/-- Pops a cell. -/
def popCell : Exec Cell := fun m =>
  match m.stack.back? with
  | some c => .ok c { m with stack := m.stack.pop }
  | none => .error (.defect .stackUnderflow) m

/-- Pops a value. -/
def pop : Exec Value := do
  match ← popCell with
  | .value v => return v
  | c => violate (.expectedValue c)

/-- Pops a number of values. -/
def drop : (count : Nat) → Exec Unit
  | 0 => return ()
  | count + 1 => do
    let _ ← pop
    drop count

/-- Reads a variable of the frame. -/
def getLocal (offset : Int) : Exec Value := do
  let m ← get
  match m.address? offset with
  | none => violate (.localOutsideFrame offset m.base)
  | some address =>
    match m.stack[address]? with
    | some (.value v) => return v
    | some c => violate (.localNotValue offset c)
    | none => violate (.localOutsideFrame offset m.base)

/-- Writes a variable of the frame. -/
def setLocal (offset : Int) (v : Value) : Exec Unit := fun m =>
  match m.address? offset with
  | none => .error (.defect (.localOutsideFrame offset m.base)) m
  | some address =>
    match m.stack[address]? with
    | some (.value _) => .ok () { m with stack := m.stack.setIfInBounds address (.value v) }
    | some c => .error (.defect (.localNotValue offset c)) m
    | none => .error (.defect (.localOutsideFrame offset m.base)) m

/-- Reads a global. -/
def getGlobal (slot : Nat) : Exec Value := do
  match (← get).globals[slot]? with
  | some v => return v
  | none => violate (.noGlobalSlot slot)

/-- Writes a global. -/
def setGlobal (slot : Nat) (v : Value) : Exec Unit := fun m =>
  if slot < m.globals.size then .ok () { m with globals := m.globals.setIfInBounds slot v }
  else .error (.defect (.noGlobalSlot slot)) m

/-! ## Operators -/

/-- Applies a pending operator to the operands on the stack. -/
def reduce (op : Operator) : Exec Unit := do
  if op.isUnary then
    let v ← pop
    push limits (← ofExcept (op.applyUnary v))
  else
    let rhs ← pop
    let lhs ← pop
    push limits (← ofExcept (op.applyBinary lhs rhs))

/-- Sets the pending operators. -/
def setOperators (ops : List Operator) : Exec Unit := fun m => .ok () { m with operators := ops }

/-- Makes an operator wait. -/
def await (op : Operator) : Exec Unit := fun m =>
  .ok () { m with operators := op :: m.operators }

/-- Whether an operator that is pending has to be reduced before `op`. -/
def yieldsTo (op pending : Operator) : Bool :=
  !pending.isBarrier && op.priority ≤ pending.priority

/-- Takes off the next pending operator, which has to be an opening parenthesis. -/
def removeParen : Exec Unit := do
  let ops := (← get).operators
  -- whatever is next is gone also where the machine fails
  setOperators ops.tail
  unless ops.head? = some .openParen do violate .unmatchedParen

section Apply

variable (apply : Operator → Exec Unit)

/-- Takes off the pending operators `ops` one by one and applies each, as long as a test holds of
them. -/
def applyWhile (test : Operator → Bool) : (ops : List Operator) → Exec Unit
  | [] => return ()
  | op :: rest =>
    if test op then do
      setOperators rest
      apply op
      applyWhile test rest
    else return ()

/-- Applies everything pending up to the matching parenthesis, and removes that. -/
def closeGroup : Exec Unit := do
  applyWhile apply (!·.isBarrier) (← get).operators
  removeParen

/-- Applies what has to be reduced before `op`. -/
def settle (op : Operator) : Exec Unit := do
  applyWhile apply (yieldsTo op) (← get).operators

/-- Takes in an operator of the instruction stream, where `apply` applies the pending ones. -/
def operatorBy (op : Operator) : Exec Unit :=
  match op with
  | .openParen | .prepareCall | .not | .neg | .pos => await op
  | .closeParen => closeGroup apply
  | .endOfExpression => settle apply op
  | _ => do
    settle apply op
    await op

end Apply

/-- Takes in an operator of the instruction stream. -/
def operator (op : Operator) : Exec Unit := operatorBy (reduce limits) op

/-! ## Calls -/

/-- Continues at an index. -/
def jump (target : Nat) : Exec Unit := fun m => .ok () { m with ip := target }

/-- Takes a condition from the stack and continues at an index if it is false. -/
def jumpIfFalse (target : Nat) : Exec Unit := do
  match ← pop with
  | .bool true => return ()
  | .bool false => jump target
  | v => throw (.conditionNotBool v.type)

/-- The name of the function at an index in a report of active functions. -/
def callName (p : Program) (target : Nat) : String :=
  match p.functionAt? target with
  | some f => f.name
  | none => "<" ++ Text.index target ++ ">"

/-- Opens the frame of a function. -/
def enter (name : String) (target : Nat) : Exec Unit := fun m =>
  .ok () { m with base := m.stack.size, ip := target, calls := m.calls.push name }

/-- Calls the function at an index. -/
def call (p : Program) (target : Nat) : Exec Unit := do
  if limits.maxDepth ≤ (← get).calls.size then throw (.callDepthExceeded limits.maxDepth)
  pushCell limits (.returnAddress (← get).ip)
  pushCell limits (.savedBase (← get).base)
  enter (callName p target) target

/-- Ends the program, if nothing is left but its result. -/
def finish : Exec Value := do
  let result ← pop
  let m ← get
  if m.stack.isEmpty && m.operators.isEmpty then return result
  violate (.leftAtEnd m.stack.size m.operators.length)

/-- Takes the caller's base from the stack. -/
def restoreBase : Exec Unit := do
  match ← popCell with
  | .savedBase base => modify fun m => { m with base }
  | c => violate (.expectedSavedBase c)

/-- Takes the return address from the stack. -/
def restoreAddress : Exec Unit := do
  match ← popCell with
  | .returnAddress index => modify fun m => { m with ip := index }
  | c => violate (.expectedReturnAddress c)

/-- Forgets the innermost active function. -/
def leave : Exec Unit := fun m => .ok () { m with calls := m.calls.pop }

/-- Unwinds a frame and leaves the result in its place. The height of the frame is a sum without
bound; the machines of a checked program would notice no difference if it were one of 64 bits
(`Held.height_iff_wrapped`). -/
def unwind (params locals : Nat) : Exec Unit := do
  let result ← pop
  let m ← get
  if m.stack.size ≠ m.base + locals then violate (.frameSize (m.stack.size - m.base) locals)
  drop locals
  restoreBase
  restoreAddress
  drop params
  leave
  push limits result

/-- Returns from a function, or gives the result of the program. -/
def ret (params locals : Nat) : Exec (Option Value) := do
  match (← get).operators with
  | .prepareCall :: rest =>
    setOperators rest
    unwind limits params locals
    return none
  | _ => return some (← finish)

/-! ## Instructions -/

/-- Executes one instruction; the result of the program, if it ends. -/
def step (p : Program) : Instr → Exec (Option Value)
  | .push v => do push limits v; return none
  | .getGlobal slot => do push limits (← getGlobal slot); return none
  | .setGlobal slot => do setGlobal slot (← pop); return none
  | .getLocal offset => do push limits (← getLocal offset); return none
  | .setLocal offset => do setLocal offset (← pop); return none
  | .declareLocal => do push limits .undefined; return none
  | .jump target => do jump target; return none
  | .jumpIfFalse target => do jumpIfFalse target; return none
  | .call target => do call limits p target; return none
  | .ret params locals => ret limits params locals
  | .operator op => do operator limits op; return none
  | .pop => do let _ ← pop; return none

end Stack

end Exec

end StackScript
