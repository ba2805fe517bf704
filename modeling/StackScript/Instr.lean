import StackScript.Operator
import StackScript.Value.Text

/-!
# Instructions

A program is one linear stream of instructions. Jumps and calls name absolute indices into it,
globals are named by slot and the variables of a frame by their offset from its base. All of these
are numbers without bound.
-/

namespace StackScript

/-- An instruction. -/
inductive Instr where
  | push (v : Value)
  | getGlobal (slot : Nat)
  | setGlobal (slot : Nat)
  /-- Reads a variable of the frame: parameters have positive offsets, locals count down
  from `-1`. -/
  | getLocal (offset : Int)
  | setLocal (offset : Int)
  /-- Makes room for one local, undefined at first. -/
  | declareLocal
  | jump (target : Nat)
  /-- Takes a bool from the stack and jumps if it is false. -/
  | jumpIfFalse (target : Nat)
  | call (target : Nat)
  /-- Ends a call whose frame holds `params` arguments and `locals` locals, or the program. -/
  | ret (params locals : Nat)
  /-- Hands an operator to the reduction by priority. -/
  | operator (op : Operator)
  /-- Drops the result of a call. -/
  | pop
  deriving DecidableEq

namespace Instr

/-- The instruction that closes an expression. -/
abbrev endOfExpression : Instr := operator .endOfExpression

/-- The target of a jump whose target is not known yet, the largest 64-bit number. -/
def unpatched : Nat := UInt64.size - 1

/-- The target of either jump. -/
def jumpTarget? : Instr → Option Nat
  | jump target | jumpIfFalse target => some target
  | _ => none

/-- An instruction as messages show it. -/
def description : Instr → String
  | push v => "Push(" ++ v.description ++ ")"
  | getGlobal slot => s!"GetGlobal({slot})"
  | setGlobal slot => s!"SetGlobal({slot})"
  | getLocal offset => s!"GetLocal({offset})"
  | setLocal offset => s!"SetLocal({offset})"
  | declareLocal => "DeclareLocal"
  | jump target => s!"Jump({target})"
  | jumpIfFalse target => s!"JumpIfFalse({target})"
  | call target => s!"Call({target})"
  | ret params locals => s!"Return \x7b params: {params}, locals: {locals} \x7d"
  | operator op => "Operator(" ++ op.label ++ ")"
  | pop => "Pop"

end Instr

end StackScript
