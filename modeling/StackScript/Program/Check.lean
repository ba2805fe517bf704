import StackScript.Program
import StackScript.Text.Numeral

/-!
# Checking a program before it runs

`Program.check` scans a program once: the stream must not be empty and must end in a return,
functions must start inside it, and every jump, call and global access must name something that is
there. It looks at operands only, not at the flow of control. The first violation is reported,
in the order stream, functions, instructions.
-/

namespace StackScript

/-- What is wrong with a program. -/
inductive Violation where
  | emptyStream
  | noFinalReturn (found : Instr)
  | functionOutside (name : String)
  | jumpOutOfRange (target : Nat)
  | callToNoEntry (target : Nat)
  | globalOutOfRange (slot : Nat)
  deriving DecidableEq

/-- The wording of a violation. -/
def Violation.message : Violation → String
  | .emptyStream => "empty instruction stream"
  | .noFinalReturn found => s!"stream must end in a return, found {found.description}"
  | .functionOutside name => s!"function '{name}' starts outside the stream"
  | .jumpOutOfRange target => s!"jump target {target} out of range"
  | .callToNoEntry target => s!"call target {target} is not a function entry"
  | .globalOutOfRange slot => s!"global slot {slot} out of range"

/-- A violation and the index it is reported at. -/
structure CheckError where
  index : Nat
  violation : Violation
  deriving DecidableEq

/-- The report of a failed check. -/
def CheckError.text (e : CheckError) : String :=
  s!"verify error at {Text.index e.index}: {e.violation.message}"

namespace Program

/-- What is wrong with one instruction of a program. -/
def instrViolation? (p : Program) : Instr → Option Violation
  | .jump target | .jumpIfFalse target =>
    if p.code.size ≤ target then some (.jumpOutOfRange target) else none
  | .call target => if (p.functionAt? target).isNone then some (.callToNoEntry target) else none
  | .getGlobal slot | .setGlobal slot =>
    if p.globals.length ≤ slot then some (.globalOutOfRange slot) else none
  | _ => none

/-- What is wrong with the stream as a whole. -/
def streamError? (p : Program) : Option CheckError :=
  match p.code.instrs.back? with
  | none => some ⟨0, .emptyStream⟩
  | some (.ret _ _) => none
  | some found => some ⟨p.code.size - 1, .noFinalReturn found⟩

/-- The first function that starts outside the stream. -/
def functionError? (p : Program) : Option CheckError :=
  p.functions.findSome? fun f =>
    if p.code.size ≤ f.entry then some ⟨f.entry, .functionOutside f.name⟩ else none

/-- The first instruction with a bad operand. -/
def operandError? (p : Program) : Option CheckError :=
  p.code.instrs.toList.zipIdx.findSome? fun (i, index) =>
    (p.instrViolation? i).map (⟨index, ·⟩)

/-- The first violation of a program, if there is one. -/
def error? (p : Program) : Option CheckError :=
  p.streamError? <|> p.functionError? <|> p.operandError?

/-- Accepts a program without violations. -/
def check (p : Program) : Except CheckError Unit :=
  match p.error? with
  | none => .ok ()
  | some e => .error e

end Program

end StackScript
