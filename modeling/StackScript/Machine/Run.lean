import StackScript.Machine.Step
import StackScript.Program.Check

/-!
# Runs

A run repeats `tick`, which counts the step, checks the bound on steps and executes one instruction,
until the program ends or fails. Programs need not end, so `runFor` is given a number of ticks and
says nothing about a run that takes more. A program that ends does so with any sufficient number of
ticks in the same way (`runFor_add`).

A machine can run several programs one after another, and a program that does not pass its check
leaves the machine alone. Out of scope are the log of instructions and the time that a run takes.
-/

namespace StackScript

namespace Machine

section Run

variable (limits : Limits) (p : Program)

/-- Whether a number of steps is beyond the bound, and that bound. -/
def exceeded? (steps : Nat) : Option Nat :=
  limits.maxSteps.filter (· < steps)

/-- Executes the next instruction; the result of the program, if it ends. -/
def tick : EStateM Fault Machine (Option Value) := fun m =>
  let index := m.ip
  let m := { m with steps := m.steps + 1 }
  match exceeded? limits m.steps with
  | some bound => .error ((Fault.ofCause (.stepLimitExceeded bound)).locate index) m
  | none =>
    match p.code.get? index with
    | none => .error (.ofCause (.defect .indexOutOfRange)) m
    | some i =>
      match Exec.step limits p i { m with ip := index + 1 } with
      | .ok result m => .ok result m
      | .error cause m => .error ((Fault.ofCause cause).locate index) m

/-- The end of a run within a number of ticks. -/
def runFor : (fuel : Nat) → Machine → Option (EStateM.Result Fault Machine Value)
  | 0, _ => none
  | fuel + 1, m =>
    match tick limits p m with
    | .ok none m => runFor fuel m
    | .ok (some v) m => some (.ok v m)
    | .error f m => some (.error f m)

/-- A run that has ended stays as it is when more ticks are allowed. -/
theorem runFor_add {result : EStateM.Result Fault Machine Value} (fuel more : Nat) (m : Machine)
    (h : runFor limits p fuel m = some result) : runFor limits p (fuel + more) m = some result := by
  induction fuel generalizing m with
  | zero => simp [runFor] at h
  | succ fuel ih =>
    rw [Nat.add_right_comm]
    simp only [runFor] at h ⊢
    split at h
    · exact ih _ h
    · simpa using h
    · simpa using h

/-- Checks a program and runs it from the start on a machine, whatever the machine ran before. A
program that does not pass the check leaves the machine as it is. Nothing is said about a run that
takes more than `fuel` ticks. -/
def run? (fuel : Nat) (m : Machine) : Option (Except Fault Value × Machine) :=
  match p.check with
  | .error e => some (.error (.ofCause (.invalidProgram e.text)), m)
  | .ok () =>
    (runFor limits p fuel (m.start p)).map fun
      | .ok v m => (.ok v, m)
      | .error f m => (.error (f.within m.calls.toList), m)

end Run

end Machine

/-- The result of a program on a new machine. -/
def Program.run? (limits : Limits) (fuel : Nat) (p : Program) : Option (Except Fault Value) :=
  (Machine.idle.run? limits p fuel).map (·.1)

end StackScript
