import StackScript.CommandLine

/-!
# The program

The command line on the files of the system. A run is given more and more ticks until it ends.
-/

namespace StackScript

/-- The reason of a failed access to a file. -/
def ioReason : IO.Error → String
  | .noFileOrDirectory _ _ _ => CommandLine.FileError.notFound.text
  | .permissionDenied _ code _ => s!"Permission denied (os error {code})"
  | .inappropriateType _ code _ =>
    if code = 20 then CommandLine.FileError.notDirectory.text
    else CommandLine.FileError.isDirectory.text
  | e => toString e

/-- The outcome of an action with its failure as a reason. -/
def attempt {α : Type} (action : IO α) : IO (Except String α) :=
  try return .ok (← action)
  catch e => return .error (ioReason e)

/-- Asks with more and more fuel until there is an answer. -/
partial def untilSome {α : Type} [Nonempty α] (answer : Nat → Option α) (fuel : Nat) : IO α :=
  match answer fuel with
  | some a => return a
  | none => untilSome answer (2 * fuel)

/-- The system as the host of the command line. -/
def systemHost : CommandLine.Host IO where
  read name := attempt do
    return (← IO.FS.readBinFile name).data.toList
  write name bytes := attempt (IO.FS.writeBinFile name ⟨bytes.toArray⟩)
  execute limits p := untilSome (fun fuel => p.run? limits fuel) (1 <<< 20)

end StackScript

/-- Runs the command line. -/
def main (args : List String) : IO UInt32 := do
  let outcome ← StackScript.CommandLine.run StackScript.systemHost args
  (← IO.getStdout).putStr outcome.stdout
  (← IO.getStderr).putStr outcome.stderr
  return UInt32.ofNat outcome.exit
