import StackScript.Machine.Run

/-!
# What a command line needs of its surroundings

Reading and writing files and waiting for a program to end are left to a `Host`.
-/

namespace StackScript.CommandLine

/-- The surroundings of a command line. A failed access to a file gives its reason. -/
structure Host (m : Type → Type) where
  read : String → m (Except String (List UInt8))
  write : String → List UInt8 → m (Except String Unit)
  /-- Runs a program to its end. -/
  execute : Limits → Program → m (Except Fault Value)

/-- Why a file cannot be read or written. -/
inductive FileError where
  | notFound
  | notDirectory
  | isDirectory
  | nameTooLong
  deriving DecidableEq, Repr

/-- The wording of a failed access. -/
def FileError.text : FileError → String
  | notFound => "No such file or directory (os error 2)"
  | notDirectory => "Not a directory (os error 20)"
  | isDirectory => "Is a directory (os error 21)"
  | nameTooLong => "File name too long (os error 36)"

end StackScript.CommandLine
