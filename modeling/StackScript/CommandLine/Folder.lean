import StackScript.CommandLine.Host

/-!
# Files held in memory

`Folder` is a working folder with the files in it, and the folders that their names imply. A path is
followed part by part, and each part, also an empty one or a dot, is looked for in a folder. Of what
lies outside the working folder only the folders above it and the root are known. Permissions and
links are out of scope.
-/

namespace StackScript.CommandLine

/-- Where something is: the names on the way from the working folder, with `..` at the front for
the folders above it, or with `/` at the front for the root. -/
abbrev Location := List String

namespace Location

/-- The folder around a location. -/
def parent (l : Location) : Location :=
  match l.getLast? with
  | none | some ".." => l ++ [".."]
  | some "/" => l
  | some _ => l.dropLast

/-- Whether a location is known without any file: the working folder, one above it or the root. -/
def isOuter (l : Location) : Bool := l = ["/"] || l.all (· = "..")

end Location

/-- The parts of a path. -/
def pathParts (path : String) : List String :=
  (path.toList.splitOn '/').map String.ofList

/-- The parts of a path that name something. -/
def namedParts (path : String) : List String :=
  (pathParts path).filter fun part => part ≠ "" ∧ part ≠ "."

/-- The longest name of a file, in bytes. -/
def maxName : Nat := 255

/-- The longest path, in bytes. -/
def maxPath : Nat := 4095

/-- A working folder. -/
structure Folder where
  files : List (Location × List UInt8)
  deriving DecidableEq, Repr

namespace Folder

/-- The folder with files of given names. -/
def ofFiles (files : List (String × List UInt8)) : Folder :=
  ⟨files.map fun (name, bytes) => (namedParts name, bytes)⟩

/-- The content of the file at a location. -/
def find? (f : Folder) (l : Location) : Option (List UInt8) := f.files.lookup l

/-- Whether a location is a folder. -/
def isFolder (f : Folder) (l : Location) : Bool :=
  l.isOuter || f.files.any fun file => l.isPrefixOf file.1.dropLast

/-- Fails where there is no folder. -/
def needFolder (f : Folder) (l : Location) : Except FileError Unit :=
  if f.isFolder l then .ok ()
  else if (f.find? l).isSome then .error .notDirectory
  else .error .notFound

/-- Follows one part of a path. -/
def enter (f : Folder) (l : Location) (part : String) : Except FileError Location := do
  f.needFolder l
  match part with
  | "" | "." => return l
  | ".." => return l.parent
  | name => if maxName < name.utf8ByteSize then throw .nameTooLong else return l ++ [name]

/-- Follows the parts of a path. -/
def follow (f : Folder) : List String → Except FileError Location
  | "" :: rest => rest.foldlM f.enter ["/"]
  | parts => parts.foldlM f.enter []

/-- Fails for a path that is too long. -/
def needShort (path : String) : Except FileError Unit :=
  if maxPath < path.utf8ByteSize then .error .nameTooLong else .ok ()

/-- The content of the file that a path leads to. -/
def read (f : Folder) (path : String) : Except FileError (List UInt8) := do
  needShort path
  let l ← f.follow (pathParts path)
  if f.isFolder l then throw .isDirectory
  match f.find? l with
  | some bytes => return bytes
  | none => throw .notFound

/-- The location of the file that a path is to be written to. A path that ends in a slash means a
folder, whether there is one or not. -/
def target (f : Folder) (path : String) : Except FileError Location := do
  needShort path
  let parts := pathParts path
  if parts.getLast? = some "" then
    let named := (parts.reverse.dropWhile (· = "")).reverse
    f.needFolder (← f.follow named.dropLast)
    throw .isDirectory
  let l ← f.follow parts
  if f.isFolder l then throw .isDirectory
  return l

/-- Writes a file, in place of one at the same location. -/
def write (f : Folder) (path : String) (bytes : List UInt8) : Except FileError Folder := do
  let l ← f.target path
  return ⟨(l, bytes) :: f.files.filter (·.1 ≠ l)⟩

/-- The folder as the host of the command line, with a way to run programs. -/
def host (execute : Limits → Program → Except Fault Value) : Host (StateM Folder) where
  read path f := ((f.read path).mapError FileError.text, f)
  write path bytes f :=
    match f.write path bytes with
    | .ok f => (.ok (), f)
    | .error e => (.error e.text, f)
  execute limits p := return execute limits p

end Folder

end StackScript.CommandLine
