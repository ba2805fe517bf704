import StackScript.CommandLine.Folder
import StackScript.CommandLine.Options
import StackScript.Compile
import StackScript.Image
import StackScript.Program.Listing

/-!
# The command line

Compiles a source file or an expression, or loads an image, and runs it; on request prints the
listing first, or writes the image instead of running. Here are its decisions, its messages and its
exit codes; what it needs of the system is a `Host`. Out of scope is the choice of a log level.
-/

namespace StackScript.CommandLine

/-- What a command leaves behind: its exit code and what it printed. -/
structure Outcome where
  exit : Nat
  stdout : String
  stderr : String
  deriving DecidableEq, Repr

/-- The answer to a request for the version. -/
def versionText : String := "cinder 0.1.0\n"

/-- The answer to a request for help. -/
def helpText : String :=
  "Compile and run Cinder programs\n\nUsage: cinder [OPTIONS] [FILE]\n\nOptions:\n" ++
  "  --expr <EXPR>\n  --bc\n  --emit <OUT>\n  --lax\n  --max-stack <N>\n  --max-depth <N>\n" ++
  "  --max-steps <N>\n  --max-nesting <N>\n  -h, --help\n  -V, --version\n"

/-- The answer to a command line that cannot be understood. -/
def usageText : String := "error: unexpected arguments\n\nUsage: cinder [OPTIONS] [FILE]\n"

/-- The last part of a path that names something, unless it leads upwards. -/
def fileName? (path : String) : Option String :=
  (namedParts path).getLast?.filter (· ≠ "..")

/-- The extension of a file name: what follows its last dot, unless it begins with its only dot. -/
def extension? (path : String) : Option String :=
  match fileName? path with
  | none => none
  | some name =>
    let reversed := name.toList.reverse
    match reversed.dropWhile (· != '.') with
    | [] | [_] => none
    | _ => some (String.ofList (reversed.takeWhile (· != '.')).reverse)

namespace Options

/-- How source texts are read. -/
def settings (o : Options) : Settings :=
  ⟨!o.lax, o.maxNesting.getD Settings.standard.maxNesting⟩

/-- The limits of the run. -/
def limits (o : Options) : Limits :=
  { maxStack := o.maxStack.getD Limits.standard.maxStack
    maxDepth := o.maxDepth.getD Limits.standard.maxDepth
    maxSteps := o.maxSteps }

end Options

section Run

variable {m : Type → Type} [Monad m] (host : Host m)

/-- The content of a file that could not be read. -/
def unreadable (file reason : String) : String := s!"Failed to read '{file}': {reason}"

/-- The program in a source file. -/
def loadSource (o : Options) (file : String) : m (Except String Program) := do
  match ← host.read file with
  | .error reason => return .error (unreadable file reason)
  | .ok bytes =>
    match String.fromUTF8? ⟨bytes.toArray⟩ with
    | none => return .error (unreadable file "stream did not contain valid UTF-8")
    | some source => return (compile o.settings source).mapError Diagnostic.text

/-- The program in an image file. -/
def loadImage (file : String) : m (Except String Program) := do
  match ← host.read file with
  | .error reason => return .error (unreadable file reason)
  | .ok bytes => return (Program.decode bytes).mapError Image.DecodeError.text

/-- The program to run, or why there is none. -/
def load (o : Options) : m (Except String Program) :=
  match o.expr, o.file with
  | some expr, _ => return (compileExpression o.settings expr).mapError Diagnostic.text
  | none, none => return .error "Error: expected a .cin file or --expr"
  | none, some file =>
    match extension? file with
    | some "cin" => loadSource host o file
    | some "cinc" => loadImage host file
    | _ => return .error s!"Error: expected a .cin or .cinc file, got {file}"

/-- A failed command, after what it has printed. -/
def failure (printed message : String) : Outcome := ⟨1, printed, message ++ "\n"⟩

/-- Writes the image of a program. -/
def emit (printed out : String) (p : Program) : m Outcome := do
  match ← host.write out p.encode with
  | .ok () => return ⟨0, printed, ""⟩
  | .error reason => return failure printed s!"Failed to write '{out}': {reason}"

/-- Runs a program and prints its result. -/
def execute (printed : String) (o : Options) (p : Program) : m Outcome := do
  match ← host.execute o.limits p with
  | .ok v => return ⟨0, printed ++ v.text ++ "\n", ""⟩
  | .error f => return failure printed f.text

/-- Carries out a command. -/
def runOptions (o : Options) : m Outcome := do
  match ← load host o with
  | .error message => return failure "" message
  | .ok p =>
    let printed := if o.listing then p.listing else ""
    match o.emit with
    | some out => emit host printed out p
    | none => execute host printed o p

/-- Carries out a command line. -/
def run (args : List String) : m Outcome :=
  match parse args with
  | .version => return ⟨0, versionText, ""⟩
  | .help => return ⟨0, helpText, ""⟩
  | .usageError => return ⟨2, "", usageText⟩
  | .run o => runOptions host o

end Run

end StackScript.CommandLine
