/-!
# Command line options

Options are read left to right. `--name value` and `--name=value` mean the same; a value of its own
must not begin with a hyphen, unless it is a hyphen alone. Nothing may be given twice. What asks for
the version or for help is answered when it is met, everything wrong before it counts. How help and
usage errors are worded is left open.
-/

namespace StackScript.CommandLine

/-- What a command line asks for. -/
structure Options where
  /-- The file to run. -/
  file : Option String := none
  /-- The expression to evaluate. -/
  expr : Option String := none
  /-- Whether to print a listing first. -/
  listing : Bool := false
  /-- Where to write the image instead of running. -/
  emit : Option String := none
  /-- Whether assignments may declare globals. -/
  lax : Bool := false
  maxStack : Option Nat := none
  maxDepth : Option Nat := none
  maxSteps : Option Nat := none
  maxNesting : Option Nat := none
  deriving DecidableEq, Repr

/-- The meaning of a command line. -/
inductive Request where
  | run (options : Options)
  | version
  | help
  | usageError
  deriving DecidableEq, Repr

/-- A 64-bit number, with or without a plus sign. -/
def number? (text : String) : Option Nat :=
  let digits := match text.toList with
    | '+' :: rest => rest
    | cs => cs
  if digits.isEmpty || digits.any (!·.isDigit) then none
  else
    let n := digits.foldl (fun n c => 10 * n + (c.toNat - '0'.toNat)) 0
    if n < UInt64.size then some n else none

/-- A file name, which is not empty. -/
def path? (text : String) : Option String := if text.isEmpty then none else some text

namespace Options

/-- Sets what has not been set. -/
def once {α : Type} (current value : Option α) (set : Option α → Options) : Option Options :=
  match current, value with
  | none, some a => some (set (some a))
  | _, _ => none

/-- Adds an option that has a value. -/
def withValue (o : Options) (name value : String) : Option Options :=
  match name with
  | "expr" => once o.expr (some value) fun expr => { o with expr }
  | "emit" => once o.emit (path? value) fun emit => { o with emit }
  | "max-stack" => once o.maxStack (number? value) fun maxStack => { o with maxStack }
  | "max-depth" => once o.maxDepth (number? value) fun maxDepth => { o with maxDepth }
  | "max-steps" => once o.maxSteps (number? value) fun maxSteps => { o with maxSteps }
  | "max-nesting" => once o.maxNesting (number? value) fun maxNesting => { o with maxNesting }
  | _ => none

/-- Adds an option that stands alone. -/
def withFlag (o : Options) (name : String) : Option Options :=
  match name with
  | "bc" => if o.listing then none else some { o with listing := true }
  | "lax" => if o.lax then none else some { o with lax := true }
  | _ => none

/-- Adds a file. -/
def withFile (o : Options) (name : String) : Option Options :=
  once o.file (path? name) fun file => { o with file }

/-- A complete command line: a file and an expression exclude each other. -/
def finish (o : Options) : Request :=
  if o.file.isSome && o.expr.isSome then .usageError else .run o

end Options

/-- The options that take a value. -/
def valued : List String := ["expr", "emit", "max-stack", "max-depth", "max-steps", "max-nesting"]

/-- The forms that an argument can have. -/
inductive Argument where
  /-- `--`, after which there are files only. -/
  | separator
  | long (name : String) (value : Option String)
  | short (letters : List Char)
  | plain
  deriving DecidableEq, Repr

/-- The form of an argument. -/
def Argument.ofString (arg : String) : Argument :=
  match arg.toList with
  | ['-', '-'] => .separator
  | '-' :: '-' :: rest =>
    let name := String.ofList (rest.takeWhile (· != '='))
    match rest.dropWhile (· != '=') with
    | [] => .long name none
    | _ :: value => .long name (some (String.ofList value))
  | '-' :: c :: rest => .short (c :: rest)
  | _ => .plain

/-- The files after a separator. -/
def readFiles (o : Options) : List String → Request
  | [] => o.finish
  | arg :: rest =>
    match o.withFile arg with
    | some o => readFiles o rest
    | none => .usageError

/-- Reads the arguments that remain. -/
def readArguments (o : Options) : List String → Request
  | [] => o.finish
  | arg :: rest =>
    match Argument.ofString arg with
    | .separator => readFiles o rest
    | .plain =>
      match o.withFile arg with
      | some o => readArguments o rest
      | none => .usageError
    | .short letters =>
      match letters.head? with
      | some 'V' => .version
      | some 'h' => .help
      | _ => .usageError
    | .long "version" none => .version
    | .long "help" none => .help
    | .long name (some value) =>
      match o.withValue name value with
      | some o => readArguments o rest
      | none => .usageError
    | .long name none =>
      if valued.contains name then
        match rest with
        | [] => .usageError
        | value :: rest =>
          match Argument.ofString value, o.withValue name value with
          | .plain, some o => readArguments o rest
          | _, _ => .usageError
      else
        match o.withFlag name with
        | some o => readArguments o rest
        | none => .usageError

/-- The meaning of the arguments of a command line. -/
def parse (args : List String) : Request := readArguments {} args

end StackScript.CommandLine
