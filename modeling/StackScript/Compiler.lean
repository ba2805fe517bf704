import StackScript.Scope.Frame
import StackScript.Scope.Globals
import StackScript.Settings
import StackScript.Source.Cursor

/-!
# The compiler

A compiler goes once through a source text and emits instructions as it completes the rules of the
grammar; no tree is built. What an instruction needs to know of the text behind it is left open when
it is emitted and patched later:

* the targets of jumps, as soon as they are reached;
* the offsets of locals and the counts of returns, at the end of the function, from the lists of
  fix-ups that it keeps. Only then it is known how many variables a frame has.

Each rule of the grammar is a `Compiler`; the rules that nest take the one for what is inside them
as an argument, and `expression` and `body` tie the knot on the number of levels that may still be
opened. That number only makes the recursion structural: too deep a nesting is noticed by the depth
that is counted in the state (`enter`). Every turn of a `loop` consumes some of the text, so as many
turns as there are bytes are enough.

A fault that no text is to blame for is complained about as `internal`: a patch that is refused, a
local that is not found, or the end of a function where none is open.

This is the whole of the compiler but for the log that it keeps. Indices, slots and offsets are
numbers without bound; that the offsets of what is compiled fit 32 bits is `Program.IsNarrow`.
-/

namespace StackScript

/-- The function whose body is being compiled. -/
structure OpenFunction where
  frame : Frame
  /-- The index of its first instruction. -/
  entry : Nat
  /-- The accesses to variables of the frame that were emitted without an offset, by the index of
  the instruction and the name of the variable. -/
  localFixups : List (Nat × String)
  /-- The returns that were emitted without counts. -/
  returnFixups : List Nat
  deriving DecidableEq

/-- The state of a compiler. -/
structure Compilation where
  position : Nat
  code : Code
  globals : Globals
  /-- The complete functions, in the order of their code. -/
  functions : List FunctionEntry
  current : Option OpenFunction
  /-- How many expressions and bodies are open. -/
  depth : Nat
  deriving DecidableEq

/-- What a name is as a variable. -/
inductive VariableRef where
  /-- A parameter or a local of the current function. -/
  | frame
  | global (slot : Nat)
  deriving DecidableEq, Repr

namespace Compilation

instance : EmptyCollection Compilation := ⟨⟨0, ∅, ∅, [], none, 0⟩⟩

instance : Inhabited Compilation := ⟨∅⟩

/-- The entry and the arity of the complete function of a name. -/
def complete? (c : Compilation) (name : String) : Option (Nat × Nat) :=
  (c.functions.find? (·.name == name)).map fun f => (f.entry, f.params)

/-- The entry and the arity of the function that a name means. A function can call itself. -/
def function? (c : Compilation) (name : String) : Option (Nat × Nat) :=
  match c.current with
  | some f => if f.frame.name = name then some (f.entry, f.frame.params) else c.complete? name
  | none => c.complete? name

/-- The variable that a name means. Variables of the current function hide globals. -/
def resolve? (c : Compilation) (name : String) : Option VariableRef :=
  if (c.current.bind (·.frame.find? name)).isSome then some .frame
  else (c.globals.slot? name).map .global

/-- The program of all that has been compiled. -/
def program (c : Compilation) : Program := ⟨c.code, c.globals.names, c.functions⟩

end Compilation

/-- Compiles a part of a source text. -/
abbrev Compiler := ReaderT String (EStateM Rejection Compilation)

namespace Compiler

variable {α σ : Type}

/-! ## Building blocks -/

/-- Runs a cursor from the position on. -/
def scan (x : Cursor α) : Compiler α := fun source c =>
  match x source c.position with
  | .ok a position => .ok a { c with position }
  | .error e position => .error e { c with position }

/-- Refuses the text at a position. -/
def refuseAt (position : Nat) (complaint : Complaint) : Compiler α := fun _ c =>
  .error ⟨complaint, position⟩ c

/-- Refuses the text here. -/
def refuse (complaint : Complaint) : Compiler α := fun _ c => .error ⟨complaint, c.position⟩ c

/-- Gives up because of a fault of the compiler. -/
def internal (reason : String) : Compiler α := refuse (.internal reason)

/-- Emits an instruction and gives its index. -/
def emit (push : Code → Nat × Code) : Compiler Nat := fun _ c =>
  let (index, code) := push c.code
  .ok index { c with code }

/-- Patches an instruction that was emitted. -/
def patch (change : Code → Except Code.PatchError Code) : Compiler Unit := fun source c =>
  match change c.code with
  | .ok code => .ok () { c with code }
  | .error e => internal e.message source c

/-- Opens one level of nesting. -/
def enter (settings : Settings) : Compiler Unit := do
  if settings.maxNesting ≤ (← get).depth then refuse (.nestingTooDeep settings.maxNesting)
  modify fun c => { c with depth := c.depth + 1 }

/-- Closes a level of nesting. -/
def leave : Compiler Unit := modify fun c => { c with depth := c.depth - 1 }

/-- A compiler that is one level deeper. -/
def nested (settings : Settings) (compiler : Compiler Unit) : Compiler Unit := do
  enter settings
  compiler
  leave

/-- Takes turns until one gives nothing, at most so many. -/
def turns (turn : σ → Compiler (Option σ)) : (bound : Nat) → σ → Compiler σ
  | 0, _ => internal "a rule of the grammar consumed nothing"
  | bound + 1, s => do
    match ← turn s with
    | none => return s
    | some s => turns turn bound s

/-- Takes turns until one gives nothing. -/
def loop (turn : σ → Compiler (Option σ)) (s : σ) : Compiler σ := fun source c =>
  turns turn (source.utf8ByteSize - c.position + 1) s source c

/-- A turn that says whether there is another one. -/
def whileTurn (turn : Compiler Bool) (_ : Unit) : Compiler (Option Unit) := do
  if ← turn then return some () else return none

/-- Repeats a turn as long as it says so. -/
def repeatWhile (turn : Compiler Bool) : Compiler Unit := loop (whileTurn turn) ()

/-- A comma and an item after it, unless `stop`. -/
def commaTurn (item : σ → Compiler σ) (stop : Compiler Bool) (comma : Compiler Unit) (s : σ) :
    Compiler (Option σ) := do
  if ← stop then return none
  comma
  return some (← item s)

/-- An item and more after it until `stop`, commas between them. -/
def commaList (item : σ → Compiler σ) (stop : Compiler Bool) (comma : Compiler Unit) (s : σ) :
    Compiler σ := do
  let s ← item s
  loop (commaTurn item stop comma) s

/-- Takes a character or complains that it is missing. -/
def expect (c : Char) : Compiler Unit := do
  unless ← scan (.symbol c) do
    refuse (.expected s!"'{c}'")

/-- A name, which is no keyword, and its position. -/
def name (what : String) : Compiler (String × Nat) := do
  scan .skipBlanks
  let position := (← get).position
  match ← scan .identifier with
  | none => refuse (.expected what)
  | some word =>
    if Lexeme.isKeyword word then refuseAt position (.reservedWord word)
    else return (word, position)

/-- Items in parentheses of which the opening one has been taken. -/
def parenthesised (item : σ → Compiler σ) (s : σ) : Compiler σ := do
  if ← scan (.symbol ')') then return s
  commaList item (scan (.symbol ')')) (expect ',') s

/-! ## Variables and returns -/

/-- Notes that the offset of a local access has to be filled in. -/
def noteLocal (index : Nat) (name : String) : Compiler Unit := modify fun c =>
  { c with current := c.current.map fun f =>
      { f with localFixups := f.localFixups ++ [(index, name)] } }

/-- Reads a variable. -/
def emitLoad (name : String) (position : Nat) : Compiler Unit := do
  match (← get).resolve? name with
  -- offsets are known when the function ends, and `0` holds the place
  | some .frame => noteLocal (← emit (·.push (.getLocal 0))) name
  | some (.global slot) => let _ ← emit (·.push (.getGlobal slot))
  | none => refuseAt position (.undeclaredVariable name)

/-- What an assignment to a name stores to. -/
def storeTarget (settings : Settings) (name : String) (position : Nat) : Compiler VariableRef := do
  let c ← get
  match c.resolve? name with
  | some target => return target
  | none =>
    if settings.strict || c.current.isSome then refuseAt position (.undeclaredVariable name)
    else
      let (slot, globals) := c.globals.declare name
      modify fun c => { c with globals }
      return .global slot

/-- Writes a variable. -/
def emitStore (settings : Settings) (name : String) (position : Nat) : Compiler Unit := do
  match ← storeTarget settings name position with
  | .frame => noteLocal (← emit (·.push (.setLocal 0))) name
  | .global slot => let _ ← emit (·.push (.setGlobal slot))

/-- Emits a return. Inside a function its counts have to be filled in. -/
def emitReturn : Compiler Unit := do
  let index ← emit (·.push (.ret 0 0))
  modify fun c => { c with current := c.current.map fun f =>
    { f with returnFixups := f.returnFixups ++ [index] } }

/-! ## Expressions -/

section Expressions

variable (inner : Compiler Unit)

/-- An expression and its end. -/
def closed : Compiler Unit := do
  inner
  let _ ← emit (·.endOfExpression)

/-- The arguments and the call of `name`. -/
def call (name : String) (position : Nat) : Compiler Unit := do
  match (← get).function? name with
  | none => refuseAt position (.undeclaredFunction name)
  | some (target, arity) =>
    let _ ← emit (·.pushOperator .prepareCall)
    let found ← parenthesised (fun found => do closed inner; return found + 1) 0
    if found = arity then let _ ← emit (·.push (.call target))
    else refuseAt position (.argumentCount name arity found)

/-- A variable or a call. -/
def reference : Compiler Unit := do
  let (name, position) ← name "operand"
  if ← scan (.symbol '(') then call inner name position else emitLoad name position

/-- A group, a literal, a variable or a call. -/
def primary : Compiler Unit := do
  if ← scan (.symbol '(') then
    let _ ← emit (·.pushOperator .openParen)
    inner
    expect ')'
    let _ ← emit (·.pushOperator .closeParen)
    return
  if let some s ← scan .string then
    let _ ← emit (·.pushValue (.string s))
    return
  if let some v ← scan .number then
    let _ ← emit (·.pushValue v)
    return
  if ← scan (.word "true") then
    let _ ← emit (·.pushValue (.bool true))
    return
  if ← scan (.word "false") then
    let _ ← emit (·.pushValue (.bool false))
    return
  reference inner

/-- A primary with at most one prefix operator. -/
def operand : Compiler Unit := do
  if let some op ← scan .unaryOperator then
    let _ ← emit (·.pushOperator op)
  primary inner

/-- A binary operator with its right operand, if there is one. -/
def continuation : Compiler Bool := do
  match ← scan .binaryOperator with
  | none => return false
  | some op =>
    let _ ← emit (·.pushOperator op)
    operand inner
    return true

/-- Operands with binary operators between them. -/
def chain : Compiler Unit := do
  operand inner
  repeatWhile (continuation inner)

end Expressions

section Grammar

variable (settings : Settings)

/-- An expression, of which at most `levels` levels can be opened. -/
def expression : (levels : Nat) → Compiler Unit
  | 0 => nested settings (internal "more levels than are allowed")
  | levels + 1 => nested settings (chain (expression levels))

/-! ## Declarations -/

/-- Makes a name known as a variable: a local inside a function, else a global. -/
def declare (name : String) (position : Nat) : Compiler Unit := do
  match (← get).current with
  | some f =>
    match f.frame.addLocal? name with
    | none => refuseAt position (.duplicateLocal f.frame.name name)
    | some frame =>
      modify fun c => { c with current := some { f with frame } }
      let _ ← emit (·.push .declareLocal)
  | none => modify fun c => { c with globals := (c.globals.declare name).2 }

/-- One declared variable. It is known in its own initial value. -/
def declaration : Compiler Unit := do
  let (name, position) ← name "variable name"
  declare name position
  if ← scan (.symbol '=') then
    closed (expression settings settings.maxNesting)
    emitStore settings name position

/-- One `var`, if there is one. -/
def declarationGroup : Compiler Bool := do
  if ← scan (.word "var") then
    commaList (fun () => declaration settings) (do return !(← scan (.symbol ','))) (return ()) ()
    expect ';'
    return true
  return false

/-- All declarations here. -/
def declarations : Compiler Unit := repeatWhile (declarationGroup settings)

/-! ## Statements -/

/-- A statement, unless a closing brace comes first. -/
def blockTurn (statement : Compiler Unit) : Compiler Bool := do
  if ← scan (.symbol '}') then return false
  if ← scan .atEnd then refuse (.expected "'\x7d'")
  statement
  return true

/-- Statements up to a closing brace. -/
def untilBrace (statement : Compiler Unit) : Compiler Unit := repeatWhile (blockTurn statement)

/-- The statement of a `return`. -/
def returnStatement (expr : Compiler Unit) : Compiler Unit := do
  if ← scan (.symbol ';') then
    let _ ← emit (·.pushValue .undefined)
  else
    closed expr
    expect ';'
  emitReturn

/-- The statement of an `if`. -/
def ifStatement (expr body : Compiler Unit) : Compiler Unit := do
  closed expr
  let toElse ← emit (·.reserveJumpIfFalse)
  body
  if ← scan (.word "else") then
    let toEnd ← emit (·.reserveJump)
    patch (·.patchJumpHere toElse)
    body
    patch (·.patchJumpHere toEnd)
  else patch (·.patchJumpHere toElse)

/-- The statement of a `while`. -/
def whileStatement (expr body : Compiler Unit) : Compiler Unit := do
  let start := (← get).code.size
  closed expr
  let toExit ← emit (·.reserveJumpIfFalse)
  body
  let backEdge ← emit (·.reserveJump)
  patch (·.patchJump backEdge start)
  patch (·.patchJumpHere toExit)

/-- Complains about a declaration among statements. -/
def misplacedDeclaration (position : Nat) : Compiler α := do
  refuseAt position <| .expected <|
    if (← get).current.isSome then "local declarations only at the start of a function body"
    else "global declarations only before the first statement"

/-- A call or an assignment. -/
def plainStatement (expr : Compiler Unit) : Compiler Unit := do
  let (name, position) ← name "statement"
  if ← scan (.symbol '(') then
    call expr name position
    expect ';'
    let _ ← emit (·.push .pop)
    return
  if ← scan (.symbol '=') then
    closed expr
    emitStore settings name position
    expect ';'
    return
  refuse (.expected "'=' or '('")

/-- A statement, from compilers for expressions and bodies. -/
def statementWith (expr body : Compiler Unit) : Compiler Unit := do
  if ← scan (.word "return") then return ← returnStatement expr
  if ← scan (.word "if") then return ← ifStatement expr body
  if ← scan (.word "while") then return ← whileStatement expr body
  scan .skipBlanks
  let position := (← get).position
  if ← scan (.word "var") then misplacedDeclaration position
  plainStatement settings expr

/-- Statements in braces or a single one. -/
def bodyOf (statement : Compiler Unit) : Compiler Unit := do
  if ← scan (.symbol '{') then untilBrace statement else statement

/-- A body, of which at most `levels` levels can be opened. -/
def body : (levels : Nat) → Compiler Unit
  | 0 => nested settings (internal "more levels than are allowed")
  | levels + 1 =>
    nested settings (bodyOf (statementWith settings (expression settings levels) (body levels)))

/-- A statement outside all bodies. -/
def statement : Compiler Unit :=
  statementWith settings (expression settings settings.maxNesting)
    (body settings settings.maxNesting)

/-! ## Functions and programs -/

/-- One more parameter of a frame. -/
def parameter (frame : Frame) : Compiler Frame := do
  let (name, position) ← name "parameter name"
  match frame.addParameter? name with
  | some frame => return frame
  | none => refuseAt position (.duplicateParameter frame.name name)

/-- Fills in the offset of a local access. -/
def fixLocal (frame : Frame) (fixup : Nat × String) : Compiler Unit :=
  match (frame.find? fixup.2).bind (·.offset) with
  | some offset => patch (·.patchLocal fixup.1 offset)
  | none => internal s!"unresolved local '{fixup.2}'"

/-- Completes the current function: its variables get their offsets, and all accesses and returns
that wait for them are filled in. -/
def finishFunction : Compiler Unit := do
  match (← get).current with
  | none => internal "no function is being compiled"
  | some f =>
    modify fun c => { c with current := none }
    let frame := f.frame.assignOffsets
    f.localFixups.forM (fixLocal frame)
    f.returnFixups.forM fun index => patch (·.patchReturn index frame.params frame.locals)
    modify fun c => { c with functions := c.functions ++ [frame.toEntry f.entry] }

/-- A function after its keyword. Its header emits nothing, so it starts at the next index. -/
def function : Compiler Unit := do
  let (name, position) ← name "function name"
  let c ← get
  if c.functions.any (·.name == name) then refuseAt position (.duplicateFunction name)
  expect '('
  let frame ← parenthesised parameter (.empty name)
  modify fun c' => { c' with current := some ⟨frame, c.code.size, [], []⟩ }
  expect '{'
  declarations settings
  untilBrace (statement settings)
  -- also behind a return, as the compiler does not follow the flow of control
  let _ ← emit (·.pushValue (.int 0))
  let _ ← emit (·.endOfExpression)
  emitReturn
  finishFunction

/-- One function, if there is one. -/
def functionTurn : Compiler Bool := do
  if ← scan (.word "function") then
    function settings
    return true
  return false

/-- All functions here. -/
def functions : Compiler Unit := repeatWhile (functionTurn settings)

/-- A statement, unless the text ends. -/
def statementTurn : Compiler Bool := do
  if ← scan .atEnd then return false
  statement settings
  return true

/-- A whole program: declarations, a jump over the functions, the functions, more declarations and
the statements to run. Where it does not return it gives `0`. -/
def program : Compiler Program := do
  declarations settings
  let skip ← emit (·.reserveJump)
  functions settings
  patch (·.patchJumpHere skip)
  declarations settings
  repeatWhile (statementTurn settings)
  let _ ← emit (·.pushValue (.int 0))
  let _ ← emit (·.endOfExpression)
  let _ ← emit (·.push (.ret 0 0))
  return (← get).program

/-- The program of an expression with nothing after it. -/
def wholeExpression : Compiler Program := do
  expression settings settings.maxNesting
  unless ← scan .atEnd do
    refuse .expectedEnd
  let _ ← emit (·.endOfExpression)
  let _ ← emit (·.push (.ret 0 0))
  return (← get).program

end Grammar

/-- Compiles a source text from its beginning. -/
def run (compiler : Compiler α) (source : String) : Except Diagnostic α :=
  match compiler source ∅ with
  | .ok a _ => .ok a
  | .error e _ => .error (.atPosition source e.position e.complaint)

end Compiler

end StackScript
