import StackScript.Scope
import StackScript.Settings
import StackScript.Source.Scanner

/-!
# Reading scripts

A reader goes once through a source text, resolves every name as it meets it and stops at the first
complaint. Each rule of the grammar is a reader; the rules that nest take the reader for what is
inside them as an argument, and `expression` and `body` tie the knot on the number of levels that
may still be opened. Every turn of a `loop` consumes some of the text, so as many turns as there are
characters are enough.

The compiler makes no trees. Readers are the grammar with trees, and with `Script.program` what the
compiler is compared with (`compile_eq`).
-/

namespace StackScript

/-- The state of a reader: the text that remains and the names known so far. -/
structure Reading where
  rest : List Char
  scope : Scope

/-- Reads a part of a script. -/
abbrev Reader := EStateM Refusal Reading

namespace Reader

variable {α : Type}

/-! ## Building blocks -/

/-- Runs a scanner on the text that remains. -/
def scan (s : Scanner α) : Reader α := fun r =>
  match s r.rest with
  | .ok a rest => .ok a { r with rest }
  | .error e rest => .error e { r with rest }

/-- Refuses the text here. -/
def refuse (c : Complaint) : Reader α := fun r => .error ⟨c, r.rest⟩ r

/-- Refuses the text where `place` remained to be read. -/
def refuseAt (place : List Char) (c : Complaint) : Reader α := fun r => .error ⟨c, place⟩ r

/-- The names known here. -/
def scope : Reader Scope := fun r => .ok r.scope r

/-- Changes the known names. -/
def setScope (s : Scope) : Reader Unit := fun r => .ok () { r with scope := s }

/-- Reads items until there is none, at most `turns` of them. -/
def many (item : Reader (Option α)) : (turns : Nat) → Reader (List α)
  | 0 => refuse (.internal "a rule of the grammar consumed nothing")
  | turns + 1 => do
    match ← item with
    | none => return []
    | some a =>
      let rest ← many item turns
      return a :: rest

/-- Reads items until there is none. -/
def loop (item : Reader (Option α)) : Reader (List α) := fun r =>
  many item (r.rest.length + 1) r

/-- A comma and an item after it, unless `stop`. -/
def commaTurn (item : Reader α) (stop : Reader Bool) (comma : Reader Unit) : Reader (Option α) := do
  if ← stop then return none
  comma
  return some (← item)

/-- Reads an item and more after it until `stop`, commas between them. -/
def commaList (item : Reader α) (stop : Reader Bool) (comma : Reader Unit) : Reader (List α) := do
  let first ← item
  let rest ← loop (commaTurn item stop comma)
  return first :: rest

/-- Takes a character or complains that it is missing. -/
def expect (c : Char) : Reader Unit := do
  unless ← scan (.symbol c) do
    refuse (.expected s!"'{c}'")

/-- A name, which is no keyword, and the text from it on. -/
def name (what : String) : Reader (String × List Char) := do
  scan .skipBlanks
  let place := (← get).rest
  match ← scan .identifier with
  | none => refuse (.expected what)
  | some word =>
    if Lexeme.isKeyword word then refuseAt place (.reservedWord word) else return (word, place)

/-- Items in parentheses of which the opening one has been read. -/
def parenthesised (item : Reader α) : Reader (List α) := do
  if ← scan (.symbol ')') then return []
  commaList item (scan (.symbol ')')) (expect ',')

/-! ## Expressions -/

section Expressions

variable (inner : Reader Expr)

/-- The arguments of a call of `name`, and the number of the function. -/
def call (name : String) (place : List Char) : Reader (Nat × List Expr) := do
  match (← scope).function? name with
  | none => refuseAt place (.undeclaredFunction name)
  | some (callee, arity) =>
    let args ← parenthesised inner
    if args.length = arity then return (callee, args)
    else refuseAt place (.argumentCount name arity args.length)

/-- A variable or a call. -/
def reference : Reader Expr := do
  let (name, place) ← name "operand"
  if ← scan (.symbol '(') then
    let (callee, args) ← call inner name place
    return .call name callee args
  match (← scope).place? name with
  | some p => return .var name p
  | none => refuseAt place (.undeclaredVariable name)

/-- A group, a literal, a variable or a call. -/
def primary : Reader Expr := do
  if ← scan (.symbol '(') then
    let e ← inner
    expect ')'
    return .group e
  if let some s ← scan .string then return .literal (.string s)
  if let some v ← scan .number then return .literal v
  if ← scan (.word "true") then return .literal (.bool true)
  if ← scan (.word "false") then return .literal (.bool false)
  reference inner

/-- A primary with at most one prefix operator. -/
def operand : Reader Expr := do
  match ← scan .unaryOperator with
  | some op => return .unary op (← primary inner)
  | none => primary inner

/-- A binary operator with its right operand, if there is one. -/
def continuation : Reader (Option (Operator × Expr)) := do
  match ← scan .binaryOperator with
  | none => return none
  | some op => return some (op, ← operand inner)

/-- Operands with binary operators between them. -/
def chain : Reader Expr := do
  let first ← operand inner
  let rest ← loop (continuation inner)
  return rest.foldl (fun e (op, operand) => e.extend op operand) first

end Expressions

section Grammar

variable (settings : Settings)

/-- Refuses one level of nesting too many. -/
def tooDeep : Reader α := refuse (.nestingTooDeep settings.maxNesting)

/-- An expression with at most `levels` levels. -/
def expression : (levels : Nat) → Reader Expr
  | 0, r => tooDeep settings r
  | levels + 1, r => chain (fun r => expression levels r) r

/-! ## Declarations -/

/-- Makes a name known as a variable: a local inside a function, else a global. -/
def declare (name : String) (place : List Char) : Reader Place := do
  let s ← scope
  match s.frame with
  | some frame =>
    match frame.addLocal? name with
    | some frame' =>
      setScope { s with frame := some frame' }
      return .frame frame.vars.length
    | none => refuseAt place (.duplicateLocal frame.name name)
  | none =>
    let (slot, globals) := s.globals.declare name
    setScope { s with globals }
    return .global slot

/-- One declared variable. It is known in its own initial value. -/
def declaration : Reader Decl := do
  let (name, place) ← name "variable name"
  let target ← declare name place
  if ← scan (.symbol '=') then
    return ⟨name, target, some (← expression settings settings.maxNesting)⟩
  return ⟨name, target, none⟩

/-- One `var`, if there is one. -/
def declarationGroup : Reader (Option (List Decl)) := do
  if ← scan (.word "var") then
    let decls ← commaList (declaration settings) (do return !(← scan (.symbol ',')))
      (return ())
    expect ';'
    return some decls
  return none

/-- All declarations here. -/
def declarations : Reader (List Decl) := do
  return (← loop (declarationGroup settings)).flatten

/-! ## Statements -/

/-- The place that an assignment stores to. -/
def target (name : String) (place : List Char) : Reader Place := do
  let s ← scope
  match s.place? name with
  | some p => return p
  | none =>
    if settings.strict || s.frame.isSome then refuseAt place (.undeclaredVariable name)
    else
      let (slot, globals) := s.globals.declare name
      setScope { s with globals }
      return .global slot

/-- A statement, unless a closing brace comes first. -/
def blockTurn (statement : Reader Stmt) : Reader (Option Stmt) := do
  if ← scan (.symbol '}') then return none
  if ← scan .atEnd then refuse (.expected "'\x7d'")
  return some (← statement)

/-- Statements up to a closing brace. -/
def untilBrace (statement : Reader Stmt) : Reader (List Stmt) := loop (blockTurn statement)

/-- The statement of a `return`. -/
def returnStatement (expr : Reader Expr) : Reader Stmt := do
  if ← scan (.symbol ';') then return .ret none
  let e ← expr
  expect ';'
  return .ret (some e)

/-- The statement of an `if`. -/
def ifStatement (expr : Reader Expr) (body : Reader (List Stmt)) : Reader Stmt := do
  let test ← expr
  let yes ← body
  if ← scan (.word "else") then
    return .ifElse test yes (← body)
  return .ifThen test yes

/-- The statement of a `while`. -/
def whileStatement (expr : Reader Expr) (body : Reader (List Stmt)) : Reader Stmt := do
  let test ← expr
  return .whileDo test (← body)

/-- Complains about a declaration among statements. -/
def misplacedDeclaration (place : List Char) : Reader α := do
  refuseAt place <| .expected <|
    if (← scope).frame.isSome then "local declarations only at the start of a function body"
    else "global declarations only before the first statement"

/-- A call or an assignment. -/
def plainStatement (expr : Reader Expr) : Reader Stmt := do
  let (name, place) ← name "statement"
  if ← scan (.symbol '(') then
    let (callee, args) ← call expr name place
    expect ';'
    return .call name callee args
  if ← scan (.symbol '=') then
    let e ← expr
    let p ← target settings name place
    expect ';'
    return .assign name p e
  refuse (.expected "'=' or '('")

/-- A statement, from readers for expressions and bodies. -/
def statementWith (expr : Reader Expr) (body : Reader (List Stmt)) : Reader Stmt := do
  if ← scan (.word "return") then return ← returnStatement expr
  if ← scan (.word "if") then return ← ifStatement expr body
  if ← scan (.word "while") then return ← whileStatement expr body
  scan .skipBlanks
  let place := (← get).rest
  if ← scan (.word "var") then misplacedDeclaration place
  plainStatement settings expr

/-- Statements in braces or a single one. -/
def bodyOf (statement : Reader Stmt) : Reader (List Stmt) := do
  if ← scan (.symbol '{') then untilBrace statement
  else return [← statement]

/-- A body with at most `levels` levels. -/
def body : (levels : Nat) → Reader (List Stmt)
  | 0, r => tooDeep settings r
  | levels + 1, r =>
    bodyOf (statementWith settings (fun r => expression settings levels r)
      (fun r => body levels r)) r

/-- A statement outside all bodies. -/
def statement : Reader Stmt :=
  statementWith settings (expression settings settings.maxNesting)
    (body settings settings.maxNesting)

/-! ## Functions and scripts -/

/-- One parameter of the function that is being read. -/
def parameter : Reader String := do
  let (name, place) ← name "parameter name"
  let s ← scope
  match s.frame with
  | none => refuse (.internal "no function is being read")
  | some frame =>
    match frame.addParameter? name with
    | some frame =>
      setScope { s with frame := some frame }
      return name
    | none => refuseAt place (.duplicateParameter frame.name name)

/-- A function after its keyword. -/
def function : Reader FunctionDef := do
  let (name, place) ← name "function name"
  let s ← scope
  if s.hasFunction name then refuseAt place (.duplicateFunction name)
  setScope { s with frame := some (.empty name) }
  expect '('
  let params ← parenthesised parameter
  expect '{'
  let decls ← declarations settings
  let body ← untilBrace (statement settings)
  let s ← scope
  setScope { s with functions := s.functions ++ [⟨name, params.length⟩], frame := none }
  return ⟨name, params, decls, body⟩

/-- One function, if there is one. -/
def functionTurn : Reader (Option FunctionDef) := do
  if ← scan (.word "function") then return some (← function settings)
  return none

/-- All functions here. -/
def functions : Reader (List FunctionDef) := loop (functionTurn settings)

/-- A statement, unless the text ends. -/
def statementTurn : Reader (Option Stmt) := do
  if ← scan .atEnd then return none
  return some (← statement settings)

/-- A whole script. -/
def script : Reader Script := do
  let decls ← declarations settings
  let functions ← functions settings
  let lateDecls ← declarations settings
  let body ← loop (statementTurn settings)
  return ⟨(← scope).globals.names, decls, functions, lateDecls, body⟩

/-- An expression and nothing after it. -/
def wholeExpression : Reader Expr := do
  let e ← expression settings settings.maxNesting
  if ← scan .atEnd then return e
  refuse .expectedEnd

end Grammar

/-- Reads a source text from its beginning. -/
def run (reader : Reader α) (source : String) : Except Diagnostic α :=
  match reader ⟨source.toList, ∅⟩ with
  | .ok a _ => .ok a
  | .error r _ => .error (.ofRefusal source r)

end Reader

end StackScript
