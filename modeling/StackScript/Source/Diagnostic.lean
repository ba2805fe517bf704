import StackScript.Source.Context

/-!
# Diagnostics

Compiling a source text stops at the first `Complaint`. The diagnostic for the user gives the byte
position of the complaint and shows the text around it. All complaints of the compiler are here,
with their wording.

Where a text is read character by character, a place in it is named by the text that remains there
(`Refusal`).
-/

namespace StackScript

/-- Why a source text is refused. -/
inductive Complaint where
  | expected (what : String)
  | expectedEnd
  | unterminatedString
  | invalidEscape (c : Char)
  | invalidNumber (text : String)
  | undeclaredVariable (name : String)
  | undeclaredFunction (name : String)
  | duplicateFunction (name : String)
  | duplicateParameter (function name : String)
  | duplicateLocal (function name : String)
  | reservedWord (word : String)
  | argumentCount (name : String) (expected found : Nat)
  | nestingTooDeep (limit : Nat)
  | internal (reason : String)
  deriving DecidableEq, Repr

/-- The wording of a complaint. -/
def Complaint.message : Complaint → String
  | .expected what => s!"expected {what}"
  | .expectedEnd => "expected end of input"
  | .unterminatedString => "unterminated string literal"
  | .invalidEscape c => "unknown escape sequence: \\" ++ c.toString
  | .invalidNumber text => s!"invalid number literal: {text}"
  | .undeclaredVariable name => s!"undeclared variable: {name}"
  | .undeclaredFunction name => s!"undeclared function: {name}"
  | .duplicateFunction name => s!"duplicate function: {name}"
  | .duplicateParameter function name =>
    s!"duplicate parameter '{name}' in function '{function}'"
  | .duplicateLocal function name =>
    s!"duplicate local variable '{name}' in function '{function}'"
  | .reservedWord word => s!"'{word}' is a reserved word"
  | .argumentCount name wanted found =>
    s!"function '{name}' expects {wanted} argument(s), got {found}"
  | .nestingTooDeep limit => s!"nesting deeper than {limit} levels"
  | .internal reason => s!"internal error: {reason}"

/-- A complaint about the place where `rest` remains to be read. -/
structure Refusal where
  complaint : Complaint
  rest : List Char
  deriving DecidableEq, Repr

/-- A complaint with its byte position and the text around it. -/
structure Diagnostic where
  complaint : Complaint
  position : Nat
  context : Context
  deriving DecidableEq, Repr

namespace Diagnostic

/-- The diagnostic of a complaint about a position. -/
def atPosition (source : String) (position : Nat) (complaint : Complaint) : Diagnostic :=
  ⟨complaint, position, .around source position⟩

/-- The diagnostic of a refusal. -/
def ofRefusal (source : String) (r : Refusal) : Diagnostic :=
  .atPosition source (utf8Length source.toList - utf8Length r.rest) r.complaint

/-- The report of a diagnostic. -/
def text (d : Diagnostic) : String :=
  let place :=
    if d.context.atEnd then "at end of input: " ++ d.context.before
    else "near: " ++ d.context.before ++ "<<HERE>>" ++ d.context.after
  s!"compile error at byte {d.position}: {d.complaint.message}\n  {place}"

end Diagnostic

end StackScript
