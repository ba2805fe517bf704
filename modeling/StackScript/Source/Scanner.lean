import StackScript.Source.Diagnostic
import StackScript.Source.Lexeme
import StackScript.Source.Literal

/-!
# Scanning

A scanner is asked for the lexeme that is expected next. It skips blanks, and then either takes the
lexeme or leaves the text as it is. Its state is the text that remains, which is also kept when it
refuses a literal.

The compiler scans by byte positions (`Cursor`). Scanners say the same of characters, without
positions, and are what cursors are compared with (`Cursor.Follows`).
-/

namespace StackScript

/-- Reads from the front of a text. -/
abbrev Scanner := EStateM Refusal (List Char)

namespace Scanner

/-- Skips blanks and comments. -/
def skipBlanks : Scanner Unit := fun text => .ok () (Lexeme.dropBlanks text)

/-- Whether only blanks and comments remain. -/
def atEnd : Scanner Bool := fun text =>
  let text := Lexeme.dropBlanks text
  .ok text.isEmpty text

/-- Takes what `recognise` finds after blanks, or nothing. -/
def take? {α : Type} (recognise : List Char → Option (α × List Char)) : Scanner (Option α) :=
  fun text =>
    let text := Lexeme.dropBlanks text
    match recognise text with
    | some (a, rest) => .ok (some a) rest
    | none => .ok none text

/-- Takes a character. -/
def symbol (c : Char) : Scanner Bool := Option.isSome <$> take? (Lexeme.symbol? c)

/-- Takes a given word. -/
def word (w : String) : Scanner Bool := Option.isSome <$> take? (Lexeme.word? w)

/-- Takes a word. -/
def identifier : Scanner (Option String) := take? Lexeme.identifier?

/-- Takes a binary operator. -/
def binaryOperator : Scanner (Option Operator) := take? Lexeme.binaryOperator?

/-- Takes a prefix operator. -/
def unaryOperator : Scanner (Option Operator) := take? Lexeme.unaryOperator?

/-- The outcome of a string literal that begins at `start`. -/
def endString (start : List Char) :
    Except Literal.StringError (List Char × List Char) →
      EStateM.Result Refusal (List Char) (Option String)
  | .ok (s, rest) => .ok (some (String.ofList s)) rest
  | .error .unterminated => .error ⟨.unterminatedString, start⟩ []
  | .error (.badEscape c rest) => .error ⟨.invalidEscape c, c :: rest⟩ rest

/-- Takes a string literal. -/
def string : Scanner (Option String) := fun text =>
  let start := Lexeme.dropBlanks text
  match start with
  | '\'' :: rest => endString start (Literal.plainString rest)
  | '@' :: '\'' :: rest => endString start (Literal.rawString rest)
  | '@' :: rest => .error ⟨.expected "' after @", rest⟩ rest
  | _ => .ok none start

/-- Takes a number. -/
def number : Scanner (Option Value) := fun text =>
  let start := Lexeme.dropBlanks text
  match Literal.numeral? start with
  | none => .ok none start
  | some (n, rest) =>
    match n.value? with
    | some v => .ok (some v) rest
    | none => .error ⟨.invalidNumber (String.ofList n.whole), start⟩ start

end Scanner

end StackScript
