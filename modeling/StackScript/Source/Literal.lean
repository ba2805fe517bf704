import StackScript.Number.Nearest
import StackScript.Value

/-!
# Literals

Numbers are `digits [. digits] [(e | E) [+ | -] digits]` with at least one digit before the
exponent; a point or an exponent makes a double. What looks like a number but runs on into a letter,
an underscore or a point is none. Strings stand between single quotes, with the escapes
`\n \t \r \\ \'`, or raw after an `@`, where every character but the quote stands for itself.
-/

namespace StackScript.Literal

/-! ## Numbers -/

/-- A number as it is written. -/
structure Numeral where
  whole : List Char
  fraction : Option (List Char)
  /-- Whether the exponent is negative, and its digits. -/
  exponent : Option (Bool × List Char)
  deriving DecidableEq, Repr

/-- The number that decimal digits stand for. -/
def digitsValue (digits : List Char) : Nat :=
  digits.foldl (fun n c => 10 * n + (c.toNat - '0'.toNat)) 0

/-- The fraction of a number, if a point begins one. -/
def fraction : List Char → Option (List Char) × List Char
  | [] => (none, [])
  | c :: rest =>
    if c = '.' then (some (rest.takeWhile Char.isDigit), rest.dropWhile Char.isDigit)
    else (none, c :: rest)

/-- The sign of an exponent: whether it is negative, and the text after it. -/
def exponentSign : List Char → Bool × List Char
  | [] => (false, [])
  | c :: rest => if c = '+' ∨ c = '-' then (c = '-', rest) else (false, c :: rest)

/-- The exponent of a number, if there is one; nothing if an `e` has no digits after it. -/
def exponent? : List Char → Option (Option (Bool × List Char) × List Char)
  | [] => some (none, [])
  | c :: rest =>
    if c = 'e' ∨ c = 'E' then
      let (negative, rest) := exponentSign rest
      match rest.takeWhile Char.isDigit with
      | [] => none
      | digits => some (some (negative, digits), rest.dropWhile Char.isDigit)
    else some (none, c :: rest)

/-- Whether a number cannot end before this character. -/
def continuesNumber (c : Char) : Bool := c.isAlpha || c = '_' || c = '.'

/-- A number at the front of a text. -/
def numeral? (text : List Char) : Option (Numeral × List Char) :=
  let whole := text.takeWhile Char.isDigit
  let (fraction, rest) := fraction (text.dropWhile Char.isDigit)
  if whole.isEmpty && (fraction.getD []).isEmpty then none
  else
    match exponent? rest with
    | none => none
    | some (exponent, rest) =>
      if rest.head?.any continuesNumber then none else some (⟨whole, fraction, exponent⟩, rest)

/-- The power of ten that an exponent stands for. -/
def exponentValue : Option (Bool × List Char) → Int
  | none => 0
  | some (negative, digits) =>
    if negative then -(digitsValue digits : Int) else (digitsValue digits : Int)

/-- The double nearest to a number. -/
def Numeral.double (n : Numeral) : Double :=
  let fraction := n.fraction.getD []
  Number.ofDecimal (digitsValue (n.whole ++ fraction)) (exponentValue n.exponent - fraction.length)

/-- The integer that digits stand for, if it fits 64 bits. -/
def parseInt? (digits : List Char) : Option Value :=
  let i := digitsValue digits
  if i < 1 <<< 63 then some (.int (Int64.ofNat i)) else none

/-- The value of a number; an integer that does not fit 64 bits has none. -/
def Numeral.value? (n : Numeral) : Option Value :=
  match n.fraction, n.exponent with
  | none, none => parseInt? n.whole
  | _, _ => some (.double n.double)

/-- The double that a number stands for, however it is written. -/
def parseDouble? (text : List Char) : Option Value :=
  match numeral? text with
  | some (n, []) => some (.double n.double)
  | _ => none

/-! ## Strings -/

/-- Why a string literal is refused. -/
inductive StringError where
  | unterminated
  /-- No escape is written with `c`; `rest` is the text after it. -/
  | badEscape (c : Char) (rest : List Char)
  deriving DecidableEq, Repr

/-- The character that an escape stands for. -/
def escape? : Char → Option Char
  | 'n' => some '\n'
  | 't' => some '\t'
  | 'r' => some '\r'
  | '\\' => some '\\'
  | '\'' => some '\''
  | _ => none

/-- A string with one more character at its front, and the text after it. -/
def addChar (c : Char) : List Char × List Char → List Char × List Char
  | (s, rest) => (c :: s, rest)

/-- The rest of a string after its opening quote, and the text after the closing quote. -/
def plainString : List Char → Except StringError (List Char × List Char)
  | [] => .error .unterminated
  | c :: rest =>
    if c = '\'' then .ok ([], rest)
    else if c = '\\' then
      match rest with
      | [] => .error .unterminated
      | d :: rest =>
        match escape? d with
        | none => .error (.badEscape d rest)
        | some e => (plainString rest).map (addChar e)
    else (plainString rest).map (addChar c)

/-- The rest of a raw string after its opening quote, and the text after the closing quote. -/
def rawString : List Char → Except StringError (List Char × List Char)
  | [] => .error .unterminated
  | c :: rest => if c = '\'' then .ok ([], rest) else (rawString rest).map (addChar c)

end StackScript.Literal
