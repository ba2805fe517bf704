import StackScript.Operator

/-!
# Words, symbols and blanks

The smallest parts of a source text, each recognised at the front of the text that remains. A
recogniser gives what it took and the text after it, or nothing. Blanks are spaces, tabs, line ends
and comments from `//` to the end of the line.
-/

namespace StackScript.Lexeme

/-- The characters between lexemes. -/
def isBlank (c : Char) : Bool := c = ' ' || c = '\t' || c = '\r' || c = '\n'

mutual

/-- A text without the blanks and comments at its front. -/
def dropBlanks : List Char → List Char
  | [] => []
  | c :: rest =>
    if isBlank c then dropBlanks rest
    else if c = '/' ∧ rest.head? = some '/' then dropComment rest
    else c :: rest

/-- A text inside a comment, from after the end of its line on. -/
def dropComment : List Char → List Char
  | [] => []
  | c :: rest => if c = '\n' then dropBlanks rest else dropComment rest

end

/-- The characters of words; a word may begin with a digit. -/
def isWordChar (c : Char) : Bool := c.isAlphanum || c = '_'

/-- The words that are no names. -/
def keywords : List String :=
  ["var", "function", "return", "if", "else", "while", "true", "false"]

/-- Whether a word is a keyword. -/
def isKeyword (word : String) : Bool := keywords.contains word

/-- A single character. -/
def symbol? (c : Char) : List Char → Option (Char × List Char)
  | [] => none
  | d :: rest => if d = c then some (d, rest) else none

/-- A given word, not the beginning of a longer one. -/
def word? (word : String) (text : List Char) : Option (String × List Char) :=
  match word.toList.isPrefixOf? text with
  | none => none
  | some rest => if rest.head?.any isWordChar then none else some (word, rest)

/-- The longest word. -/
def identifier? (text : List Char) : Option (String × List Char) :=
  match text.takeWhile isWordChar with
  | [] => none
  | word => some (String.ofList word, text.dropWhile isWordChar)

/-- A binary operator, the first that fits. -/
def binaryOperator? (text : List Char) : Option (Operator × List Char) :=
  Operator.binary.findSome? fun op => (op.symbol.toList.isPrefixOf? text).map (op, ·)

/-- A prefix operator. -/
def unaryOperator? : List Char → Option (Operator × List Char)
  | [] => none
  | c :: rest => (Operator.ofSign? c).map (·, rest)

end StackScript.Lexeme
