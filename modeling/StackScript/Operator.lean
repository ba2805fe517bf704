/-!
# Operators

The operators an expression is written with, together with the four that only structure it:
the two parentheses, the end of an expression and the opening of a call. An expression reaches
the machine in written order, so the machine needs to know of each operator how tightly it binds
(`priority`), whether it is a prefix operator (`isUnary`) and whether it stops a reduction
(`isBarrier`).
-/

namespace StackScript

/-- An operator of an expression, or a mark that structures one. -/
inductive Operator where
  | add
  | sub
  | mul
  | div
  | mod
  | eq
  | ne
  | le
  | ge
  | lt
  | gt
  | and
  | or
  | not
  | neg
  | pos
  | openParen
  | closeParen
  | endOfExpression
  | prepareCall
  deriving DecidableEq, Repr

namespace Operator

/-- All operators, in the order of their numbers in an image. -/
def all : List Operator :=
  [add, sub, mul, div, mod, eq, ne, le, ge, lt, gt, and, or, not, neg, pos, openParen,
    closeParen, endOfExpression, prepareCall]

/-- How tightly an operator binds; a pending operator is reduced by one that binds no tighter. -/
def priority : Operator → Int
  | not | neg | pos => 30
  | mul | div | mod => 20
  | add | sub => 10
  | eq | ne | le | ge | lt | gt => 5
  | and => 4
  | or => 3
  | endOfExpression => 0
  | openParen | closeParen => -1
  | prepareCall => -10

/-- The operators written before their one operand. -/
def isUnary : Operator → Bool
  | not | neg | pos => true
  | _ => false

/-- The six comparisons. -/
def isComparison : Operator → Bool
  | eq | ne | le | ge | lt | gt => true
  | _ => false

/-- A barrier keeps what is pending below it out of a reduction. -/
def isBarrier : Operator → Bool
  | openParen | prepareCall => true
  | _ => false

/-- How an operator is written in messages and listings. -/
def symbol : Operator → String
  | add => "+"
  | sub => "-"
  | mul => "*"
  | div => "/"
  | mod => "%"
  | eq => "=="
  | ne => "!="
  | le => "<="
  | ge => ">="
  | lt => "<"
  | gt => ">"
  | and => "&&"
  | or => "||"
  | not => "!"
  | neg => "Unary-"
  | pos => "Unary+"
  | openParen => "("
  | closeParen => ")"
  | endOfExpression => "EndOfExpression"
  | prepareCall => "PrepareCall"

/-- The name of an operator where an instruction is described. -/
def label : Operator → String
  | add => "Add"
  | sub => "Sub"
  | mul => "Mul"
  | div => "Div"
  | mod => "Mod"
  | eq => "Eq"
  | ne => "Ne"
  | le => "Le"
  | ge => "Ge"
  | lt => "Lt"
  | gt => "Gt"
  | and => "And"
  | or => "Or"
  | not => "Not"
  | neg => "Neg"
  | pos => "Pos"
  | openParen => "LParen"
  | closeParen => "RParen"
  | endOfExpression => "EndOfExpression"
  | prepareCall => "PrepareCall"

/-- The binary operators in the order they are looked for in a text: of two that begin alike the
longer one comes first. -/
def binary : List Operator :=
  [eq, ne, le, ge, and, or, lt, gt, add, sub, mul, div, mod]

/-- The prefix operator written as `c`. -/
def ofSign? : Char → Option Operator
  | '!' => some not
  | '-' => some neg
  | '+' => some pos
  | _ => none

end Operator

end StackScript
