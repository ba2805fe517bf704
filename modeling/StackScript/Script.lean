import StackScript.Operator
import StackScript.Value

/-!
# Scripts

The tree of a source text. Names are resolved: a variable carries the place where it lives and a
call the number of the function it means, next to the name that was written. An expression is the
tree that the priorities of its operators give, and keeps its parentheses.
-/

namespace StackScript

/-- Where a variable lives. -/
inductive Place where
  /-- In a global slot. -/
  | global (slot : Nat)
  /-- In the current frame, where variables are numbered in the order of declaration. -/
  | frame (ordinal : Nat)
  deriving DecidableEq, Repr

/-- An expression. -/
inductive Expr where
  | literal (v : Value)
  | var (name : String) (place : Place)
  /-- An expression in parentheses. -/
  | group (e : Expr)
  /-- A call of the function with number `callee`. -/
  | call (name : String) (callee : Nat) (args : List Expr)
  | unary (op : Operator) (e : Expr)
  | binary (op : Operator) (lhs rhs : Expr)

/-- Adds an operator and its right operand at the end of an expression. They go to the right of
every operator that binds less tightly; operators of one priority group from the left. -/
def Expr.extend (e : Expr) (op : Operator) (operand : Expr) : Expr :=
  match e with
  | .binary op' lhs rhs =>
    if op'.priority < op.priority then .binary op' lhs (rhs.extend op operand)
    else .binary op (.binary op' lhs rhs) operand
  | e => .binary op e operand

/-- A statement. -/
inductive Stmt where
  | assign (name : String) (place : Place) (e : Expr)
  /-- A call whose result is dropped. -/
  | call (name : String) (callee : Nat) (args : List Expr)
  | ret (e : Option Expr)
  | ifThen (test : Expr) (body : List Stmt)
  | ifElse (test : Expr) (body other : List Stmt)
  | whileDo (test : Expr) (body : List Stmt)

/-- The declaration of one variable. -/
structure Decl where
  name : String
  place : Place
  init : Option Expr

/-- A function. Its declarations are its locals, in order. -/
structure FunctionDef where
  name : String
  params : List String
  decls : List Decl
  body : List Stmt

/-- A whole script: declarations, functions, more declarations, and the statements to run. -/
structure Script where
  /-- The globals by slot. -/
  globals : List String
  decls : List Decl
  functions : List FunctionDef
  lateDecls : List Decl
  body : List Stmt

end StackScript
