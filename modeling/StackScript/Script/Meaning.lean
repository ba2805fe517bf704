import StackScript.Operator.Apply
import StackScript.Script

/-!
# The meaning of scripts

Evaluation by recursion on the tree of a script, without instructions or a machine. Variables and
functions are found by name: a variable of the current frame hides a global. Operands and arguments
are evaluated from left to right; `&&` and `||` evaluate both sides. Every call has a frame of its
own, in which locals are undefined until they are assigned. A function or a script that does not
return gives `0`, a `return` without a value gives `undefined`.

Loops and recursion need not end. `Script.eval` is given fuel, which bounds the turns of each loop
and the depth of calls, and has no answer when that does not suffice. Failures keep the globals they
left.
-/

namespace StackScript

/-- Variables by name, with their values. -/
abbrev Bindings := List (String × Value)

namespace Bindings

/-- The names in order. -/
def names (b : Bindings) : List String := b.map (·.1)

/-- The values in order. -/
def values (b : Bindings) : List Value := b.map (·.2)

@[simp] theorem length_names (b : Bindings) : b.names.length = b.length := List.length_map _

@[simp] theorem length_values (b : Bindings) : b.values.length = b.length := List.length_map _

@[simp] theorem names_snoc (b : Bindings) (x : String × Value) :
    names (b ++ [x]) = b.names ++ [x.1] := List.map_append

@[simp] theorem values_snoc (b : Bindings) (x : String × Value) :
    values (b ++ [x]) = b.values ++ [x.2] := List.map_append

/-- Gives the first variable of a name a new value. -/
def assign (name : String) (v : Value) : Bindings → Bindings
  | [] => []
  | (n, old) :: rest =>
    if n = name then (n, v) :: rest else (n, old) :: assign name v rest

end Bindings

/-- What a script works on: the globals by slot and the variables of the current frame in the
order of declaration. -/
structure Store where
  globals : Bindings
  frame : Bindings
  deriving DecidableEq

namespace Store

/-- The value of a name: of the variable of the frame, if there is one, else of the global. -/
def get (s : Store) (name : String) : Value :=
  ((s.frame.lookup name).or (s.globals.lookup name)).getD .undefined

/-- Changes the value of a name: in the frame, if it has the name, else of the global. -/
def set (s : Store) (name : String) (v : Value) : Store :=
  if (s.frame.lookup name).isSome then { s with frame := Bindings.assign name v s.frame }
  else { s with globals := Bindings.assign name v s.globals }

/-- Adds a local to the frame, undefined at first. -/
def declare (s : Store) (name : String) : Store :=
  { s with frame := s.frame ++ [(name, .undefined)] }

end Store

/-- An evaluation: without an answer, or with a value or a failure and the store after it. -/
abbrev Eval := ExceptT Cause (StateT Store Option)

namespace Eval

/-- The fuel does not suffice. -/
def outOfFuel {α : Type} : Eval α := fun _ => none

/-- Takes over the outcome of an operator. -/
def ofExcept {α : Type} (x : Except Cause α) : Eval α := fun store => some (x, store)

/-- Reads a variable. -/
def read (name : String) : Eval Value := fun store => some (.ok (store.get name), store)

/-- Writes a variable. -/
def write (name : String) (v : Value) : Eval Unit := fun store =>
  some (.ok (), store.set name v)

/-- Makes room for a local. -/
def declare (name : String) : Eval Unit := fun store => some (.ok (), store.declare name)

/-- Runs an evaluation on a frame of its own. -/
def onFrame {α : Type} (frame : Bindings) (x : Eval α) : Eval α := fun store =>
  (x { store with frame }).map fun (a, after) => (a, { after with frame := store.frame })

/-- Repeats `body` while `test` holds, for at most `turns` turns, until it returns. -/
def whileLoop (test : Eval Bool) (body : Eval (Option Value)) : (turns : Nat) → Eval (Option Value)
  | 0 => outOfFuel
  | turns + 1 => do
    if ← test then
      match ← body with
      | some v => return some v
      | none => whileLoop test body turns
    else return none

end Eval

section Evaluation

/- The value of a call of the function of a name. -/
variable (call : String → List Value → Eval Value)

mutual

/-- The value of an expression. -/
def Expr.eval : Expr → Eval Value
  | .literal v => return v
  | .var name _ => Eval.read name
  | .group e => e.eval
  | .call name _ args => do call name (← Expr.evalAll args)
  | .unary op e => do Eval.ofExcept (op.applyUnary (← e.eval))
  | .binary op lhs rhs => do
    let a ← lhs.eval
    let b ← rhs.eval
    Eval.ofExcept (op.applyBinary a b)

/-- The values of expressions, from left to right. -/
def Expr.evalAll : List Expr → Eval (List Value)
  | [] => return []
  | e :: rest => do
    let v ← e.eval
    let vs ← Expr.evalAll rest
    return v :: vs

end

/-- The value of a condition, which has to be a bool. -/
def Expr.test (e : Expr) : Eval Bool := do
  match ← e.eval call with
  | .bool b => return b
  | v => throw (.conditionNotBool v.type)

/- The turns that a loop may take. -/
variable (turns : Nat)

mutual

/-- Carries out a statement; the value it returns, if it returns. -/
def Stmt.exec : Stmt → Eval (Option Value)
  | .assign name _ e => do
    Eval.write name (← e.eval call)
    return none
  | .call name _ args => do
    let _ ← call name (← Expr.evalAll call args)
    return none
  | .ret none => return some .undefined
  | .ret (some e) => do return some (← e.eval call)
  | .ifThen test body => do
    if ← test.test call then Stmt.execAll body else return none
  | .ifElse test body other => do
    if ← test.test call then Stmt.execAll body else Stmt.execAll other
  | .whileDo test body => Eval.whileLoop (test.test call) (Stmt.execAll body) turns

/-- Carries out statements until one returns. -/
def Stmt.execAll : List Stmt → Eval (Option Value)
  | [] => return none
  | st :: rest => do
    match ← st.exec with
    | some v => return some v
    | none => Stmt.execAll rest

end

/-- Gives a declared variable its initial value. -/
def Decl.initialise (d : Decl) : Eval Unit :=
  match d.init with
  | none => return ()
  | some e => do Eval.write d.name (← e.eval call)

/-- Carries out the declarations of globals in order. -/
def Decl.execGlobals : List Decl → Eval Unit
  | [] => return ()
  | d :: rest => do
    d.initialise call
    Decl.execGlobals rest

/-- Carries out the declarations of locals in order. -/
def Decl.execLocals : List Decl → Eval Unit
  | [] => return ()
  | d :: rest => do
    Eval.declare d.name
    d.initialise call
    Decl.execLocals rest

/-- The value that a function body gives. -/
def FunctionDef.evalBody (f : FunctionDef) : Eval Value := do
  Decl.execLocals call f.decls
  return (← Stmt.execAll call turns f.body).getD (.int 0)

/-- The value that a script gives. -/
def Script.evalBody (s : Script) : Eval Value := do
  Decl.execGlobals call s.decls
  Decl.execGlobals call s.lateDecls
  return (← Stmt.execAll call turns s.body).getD (.int 0)

end Evaluation

/-- The value of a call of one of `functions`, nested at most `depth` deep. -/
def FunctionDef.evalCall (functions : List FunctionDef) (turns : Nat) :
    (depth : Nat) → String → List Value → Eval Value
  | 0, _, _ => Eval.outOfFuel
  | depth + 1, name, args =>
    match functions.find? (·.name == name) with
    | none => return .undefined
    | some f => Eval.onFrame (f.params.zip args) (f.evalBody (evalCall functions turns depth) turns)

/-- The store at the start of a script: all globals undefined, and no frame. -/
def Script.store (s : Script) : Store := ⟨s.globals.map (·, .undefined), []⟩

/-- The value of a script or its failure, and the values of its globals at its end. -/
def Script.eval (fuel : Nat) (s : Script) : Option (Except Cause Value × Array Value) :=
  (s.evalBody (FunctionDef.evalCall s.functions fuel fuel) fuel s.store).map fun (r, store) =>
    (r, store.globals.values.toArray)

end StackScript
