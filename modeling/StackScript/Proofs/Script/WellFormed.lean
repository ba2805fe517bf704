import StackScript.Scope
import StackScript.Script.Codegen

/-!
# Well-formed scripts

A script is well formed when its tree is the one that the priorities of its operators give, every
name it uses is declared, every call has the right number of arguments and a function calls only
itself and the functions before it. Names are resolved in a tree, so this is also where the places
of variables and the numbers of functions are tied to the names that were written: a variable of the
current function hides a global.
-/

namespace StackScript

/-- The names in view at a point of a script. -/
structure Names where
  /-- The globals by slot. -/
  globals : List String
  /-- The functions that can be called, by number. -/
  functions : List Signature
  /-- The variables of the current function in the order of declaration; none outside all
  functions. -/
  frame : Option (List String)
  deriving DecidableEq, Repr

namespace Names

/-- The names outside all functions of a script. -/
def top (globals : List String) (functions : List Signature) : Names := ⟨globals, functions, none⟩

/-- The variables of the current function. -/
def frameNames (k : Names) : List String := k.frame.getD []

/-- The place that a name means: a variable of the current function hides a global. -/
def place? (k : Names) (name : String) : Option Place :=
  match k.frameNames.idxOf? name with
  | some i => some (.frame i)
  | none => (k.globals.idxOf? name).map .global

/-- The number and the arity of the function that a name means. -/
def function? (k : Names) (name : String) : Option (Nat × Nat) :=
  (k.functions.findIdx? (·.name == name)).bind fun i =>
    (k.functions[i]?).map fun f => (i, f.arity)

/-- The names after declarations: inside a function they are new variables of its frame. -/
def declare (k : Names) (names : List String) : Names :=
  { k with frame := k.frame.map (· ++ names) }

variable {k : Names} {name : String} {place : Place}

theorem declare_nil (k : Names) : k.declare [] = k := by
  obtain ⟨globals, functions, frame⟩ := k
  cases frame <;> simp [declare]

theorem declare_declare (k : Names) (xs ys : List String) :
    (k.declare xs).declare ys = k.declare (xs ++ ys) := by
  obtain ⟨globals, functions, frame⟩ := k
  cases frame <;> simp [declare]

/-- Outside all functions declarations add nothing: their names are those of globals. -/
theorem declare_eq_self (h : k.frame = none) (names : List String) : k.declare names = k := by
  obtain ⟨globals, functions, frame⟩ := k
  cases h
  rfl

theorem frameNames_declare (h : k.frame.isSome) (names : List String) :
    (k.declare names).frameNames = k.frameNames ++ names := by
  obtain ⟨vars, hvars⟩ := Option.isSome_iff_exists.mp h
  simp [declare, frameNames, hvars]

theorem frame_declare (h : k.frame.isSome) (names : List String) :
    (k.declare names).frame.isSome := by
  simpa [declare] using h

/-- Outside all functions every name in view is a global. -/
theorem global_of_place? (h : k.frame = none) (hn : k.place? name = some place) :
    ∃ slot, place = .global slot := by
  unfold place? frameNames at hn
  rw [h] at hn
  obtain ⟨slot, -, hslot⟩ := Option.map_eq_some_iff.mp hn
  exact ⟨slot, hslot.symm⟩

/-- A variable that has been declared in a function is one of its frame. -/
theorem frame_of_place?_declare (h : k.frame.isSome)
    (hn : (k.declare [name]).place? name = some place) : ∃ i, place = .frame i := by
  unfold place? at hn
  split at hn
  · exact ⟨_, (Option.some.inj hn).symm⟩
  · rename_i hnone
    rw [frameNames_declare h] at hnone
    exact absurd (List.idxOf?_eq_none_iff.mp hnone) (by simp)

end Names

/-- Whether an expression is none of an operator. -/
def Expr.isPrimary : Expr → Bool
  | .unary _ _ | .binary _ _ _ => false
  | _ => true

/-- How tightly the outermost operator of an expression binds; an expression that needs no operator
holds together more tightly than any. -/
def Expr.binding : Expr → Int
  | .unary op _ | .binary op _ _ => op.priority
  | _ => 40

theorem Operator.priority_of_isUnary {op : Operator} (h : op.isUnary) : op.priority = 30 := by
  cases op with
  | not | neg | pos => rfl
  | _ => cases h

theorem Operator.priority_pos_of_binary {op : Operator} (h : op ∈ binary) : 0 < op.priority := by
  revert op
  decide

theorem Operator.priority_lt_of_binary {op : Operator} (h : op ∈ binary) : op.priority < 30 := by
  revert op
  decide

theorem Expr.binding_of_isPrimary {e : Expr} (h : e.isPrimary) : e.binding = 40 := by
  cases e with
  | unary op e | binary op lhs rhs => cases h
  | _ => rfl

mutual

/-- An expression whose names are in view and whose operators are grouped by priority, equal ones
from the left. -/
def Expr.WellFormed (k : Names) : Expr → Prop
  | .literal _ => True
  | .var name place => k.place? name = some place
  | .group e => e.WellFormed k
  | .call name callee args =>
    k.function? name = some (callee, args.length) ∧ Expr.AllWellFormed k args
  | .unary op e => op.isUnary ∧ e.isPrimary ∧ e.WellFormed k
  | .binary op lhs rhs =>
    op ∈ Operator.binary ∧ op.priority ≤ lhs.binding ∧ op.priority < rhs.binding ∧
      lhs.WellFormed k ∧ rhs.WellFormed k

/-- Expressions that are all well formed. -/
def Expr.AllWellFormed (k : Names) : List Expr → Prop
  | [] => True
  | e :: rest => e.WellFormed k ∧ Expr.AllWellFormed k rest

end

mutual

/-- A statement whose names are in view. -/
def Stmt.WellFormed (k : Names) : Stmt → Prop
  | .assign name place e => k.place? name = some place ∧ e.WellFormed k
  | .call name callee args => (Expr.call name callee args).WellFormed k
  | .ret none => True
  | .ret (some e) => e.WellFormed k
  | .ifThen test body => test.WellFormed k ∧ Stmt.AllWellFormed k body
  | .ifElse test body other =>
    test.WellFormed k ∧ Stmt.AllWellFormed k body ∧ Stmt.AllWellFormed k other
  | .whileDo test body => test.WellFormed k ∧ Stmt.AllWellFormed k body

/-- Statements that are all well formed. -/
def Stmt.AllWellFormed (k : Names) : List Stmt → Prop
  | [] => True
  | st :: rest => st.WellFormed k ∧ Stmt.AllWellFormed k rest

end

/-- Declarations one after another. A variable is in view in its own initial value. -/
def Decl.AllWellFormed (k : Names) : List Decl → Prop
  | [] => True
  | d :: rest =>
    (k.declare [d.name]).place? d.name = some d.place ∧
      (∀ e, d.init = some e → e.WellFormed (k.declare [d.name])) ∧
      Decl.AllWellFormed (k.declare [d.name]) rest

namespace FunctionDef

/-- What a caller has to know of a function. -/
def signature (f : FunctionDef) : Signature := ⟨f.name, f.params.length⟩

/-- The names in view where the body of a function begins, in a script where `k` are in view
outside. -/
def names (k : Names) (f : FunctionDef) : Names :=
  { k with functions := k.functions ++ [f.signature], frame := some f.params }

/-- A function whose declarations and body are well formed. -/
def WellFormed (k : Names) (f : FunctionDef) : Prop :=
  Decl.AllWellFormed (f.names k) f.decls ∧
    Stmt.AllWellFormed ((f.names k).declare (f.decls.map (·.name))) f.body

/-- Functions one after another: each can call itself and the ones before it. -/
def AllWellFormed (k : Names) : List FunctionDef → Prop
  | [] => True
  | f :: rest =>
    f.WellFormed k ∧ AllWellFormed { k with functions := k.functions ++ [f.signature] } rest

end FunctionDef

/-- A script all parts of which are well formed. -/
structure Script.WellFormed (s : Script) : Prop where
  decls : Decl.AllWellFormed (.top s.globals []) s.decls
  functions : FunctionDef.AllWellFormed (.top s.globals []) s.functions
  lateDecls : Decl.AllWellFormed (.top s.globals (s.functions.map (·.signature))) s.lateDecls
  body : Stmt.AllWellFormed (.top s.globals (s.functions.map (·.signature))) s.body

end StackScript
