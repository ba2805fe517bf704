import StackScript.Script.Codegen

/-!
# The size of the code of scripts

How many instructions the parts of a script come to. The number depends neither on the site nor on
the index at which code starts (`Expr.length_code`, `Stmt.length_code`, `Script.size_program`).
-/

namespace StackScript

mutual

/-- The number of instructions of an expression, without its end. -/
def Expr.size : Expr → Nat
  | .literal _ | .var _ _ => 1
  | .group e => e.size + 2
  | .call _ _ args => Expr.sizeAll args + 2
  | .unary _ e => e.size + 1
  | .binary _ lhs rhs => lhs.size + rhs.size + 1

/-- The number of instructions of arguments, each with its end. -/
def Expr.sizeAll : List Expr → Nat
  | [] => 0
  | e :: rest => e.size + 1 + Expr.sizeAll rest

end

mutual

theorem Expr.length_code (s : Site) (e : Expr) : (e.code s).length = e.size := by
  match e with
  | .literal _ | .var _ _ => rfl
  | .group e => simp [Expr.code, Expr.size, Expr.length_code s e]
  | .call _ _ args => simp [Expr.code, Expr.size, Expr.length_argsCode s args]
  | .unary _ e => simp [Expr.code, Expr.size, Expr.length_code s e]
  | .binary _ lhs rhs =>
    simp [Expr.code, Expr.size, Expr.length_code s lhs, Expr.length_code s rhs]
    omega

theorem Expr.length_argsCode (s : Site) (args : List Expr) :
    (Expr.argsCode s args).length = Expr.sizeAll args := by
  match args with
  | [] => rfl
  | e :: rest =>
    simp [Expr.argsCode, Expr.sizeAll, Expr.length_code s e, Expr.length_argsCode s rest]
    omega

end

theorem Expr.length_closedCode (s : Site) (e : Expr) : (e.closedCode s).length = e.size + 1 := by
  simp [Expr.closedCode, Expr.length_code]

/-- Adding an operator and its operand to an expression adds their instructions. -/
theorem Expr.size_extend (e : Expr) (op : Operator) (operand : Expr) :
    (e.extend op operand).size = e.size + (operand.size + 1) := by
  simp [← Expr.length_code (.top []), Expr.code_extend]

mutual

/-- The number of instructions of a statement. -/
def Stmt.size : Stmt → Nat
  | .assign _ _ e => e.size + 2
  | .call _ _ args => Expr.sizeAll args + 3
  | .ret none => 2
  | .ret (some e) => e.size + 2
  | .ifThen test body => test.size + 2 + Stmt.sizeAll body
  | .ifElse test body other => test.size + 3 + Stmt.sizeAll body + Stmt.sizeAll other
  | .whileDo test body => test.size + 3 + Stmt.sizeAll body

/-- The number of instructions of statements one after another. -/
def Stmt.sizeAll : List Stmt → Nat
  | [] => 0
  | st :: rest => st.size + Stmt.sizeAll rest

end

mutual

theorem Stmt.length_code (s : Site) (start : Nat) (st : Stmt) :
    (st.code s start).length = st.size := by
  match st with
  | .assign _ _ e => simp [Stmt.code, Stmt.size, Expr.length_closedCode]
  | .call _ _ args => simp [Stmt.code, Stmt.size, Expr.length_code, Expr.size]
  | .ret none => rfl
  | .ret (some e) => simp [Stmt.code, Stmt.size, Expr.length_closedCode]
  | .ifThen test body | .whileDo test body =>
    simp [Stmt.code, Stmt.size, Expr.length_closedCode, Stmt.length_blockCode s _ body]
    omega
  | .ifElse test body other =>
    simp [Stmt.code, Stmt.size, Expr.length_closedCode, Stmt.length_blockCode s _ body,
      Stmt.length_blockCode s _ other]
    omega

theorem Stmt.length_blockCode (s : Site) (start : Nat) (body : List Stmt) :
    (Stmt.blockCode s start body).length = Stmt.sizeAll body := by
  match body with
  | [] => rfl
  | st :: rest =>
    simp [Stmt.blockCode, Stmt.sizeAll, Stmt.length_code s start st,
      Stmt.length_blockCode s _ rest]

end

/-- The number of instructions of a declaration. -/
def Decl.size (d : Decl) : Nat :=
  d.place.room.length + match d.init with
    | none => 0
    | some e => e.size + 2

theorem Decl.length_code (s : Site) (d : Decl) : (d.code s).length = d.size := by
  rw [Decl.code, Decl.size, List.length_append, Decl.initCode]
  cases d.init with
  | none => rfl
  | some e => simp [Expr.length_closedCode]

/-- The number of instructions of declarations. -/
def Decl.sizeAll : List Decl → Nat
  | [] => 0
  | d :: rest => d.size + Decl.sizeAll rest

theorem Decl.sizeAll_append (xs ys : List Decl) :
    Decl.sizeAll (xs ++ ys) = Decl.sizeAll xs + Decl.sizeAll ys := by
  induction xs with
  | nil => exact (Nat.zero_add _).symm
  | cons d rest ih => rw [List.cons_append, Decl.sizeAll, Decl.sizeAll, ih, Nat.add_assoc]

theorem Decl.length_listCode (s : Site) (decls : List Decl) :
    (Decl.listCode s decls).length = Decl.sizeAll decls := by
  induction decls with
  | nil => rfl
  | cons d rest ih =>
    rw [Decl.listCode, List.flatMap_cons, List.length_append, Decl.length_code, Decl.sizeAll, ← ih]
    rfl

namespace FunctionDef

/-- The number of instructions of a function. -/
def size (f : FunctionDef) : Nat := Decl.sizeAll f.decls + Stmt.sizeAll f.body + 3

theorem length_code (f : FunctionDef) (entries : List Nat) (start : Nat) :
    (f.code entries start).length = f.size := by
  simp [code, size, Decl.length_listCode, Stmt.length_blockCode, Site.defaultReturn]
  omega

/-- The number of instructions of functions. -/
def sizeAll : List FunctionDef → Nat
  | [] => 0
  | f :: rest => f.size + sizeAll rest

theorem length_layout (entries : List Nat) (start : Nat) (fs : List FunctionDef) :
    (layout entries start fs).2.length = sizeAll fs := by
  induction fs generalizing entries start with
  | nil => rfl
  | cons f rest ih => simp [layout, sizeAll, ih, length_code]

end FunctionDef

namespace Script

/-- The number of instructions of a script. -/
def size (s : Script) : Nat :=
  Decl.sizeAll s.decls + FunctionDef.sizeAll s.functions + Decl.sizeAll s.lateDecls +
    Stmt.sizeAll s.body + 4

theorem size_program (s : Script) : s.program.code.size = s.size := by
  simp [program, Code.size, Code.ofList, mainCode, bodies, size, Decl.length_listCode,
    FunctionDef.length_layout, Stmt.length_blockCode, Site.defaultReturn]
  omega

end Script

theorem Expr.size_program (e : Expr) : e.program.code.size = e.size + 2 := by
  simp [Expr.program, Code.size, Code.ofList, Expr.length_closedCode]

end StackScript
