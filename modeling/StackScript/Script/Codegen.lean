import StackScript.Scope.Frame
import StackScript.Script

/-!
# From scripts to programs

The instructions of a script, by recursion on its tree. An expression keeps its written order,
operators between their operands (`Expr.code_extend`), and is closed by `endOfExpression`; the
machine finds the grouping again from the priorities. Jumps are absolute, so statements are given
the index at which their code starts. A program consists of the code of the first declarations, a
jump over the functions, their bodies one after another, and the code of the rest; where a function
or the program does not return it gives `0`.

Here every operand is known when its instruction is made. The compiler, which does not know them,
comes to the same code (`compile_eq`).
-/

namespace StackScript

/-- What the code of a piece of a script depends on besides the piece. -/
structure Site where
  /-- Where the functions start, by number. -/
  entries : List Nat
  /-- The number of parameters of the current function. -/
  params : Nat
  /-- The number of locals of the current function. -/
  locals : Nat
  deriving DecidableEq, Repr

/-- Outside all functions. -/
def Site.top (entries : List Nat) : Site := ⟨entries, 0, 0⟩

/-- The start of the function with a number. -/
def Site.entry (s : Site) (callee : Nat) : Nat := (s.entries[callee]?).getD 0

/-- The frame offset of the variable with an ordinal. -/
def Site.offset (s : Site) (ordinal : Nat) : Int :=
  Frame.offset s.params ordinal (ordinal < s.params)

/-- The instruction that reads a variable. -/
def Place.load (s : Site) : Place → Instr
  | .global slot => .getGlobal slot
  | .frame ordinal => .getLocal (s.offset ordinal)

/-- The instruction that writes a variable. -/
def Place.store (s : Site) : Place → Instr
  | .global slot => .setGlobal slot
  | .frame ordinal => .setLocal (s.offset ordinal)

mutual

/-- The code of an expression, without its end. -/
def Expr.code (s : Site) : Expr → List Instr
  | .literal v => [.push v]
  | .var _ place => [place.load s]
  | .group e => .operator .openParen :: (e.code s ++ [.operator .closeParen])
  | .call _ callee args =>
    .operator .prepareCall :: (Expr.argsCode s args ++ [.call (s.entry callee)])
  | .unary op e => .operator op :: e.code s
  | .binary op lhs rhs => lhs.code s ++ .operator op :: rhs.code s

/-- The code of arguments, each a closed expression. -/
def Expr.argsCode (s : Site) : List Expr → List Instr
  | [] => []
  | e :: rest => e.code s ++ .endOfExpression :: Expr.argsCode s rest

end

/-- However an operator and its operand are placed in a tree, their code stands at the end. -/
theorem Expr.code_extend (s : Site) (e : Expr) (op : Operator) (operand : Expr) :
    (e.extend op operand).code s = e.code s ++ .operator op :: operand.code s := by
  fun_induction Expr.extend e op operand with
  | case1 op' lhs rhs h ih => simp [Expr.code, ih]
  | case2 op' lhs rhs h => simp [Expr.code]
  | case3 e h => simp [Expr.code]

/-- The code of an expression with its end. -/
def Expr.closedCode (s : Site) (e : Expr) : List Instr := e.code s ++ [.endOfExpression]

mutual

/-- The code of a statement that starts at an index. -/
def Stmt.code (s : Site) (start : Nat) : Stmt → List Instr
  | .assign _ place e => e.closedCode s ++ [place.store s]
  | .call name callee args => (Expr.call name callee args).code s ++ [.pop]
  | .ret none => [.push .undefined, .ret s.params s.locals]
  | .ret (some e) => e.closedCode s ++ [.ret s.params s.locals]
  | .ifThen test body =>
    let testCode := test.closedCode s
    let bodyStart := start + testCode.length + 1
    let bodyCode := Stmt.blockCode s bodyStart body
    testCode ++ .jumpIfFalse (bodyStart + bodyCode.length) :: bodyCode
  | .ifElse test body other =>
    let testCode := test.closedCode s
    let bodyStart := start + testCode.length + 1
    let bodyCode := Stmt.blockCode s bodyStart body
    let otherStart := bodyStart + bodyCode.length + 1
    let otherCode := Stmt.blockCode s otherStart other
    testCode ++ .jumpIfFalse otherStart ::
      (bodyCode ++ .jump (otherStart + otherCode.length) :: otherCode)
  | .whileDo test body =>
    let testCode := test.closedCode s
    let bodyStart := start + testCode.length + 1
    let bodyCode := Stmt.blockCode s bodyStart body
    testCode ++ .jumpIfFalse (bodyStart + bodyCode.length + 1) :: (bodyCode ++ [.jump start])

/-- The code of statements one after another. -/
def Stmt.blockCode (s : Site) (start : Nat) : List Stmt → List Instr
  | [] => []
  | st :: rest =>
    let code := st.code s start
    code ++ Stmt.blockCode s (start + code.length) rest

end

/-- The code that makes room for a new variable. -/
def Place.room : Place → List Instr
  | .global _ => []
  | .frame _ => [.declareLocal]

/-- The code that gives a declared variable its initial value. -/
def Decl.initCode (s : Site) (d : Decl) : List Instr :=
  match d.init with
  | none => []
  | some e => e.closedCode s ++ [d.place.store s]

/-- The code of a declaration. -/
def Decl.code (s : Site) (d : Decl) : List Instr := d.place.room ++ d.initCode s

/-- The code of declarations one after another. -/
def Decl.listCode (s : Site) (decls : List Decl) : List Instr := decls.flatMap (Decl.code s)

/-- The code that gives `0` where nothing else is returned. -/
def Site.defaultReturn (s : Site) : List Instr :=
  [.push (.int 0), .endOfExpression, .ret s.params s.locals]

namespace FunctionDef

/-- The site of the body of a function. -/
def site (f : FunctionDef) (entries : List Nat) : Site :=
  ⟨entries, f.params.length, f.decls.length⟩

/-- The code of a function body that starts at an index. -/
def code (f : FunctionDef) (entries : List Nat) (start : Nat) : List Instr :=
  let s := f.site entries
  let decls := Decl.listCode s f.decls
  decls ++ Stmt.blockCode s (start + decls.length) f.body ++ s.defaultReturn

/-- The function of a program that starts at an index. -/
def toEntry (f : FunctionDef) (start : Nat) : FunctionEntry :=
  ⟨f.name, start, f.params.length, f.decls.length⟩

/-- Lays out functions one after another from an index: where all functions start, the ones before
included, and the code. -/
def layout (entries : List Nat) (start : Nat) : List FunctionDef → List Nat × List Instr
  | [] => (entries, [])
  | f :: rest =>
    let entries := entries ++ [start]
    let code := f.code entries start
    let (entries, more) := layout entries (start + code.length) rest
    (entries, code ++ more)

end FunctionDef

namespace Script

/-- The index at which the functions start, behind the first declarations and a jump. -/
def bodiesStart (s : Script) : Nat := (Decl.listCode (.top []) s.decls).length + 1

/-- Where the functions start, by number. -/
def entries (s : Script) : List Nat := (FunctionDef.layout [] s.bodiesStart s.functions).1

/-- The code of the functions. -/
def bodies (s : Script) : List Instr := (FunctionDef.layout [] s.bodiesStart s.functions).2

/-- The site of the code behind the functions. -/
def site (s : Script) : Site := .top s.entries

/-- The index at which the code behind the functions starts. -/
def mainStart (s : Script) : Nat := s.bodiesStart + s.bodies.length

/-- The code of the later declarations and the statements. -/
def mainCode (s : Script) : List Instr :=
  let decls := Decl.listCode s.site s.lateDecls
  decls ++ Stmt.blockCode s.site (s.mainStart + decls.length) s.body ++ s.site.defaultReturn

/-- The program of a script. -/
def program (s : Script) : Program :=
  { code := .ofList (Decl.listCode (.top []) s.decls ++ .jump s.mainStart ::
      (s.bodies ++ s.mainCode))
    globals := s.globals
    functions := (s.functions.zip s.entries).map fun (f, start) => f.toEntry start }

end Script

/-- The program that gives the value of an expression. -/
def Expr.program (e : Expr) : Program :=
  let top := Site.top []
  { code := .ofList (e.closedCode top ++ [.ret 0 0])
    globals := []
    functions := [] }

end StackScript
