import StackScript.Proofs.Rendering.Layout
import StackScript.Script

/-!
# How scripts are written

The tokens of the parts of a script. A script can be written in many ways: a literal has several
spellings, and declarations can share a `var` or have one each. The bodies of `if` and `while` stand
in braces. `Script.Rendering` puts this together with the layout: it relates a script to all its
texts.
-/

namespace StackScript

/-- The tokens of items in a list, with commas between them. -/
def commas : List (List Token) → List Token
  | [] => []
  | first :: rest => first ++ rest.flatMap (Token.mark ',' :: ·)

/-- The tokens of a body in braces. -/
def braced (body : List Token) : List Token := .mark '{' :: (body ++ [.mark '}'])

/-- The spellings of a literal. -/
inductive Value.Spelled : Value → Token → Prop
  | number {n : Literal.Numeral} {v : Value} {text : List Char} (h : n.Written text)
      (hv : n.value? = some v) : Spelled v (.number text)
  | plain {s text : List Char} (h : Literal.PlainText s text) :
      Spelled (.string (String.ofList s)) (.quoted ('\'' :: (text ++ ['\''])))
  | raw {s : List Char} (h : '\'' ∉ s) :
      Spelled (.string (String.ofList s)) (.quoted ('@' :: '\'' :: (s ++ ['\''])))
  | true : Spelled (.bool true) (.word "true")
  | false : Spelled (.bool false) (.word "false")

mutual

/-- The ways to write an expression. -/
def Expr.Spelled : Expr → List Token → Prop
  | .literal v, ts => ∃ t, v.Spelled t ∧ ts = [t]
  | .var name _, ts => ts = [.word name]
  | .group e, ts => ∃ xs, e.Spelled xs ∧ ts = .mark '(' :: (xs ++ [.mark ')'])
  | .call name _ args, ts =>
    ∃ xss, Expr.AllSpelled args xss ∧ ts = .word name :: .mark '(' :: (commas xss ++ [.mark ')'])
  | .unary op e, ts =>
    ∃ c xs, Operator.ofSign? c = some op ∧ e.Spelled xs ∧ ts = .mark c :: xs
  | .binary op lhs rhs, ts =>
    ∃ xs ys, lhs.Spelled xs ∧ rhs.Spelled ys ∧ ts = xs ++ .operator op :: ys

/-- The ways to write expressions one by one. -/
def Expr.AllSpelled : List Expr → List (List Token) → Prop
  | [], xss => xss = []
  | e :: es, xss => ∃ xs rest, e.Spelled xs ∧ Expr.AllSpelled es rest ∧ xss = xs :: rest

end

mutual

/-- The ways to write a statement. -/
def Stmt.Spelled : Stmt → List Token → Prop
  | .assign name _ e, ts => ∃ xs, e.Spelled xs ∧ ts = .word name :: .mark '=' :: (xs ++ [.mark ';'])
  | .call name callee args, ts =>
    ∃ xs, (Expr.call name callee args).Spelled xs ∧ ts = xs ++ [.mark ';']
  | .ret none, ts => ts = [.word "return", .mark ';']
  | .ret (some e), ts => ∃ xs, e.Spelled xs ∧ ts = .word "return" :: (xs ++ [.mark ';'])
  | .ifThen test body, ts =>
    ∃ xs ys, test.Spelled xs ∧ Stmt.AllSpelled body ys ∧ ts = .word "if" :: (xs ++ braced ys)
  | .ifElse test body other, ts =>
    ∃ xs ys zs, test.Spelled xs ∧ Stmt.AllSpelled body ys ∧ Stmt.AllSpelled other zs ∧
      ts = .word "if" :: (xs ++ (braced ys ++ .word "else" :: braced zs))
  | .whileDo test body, ts =>
    ∃ xs ys, test.Spelled xs ∧ Stmt.AllSpelled body ys ∧ ts = .word "while" :: (xs ++ braced ys)

/-- The ways to write statements one after another. -/
def Stmt.AllSpelled : List Stmt → List Token → Prop
  | [], ts => ts = []
  | st :: rest, ts => ∃ xs ys, st.Spelled xs ∧ Stmt.AllSpelled rest ys ∧ ts = xs ++ ys

end

namespace Decl

/-- The ways to write one declared variable. -/
def Spelled (d : Decl) (ts : List Token) : Prop :=
  match d.init with
  | none => ts = [.word d.name]
  | some e => ∃ xs, e.Spelled xs ∧ ts = .word d.name :: .mark '=' :: xs

/-- The ways to write declared variables one by one. -/
def EachSpelled : List Decl → List (List Token) → Prop
  | [], xss => xss = []
  | d :: ds, xss => ∃ xs rest, d.Spelled xs ∧ EachSpelled ds rest ∧ xss = xs :: rest

/-- The ways to write declarations, some or all of them under one `var`. -/
inductive AllSpelled : List Decl → List Token → Prop
  | nil : AllSpelled [] []
  | group {d : Decl} {ds rest : List Decl} {xss : List (List Token)} {ys : List Token}
      (hgroup : EachSpelled (d :: ds) xss) (hrest : AllSpelled rest ys) :
      AllSpelled (d :: ds ++ rest) (.word "var" :: (commas xss ++ .mark ';' :: ys))

end Decl

namespace FunctionDef

/-- The ways to write a function. -/
def Spelled (f : FunctionDef) (ts : List Token) : Prop :=
  ∃ xs ys, Decl.AllSpelled f.decls xs ∧ Stmt.AllSpelled f.body ys ∧
    ts = .word "function" :: .word f.name :: .mark '(' ::
      (commas (f.params.map fun param => [.word param]) ++ .mark ')' :: braced (xs ++ ys))

/-- The ways to write functions one after another. -/
def AllSpelled : List FunctionDef → List Token → Prop
  | [], ts => ts = []
  | f :: rest, ts => ∃ xs ys, f.Spelled xs ∧ AllSpelled rest ys ∧ ts = xs ++ ys

end FunctionDef

namespace Script

/-- The ways to write a script. -/
def Spelled (s : Script) (ts : List Token) : Prop :=
  ∃ ws xs ys zs, Decl.AllSpelled s.decls ws ∧ FunctionDef.AllSpelled s.functions xs ∧
    Decl.AllSpelled s.lateDecls ys ∧ Stmt.AllSpelled s.body zs ∧ ts = ws ++ (xs ++ (ys ++ zs))

/-- The texts of a script. -/
def Rendering (s : Script) (text : List Char) : Prop := ∃ ts, s.Spelled ts ∧ Renders ts text

end Script

end StackScript
