import StackScript.Proofs.Script.WellFormed
import StackScript.Machine.Step

/-!
# Operators by level

An expression is written as a sequence of operands with operators between them. `Expr.Grouped` is
the grammar of the trees that are meant, with one rule for each level: `||` binds loosest, then
`&&`, the comparisons, `+` and `-`, `*`, `/` and `%`, and the prefix operators tightest, and all
binary operators group from the left. It does not mention priorities; `Operator.priority_lt` and
`Operator.priority_le` say that those agree with the levels.

Every sequence is the code of such a tree (`Expr.exists_grouped`): operand by operand, a tree
extended at its end by priority is again a tree by levels (`Expr.Grouped.extend`).
-/

namespace StackScript

/-- How tightly an operator binds, the loosest first. -/
def Operator.level? : Operator → Option Nat
  | .or => some 0
  | .and => some 1
  | .eq | .ne | .le | .ge | .lt | .gt => some 2
  | .add | .sub => some 3
  | .mul | .div | .mod => some 4
  | .not | .neg | .pos => some 5
  | .openParen | .closeParen | .endOfExpression | .prepareCall => none

/-- The trees over constants that a level stands for: a binary operator has trees of its own level
to the left and of tighter ones to the right, and at most one prefix operator stands before a
constant or a group. -/
inductive Expr.Grouped : (level : Nat) → Expr → Prop where
  | literal (v : Value) : Grouped 6 (.literal v)
  | group {e : Expr} (h : Grouped 0 e) : Grouped 6 (.group e)
  | unary {op : Operator} {e : Expr} (hop : op.level? = some 5) (h : Grouped 6 e) :
      Grouped 5 (.unary op e)
  | binary {n : Nat} {op : Operator} {lhs rhs : Expr} (hn : n < 5) (hop : op.level? = some n)
      (hl : Grouped n lhs) (hr : Grouped (n + 1) rhs) : Grouped n (.binary op lhs rhs)
  | tighter {n : Nat} {e : Expr} (h : Grouped (n + 1) e) : Grouped n e

/-- Any tree over constants: parentheses where they are written, and operators grouped anyhow. -/
def Expr.Plain : Expr → Prop
  | .literal _ => True
  | .group e => e.Plain
  | .unary op e => op.isUnary ∧ e.isPrimary ∧ e.Plain
  | .binary op lhs rhs => op ∈ Operator.binary ∧ lhs.Plain ∧ rhs.Plain
  | .var _ _ | .call _ _ _ => False

namespace Operator

variable {op q : Operator} {i j : Nat}

theorem level?_of_isUnary (h : op.isUnary) : op.level? = some 5 := by
  cases op with
  | not | neg | pos => rfl
  | _ => cases h

theorem level?_of_binary (h : op ∈ binary) : ∃ n < 5, op.level? = some n := by
  revert op
  decide

theorem level?_eq_some (h : op.level? = some i) :
    op.isBarrier = false ∧ (op.isUnary = true ↔ i = 5) ∧ (op ∈ binary ↔ i < 5) := by
  cases op <;> cases h <;> decide

/-- The levels are the order of the priorities. -/
theorem priority_eq_of_level? (h : op.level? = some i) :
    ([3, 4, 5, 10, 20, 30] : List Int)[i]? = some op.priority := by
  cases op <;> cases h <;> rfl

theorem priority_lt (hop : op.level? = some i) (hq : q.level? = some j) (hij : i < j) :
    op.priority < q.priority := by
  have hordered : ([3, 4, 5, 10, 20, 30] : List Int).Pairwise (· < ·) := by decide
  obtain ⟨hi, hpop⟩ := List.getElem?_eq_some_iff.mp (priority_eq_of_level? hop)
  obtain ⟨hj, hpq⟩ := List.getElem?_eq_some_iff.mp (priority_eq_of_level? hq)
  rw [← hpop, ← hpq]
  exact List.pairwise_iff_getElem.mp hordered i j hi hj hij

theorem priority_le (hop : op.level? = some i) (hq : q.level? = some j) (hij : i ≤ j) :
    op.priority ≤ q.priority := by
  rcases Nat.lt_or_eq_of_le hij with hlt | rfl
  · exact Int.le_of_lt (priority_lt hop hq hlt)
  · have heq := (priority_eq_of_level? hop).symm.trans (priority_eq_of_level? hq)
    exact Int.le_of_eq (Option.some.inj heq)

/-- The end of an expression is looser than all of them. -/
theorem yieldsTo_endOfExpression (h : op.level? = some i) :
    Exec.yieldsTo .endOfExpression op = true := by
  cases op <;> first | rfl | cases h

end Operator

namespace Expr

variable {n k : Nat} {e : Expr}

theorem Grouped.mono (h : e.Grouped n) (hk : k ≤ n) : e.Grouped k := by
  induction hk with
  | refl => exact h
  | step _ ih => exact ih (.tighter h)

/-- An operator and an operand at the end of a tree give a tree. -/
theorem Grouped.extend {op : Operator} {operand : Expr} (h : e.Grouped n)
    (hk : k < 5) (hop : op.level? = some k) (hoperand : operand.Grouped 5) :
    (e.extend op operand).Grouped (min n k) := by
  have hright : operand.Grouped (k + 1) := hoperand.mono hk
  -- an operand, or a tree of operators that bind at least as tightly, goes to the left
  have hleft {tree : Expr} {n : Nat} (h : tree.Grouped n) (hn : k ≤ n) :
      (Expr.binary op tree operand).Grouped (min n k) := by
    rw [Nat.min_eq_right hn]
    exact .binary hk hop (h.mono hn) hright
  induction h with
  | literal v => exact hleft (.literal v) (by omega)
  | group h => exact hleft (.group h) (by omega)
  | unary hop' h => exact hleft (.unary hop' h) (by omega)
  | @binary n op' lhs rhs hn hop' hl hr _ ih =>
    unfold Expr.extend
    split
    · rename_i hlt
      have hnk : n < k := by
        refine Nat.lt_of_not_le fun hle => ?_
        have := Operator.priority_le hop hop' hle
        omega
      rw [Nat.min_eq_left (Nat.le_of_lt hnk)]
      exact .binary hn hop' hl (ih.mono (by omega))
    · rename_i hle
      have hkn : k ≤ n := Nat.le_of_not_lt fun hlt => hle (Operator.priority_lt hop' hop hlt)
      exact hleft (.binary hn hop' hl hr) hkn
  | tighter h ih => exact ih.mono (by omega)

theorem Grouped.of_binary {op : Operator} {lhs rhs : Expr} (h : (Expr.binary op lhs rhs).Grouped n) :
    (∃ k < 5, op.level? = some k) ∧ lhs.Grouped 0 ∧ rhs.Grouped 0 := by
  generalize he : Expr.binary op lhs rhs = e at h
  induction h with
  | literal v | group h | unary hop h => cases he
  | binary hn hop hl hr =>
    cases he
    exact ⟨⟨_, hn, hop⟩, hl.mono (Nat.zero_le _), hr.mono (Nat.zero_le _)⟩
  | tighter h ih => exact ih he

theorem Grouped.operand (h : e.Grouped n) (hbinary : ∀ op lhs rhs, e ≠ .binary op lhs rhs) :
    e.Grouped 5 := by
  induction h with
  | literal v => exact .tighter (.literal v)
  | group h => exact .tighter (.group h)
  | unary hop h => exact .unary hop h
  | binary hn hop hl hr => exact absurd rfl (hbinary _ _ _)
  | tighter h ih => exact ih hbinary

/-- Adds an operator and a whole tree at the end of an expression, operand by operand. -/
def attach (e : Expr) (op : Operator) : Expr → Expr
  | .binary op' lhs rhs => (e.attach op lhs).attach op' rhs
  | operand => e.extend op operand

theorem code_attach (s : Site) (e : Expr) (op : Operator) (tree : Expr) :
    (e.attach op tree).code s = e.code s ++ .operator op :: tree.code s := by
  fun_induction Expr.attach e op tree with
  | case1 e op op' lhs rhs ihl ihr => simp [ihl, ihr, Expr.code]
  | case2 e op operand h => exact code_extend s e op operand

theorem Grouped.attach {op : Operator} {tree : Expr} (h : e.Grouped 0)
    (hop : ∃ k < 5, op.level? = some k) (htree : tree.Grouped 0) :
    (e.attach op tree).Grouped 0 := by
  fun_induction Expr.attach e op tree with
  | case1 e op op' lhs rhs ihl ihr =>
    obtain ⟨hop', hl, hr⟩ := htree.of_binary
    exact ihr (ihl h hop hl) hop' hr
  | case2 e op operand hbinary =>
    obtain ⟨k, hk, hlevel⟩ := hop
    exact (h.extend hk hlevel (htree.operand hbinary)).mono (Nat.zero_le _)

/-- The tree of an expression in which the operators are grouped by their levels. -/
def regroup : Expr → Expr
  | .group e => .group e.regroup
  | .unary op e => .unary op e.regroup
  | .binary op lhs rhs => lhs.regroup.attach op rhs.regroup
  | e => e

theorem code_regroup (s : Site) (e : Expr) : e.regroup.code s = e.code s := by
  fun_induction Expr.regroup e with
  | case1 e ih => simp [Expr.code, ih]
  | case2 op e ih => simp [Expr.code, ih]
  | case3 op lhs rhs ihl ihr => rw [code_attach, ihl, ihr, Expr.code]
  | case4 e => rfl

theorem Plain.regroup (h : e.Plain) :
    e.regroup.Grouped 0 ∧ (e.isPrimary → e.regroup.Grouped 6) := by
  induction e using Expr.regroup.induct with
  | case1 e ih =>
    have hgroup : (Expr.group e.regroup).Grouped 6 := .group (ih h).1
    exact ⟨hgroup.mono (Nat.zero_le _), fun _ => hgroup⟩
  | case2 op e ih =>
    obtain ⟨hop, hprimary, he⟩ := h
    have hunary : (Expr.unary op e.regroup).Grouped 5 :=
      .unary (Operator.level?_of_isUnary hop) ((ih he).2 hprimary)
    exact ⟨hunary.mono (Nat.zero_le _), nofun⟩
  | case3 op lhs rhs ihl ihr =>
    obtain ⟨hop, hl, hr⟩ := h
    exact ⟨(ihl hl).1.attach (Operator.level?_of_binary hop) (ihr hr).1, nofun⟩
  | case4 e hgroup hunary hbinary =>
    cases e with
    | literal v => exact ⟨(Grouped.literal v).mono (Nat.zero_le _), fun _ => .literal v⟩
    | var name place => cases h
    | call name callee args => cases h
    | group e => exact absurd rfl (hgroup e)
    | unary op e => exact absurd rfl (hunary op e)
    | binary op lhs rhs => exact absurd rfl (hbinary op lhs rhs)

/-- **Every written sequence of operands and operators has a tree.** -/
theorem exists_grouped (h : e.Plain) :
    ∃ tree : Expr, tree.Grouped 0 ∧ ∀ site, tree.code site = e.code site :=
  ⟨e.regroup, h.regroup.1, fun site => code_regroup site e⟩

/-- The number of cells that the evaluation of an expression over constants takes at most. -/
def room : Expr → Nat
  | .group e | .unary _ e => e.room
  | .binary _ lhs rhs => max lhs.room (rhs.room + 1)
  | .literal _ | .var _ _ | .call _ _ _ => 1

end Expr

end StackScript
