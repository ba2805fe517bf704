import StackScript.Proofs.Machine.Waiting
import StackScript.Proofs.Script.Bodies
import StackScript.Proofs.Script.Rules

/-!
# Waiting operators in generated code

How many operators can wait in the code of a script. An expression that does not nest holds at most
six of them at once, one for each level, as an operator that comes in sends away those that bind at
least as tightly. A parenthesis or a call waits besides them while its inside is read, so each level
of nesting adds seven, and a call that is a statement one more (`Expr.leads_code`). Between two
statements nothing waits, and there all jumps are made and all functions begin (`Stmt.leads_code`,
`FunctionDef.leads_layout`), so all code of a script is in place (`Script.leads_program`), and that of
an expression on its own (`Expr.leads_program`).
-/

namespace StackScript

/-- Code that is gone through in order, from where `ops` wait to where `ops'` wait: all its
instructions are in place, and never do more than `n` operators wait. -/
inductive Leads (n : Nat) (rests : Nat → Prop) :
    (ops : List Operator) → List Instr → (ops' : List Operator) → Prop where
  | nil {ops : List Operator} (h : ops.length ≤ n) : Leads n rests ops [] ops
  | cons {ops ops' : List Operator} {i : Instr} {code : List Instr} (h : ops.length ≤ n)
      (hi : i.Suits rests ops) (hcode : Leads n rests (i.waiting ops) code ops') :
      Leads n rests ops (i :: code) ops'

namespace Leads

variable {n : Nat} {rests : Nat → Prop} {ops ops' ops'' : List Operator} {c₁ c₂ : List Instr}

theorem first_le (h : Leads n rests ops c₁ ops') : ops.length ≤ n := by
  cases h with
  | nil h => exact h
  | cons h hi hcode => exact h

theorem last_le (h : Leads n rests ops c₁ ops') : ops'.length ≤ n := by
  induction h with
  | nil h => exact h
  | cons h hi hcode ih => exact ih

theorem rest : Leads n rests [] [] [] := .nil (Nat.zero_le n)

theorem next {i : Instr} (hi : i.Suits rests []) (h : Leads n rests (i.waiting []) c₁ ops) :
    Leads n rests [] (i :: c₁) ops :=
  .cons (Nat.zero_le n) hi h

theorem append (h₁ : Leads n rests ops c₁ ops') (h₂ : Leads n rests ops' c₂ ops'') :
    Leads n rests ops (c₁ ++ c₂) ops'' := by
  induction h₁ with
  | nil h => exact h₂
  | cons h hi hcode ih => exact .cons h hi (ih h₂)

theorem foldl_eq (h : Leads n rests ops c₁ ops') : c₁.foldl Instr.waiting ops = ops' := by
  induction h with
  | nil h => rfl
  | cons h hi hcode ih => exact ih

/-- What waits at an index of the code. -/
theorem take (h : Leads n rests ops c₁ ops') (j : Nat) :
    ((c₁.take j).foldl Instr.waiting ops).length ≤ n ∧
      ∀ i, c₁[j]? = some i → i.Suits rests ((c₁.take j).foldl Instr.waiting ops) := by
  induction h generalizing j with
  | nil h =>
    rw [List.take_nil]
    exact ⟨h, nofun⟩
  | cons h hi hcode ih =>
    cases j with
    | zero =>
      refine ⟨h, fun i' hi' => ?_⟩
      cases hi'
      exact hi
    | succ j => exact ih j

end Leads

namespace Program

variable {p : Program} {n start : Nat} {rests : Nat → Prop} {code : List Instr} {i : Instr}

/-- Behind an instruction before which nothing waits. -/
theorem Rests.next (h : p.Rests start) (hi : p.code.get? start = some i)
    (hnone : i.waiting [] = []) : p.Rests (start + 1) := by
  unfold Rests at h ⊢
  rw [p.waitingAt_succ hi, h, hnone]

theorem waitingAt_add (h : CodeAt p start code) :
    p.waitingAt (start + code.length) = code.foldl Instr.waiting (p.waitingAt start) := by
  induction code generalizing start with
  | nil => rfl
  | cons i rest ih =>
    rw [List.length_cons, Nat.add_comm rest.length, ← Nat.add_assoc, ih h.tail,
      p.waitingAt_succ h.head]
    rfl

/-- Behind code that leads from nothing waiting to nothing waiting. -/
theorem Rests.after (h : p.Rests start) (hcode : CodeAt p start code)
    (hleads : Leads n rests [] code []) : p.Rests (start + code.length) := by
  unfold Rests at h ⊢
  rw [waitingAt_add hcode, h, hleads.foldl_eq]

end Program

/-! ## Expressions -/

/-- The priorities of operators with operands, the loosest first. -/
def Operator.priorities : List Int := [3, 4, 5, 10, 20, 30]

/-- How many levels of operators bind less tightly. -/
def Operator.levelsBelow (binding : Int) : Nat := priorities.countP (· < binding)

theorem Operator.levelsBelow_mono {b b' : Int} (h : b ≤ b') : levelsBelow b ≤ levelsBelow b' := by
  refine List.countP_mono_left fun x _ hx => ?_
  simp only [decide_eq_true_eq] at hx ⊢
  omega

/-- The level of a binary operator is one of those below what binds more tightly. -/
theorem Operator.levelsBelow_lt {op : Operator} (hop : op ∈ binary) {b : Int}
    (h : op.priority < b) : levelsBelow op.priority < levelsBelow b := by
  have hlevel : ∀ q ∈ binary, levelsBelow q.priority < levelsBelow (q.priority + 1) := by decide
  exact Nat.lt_of_lt_of_le (hlevel op hop) (levelsBelow_mono (by omega))

theorem Operator.levelsBelow_primary : levelsBelow 40 = 6 := by decide

theorem Operator.levelsBelow_unary : levelsBelow 30 = 5 := by decide

namespace Operator

variable {op : Operator} {b : Int} {pending ops : List Operator}

theorem taken_endOfExpression (hp : Pending b pending) (hb : 0 ≤ b)
    (hops : ∀ q ∈ ops.head?, q.isBarrier) : taken .endOfExpression (pending ++ ops) = ops := by
  have hyields : ∀ q ∈ pending, Exec.yieldsTo .endOfExpression q = true := hp.yieldsTo hb
  exact (Activation.splitWhile hyields fun q hq => by simp [Exec.yieldsTo, hops q hq]).2

theorem not_barrier_of_isUnary (hop : op.isUnary) : op.isBarrier = false ∧ op ≠ closeParen := by
  cases op with
  | not | neg | pos => exact ⟨rfl, nofun⟩
  | _ => cases hop

theorem taken_of_isUnary (hop : op.isUnary) : op.taken ops = op :: ops := by
  cases op with
  | not | neg | pos => rfl
  | _ => cases hop

theorem taken_of_binary (hop : op ∈ binary) :
    op.taken ops = op :: ops.dropWhile (Exec.yieldsTo op) := by
  cases op with
  | openParen | closeParen | prepareCall | endOfExpression | not | neg | pos =>
    exact absurd hop (by decide)
  | _ => rfl

/-- A closing parenthesis finds the one that it closes. -/
theorem dropWhile_openParen (hp : Pending b pending) (ops : List Operator) :
    (pending ++ openParen :: ops).dropWhile (!·.isBarrier) = openParen :: ops := by
  refine (Activation.splitWhile (fun q hq => ?_) ?_).2
  · rw [(hp q hq).1]
    rfl
  · rintro q ⟨⟩
    rfl

/-- Only the parentheses and the calls have to be in place. -/
theorem suits_of_ne_closeParen {rests : Nat → Prop} (h : op ≠ closeParen) :
    (Instr.operator op).Suits rests ops := by
  cases op with
  | closeParen => exact absurd rfl h
  | _ => trivial

end Operator

section Expressions

variable {n : Nat} {rests : Nat → Prop} {k : Names} {site : Site}

theorem Leads.endOfExpression {b : Int} {pending ops : List Operator} {code : List Instr}
    (hcode : Leads n rests ops code (pending ++ ops)) (hp : Pending b pending) (hb : 0 ≤ b)
    (hops : ∀ q ∈ ops.head?, q.isBarrier) :
    Leads n rests ops (code ++ [.endOfExpression]) ops := by
  have htaken := Operator.taken_endOfExpression hp hb hops
  refine hcode.append (.cons hcode.last_le trivial ?_)
  show Leads n rests (Operator.taken .endOfExpression (pending ++ ops)) [] ops
  rw [htaken]
  exact .nil hcode.first_le

/-- A call takes away its `prepareCall`. -/
theorem Leads.call {ops : List Operator} {args : List Instr} {target : Nat} (hn : ops.length ≤ n)
    (hargs : Leads n rests (.prepareCall :: ops) args (.prepareCall :: ops)) :
    Leads n rests ops (.operator .prepareCall :: (args ++ [.call target])) ops :=
  .cons hn trivial (hargs.append (.cons hargs.last_le rfl (.nil hn)))

mutual

/-- **The code of an expression keeps the operators that wait within bounds.** Seven levels of
operators and marks are allowed for each level of nesting, less those that bind more tightly than
the expression, as they cannot wait when it begins. -/
theorem Expr.leads_code (e : Expr) (he : e.WellFormed k) (ops : List Operator)
    (hn : ops.length + 7 * e.depth ≤ n + Operator.levelsBelow e.binding)
    (hops : ∀ q ∈ ops.head?, q.isBarrier ∨ q.priority < e.binding) :
    ∃ pending, Pending e.binding pending ∧ Leads n rests ops (e.code site) (pending ++ ops) := by
  match e with
  | .literal v =>
    rw [Expr.depth, Expr.binding_of_isPrimary rfl, Operator.levelsBelow_primary] at hn
    have hlen : ops.length ≤ n := by omega
    exact ⟨[], nofun, .cons hlen trivial (.nil hlen)⟩
  | .var name place =>
    rw [Expr.depth, Expr.binding_of_isPrimary rfl, Operator.levelsBelow_primary] at hn
    have hlen : ops.length ≤ n := by omega
    refine ⟨[], nofun, ?_⟩
    cases place <;> exact .cons hlen trivial (.nil hlen)
  | .group e =>
    rw [Expr.depth, Expr.binding_of_isPrimary rfl, Operator.levelsBelow_primary] at hn
    have hlen : ops.length ≤ n := by omega
    obtain ⟨pending, hp, hcode⟩ := Expr.leads_code e he (.openParen :: ops)
      (by rw [List.length_cons]; omega) (by rintro q ⟨⟩; exact Or.inl rfl)
    have hdrop := Operator.dropWhile_openParen hp ops
    refine ⟨[], nofun, .cons hlen trivial (hcode.append (.cons hcode.last_le ?_ ?_))⟩
    · show ((pending ++ Operator.openParen :: ops).dropWhile (!·.isBarrier)).head? = _
      rw [hdrop]
      rfl
    · show Leads n rests ((pending ++ Operator.openParen :: ops).dropWhile (!·.isBarrier)).tail [] ops
      rw [hdrop]
      exact .nil hlen
  | .call name callee args =>
    rw [Expr.depth, Expr.binding_of_isPrimary rfl, Operator.levelsBelow_primary] at hn
    exact ⟨[], nofun, .call (by omega) (Expr.leads_args args he.2 (.prepareCall :: ops)
      (by rw [List.length_cons]; omega) (by rintro q ⟨⟩; rfl))⟩
  | .unary op e =>
    obtain ⟨hop, hprimary, hwf⟩ := he
    have hbinding := Expr.binding_of_isPrimary hprimary
    have hprio := Operator.priority_of_isUnary hop
    rw [Expr.depth, Expr.binding, hprio, Operator.levelsBelow_unary] at hn
    obtain ⟨pending, hp, hcode⟩ := Expr.leads_code e hwf (op :: ops)
      (by rw [List.length_cons, hbinding, Operator.levelsBelow_primary]; omega)
      (by rintro q ⟨⟩; exact Or.inr (by omega))
    obtain ⟨hbarrier, hclose⟩ := Operator.not_barrier_of_isUnary hop
    refine ⟨pending ++ [op], hp.snoc hbarrier (by omega), ?_⟩
    rw [List.append_assoc]
    refine .cons (Nat.le_of_succ_le hcode.first_le) (Operator.suits_of_ne_closeParen hclose) ?_
    show Leads n rests (op.taken ops) _ _
    rw [Operator.taken_of_isUnary hop]
    exact hcode
  | .binary op lhs rhs =>
    obtain ⟨hop, hlhs, hrhs, hwl, hwr⟩ := he
    have hbarrier := (Operator.not_barrier_of_binary hop).2
    rw [Expr.depth, Expr.binding] at hn
    have hmono := Operator.levelsBelow_mono hlhs
    have hlt := Operator.levelsBelow_lt hop hrhs
    obtain ⟨left, hleft, hcodel⟩ := Expr.leads_code lhs hwl ops (by omega)
      fun q hq => (hops q hq).imp_right fun h => Int.lt_of_lt_of_le h hlhs
    obtain ⟨right, hright, hcoder⟩ := Expr.leads_code rhs hwr (op :: ops)
      (by rw [List.length_cons]; omega) (by rintro q ⟨⟩; exact Or.inr hrhs)
    -- the operators of the left operand are applied first, those from before it wait on
    have htaken : op.taken (left ++ ops) = op :: ops := by
      rw [Operator.taken_of_binary hop, (Activation.splitWhile (hleft.yieldsTo hlhs) ?_).2]
      intro q hq
      rcases hops q hq with h | h
      · simp [Exec.yieldsTo, h]
      · have hlt : q.priority < op.priority := h
        simp [Exec.yieldsTo, Int.not_le.mpr hlt]
    refine ⟨right ++ [op], hright.snoc hbarrier (Int.le_of_lt hrhs), ?_⟩
    rw [List.append_assoc]
    have hclose : op ≠ .closeParen := by
      rintro rfl
      exact absurd hop (by decide)
    refine hcodel.append (.cons hcodel.last_le (Operator.suits_of_ne_closeParen hclose) ?_)
    show Leads n rests (op.taken (left ++ ops)) _ _
    rw [htaken]
    exact hcoder

/-- Before each argument the same operators wait. -/
theorem Expr.leads_args (args : List Expr) (he : Expr.AllWellFormed k args) (ops : List Operator)
    (hn : ops.length + 7 * Expr.depthAll args ≤ n) (hops : ∀ q ∈ ops.head?, q.isBarrier) :
    Leads n rests ops (Expr.argsCode site args) ops := by
  match args with
  | [] => exact .nil (by omega)
  | e :: rest =>
    rw [Expr.depthAll] at hn
    obtain ⟨pending, hp, hcode⟩ := Expr.leads_code e he.1 ops (by omega)
      fun q hq => Or.inl (hops q hq)
    have hrest := Expr.leads_args rest he.2 ops (by omega) hops
    rw [Expr.argsCode, List.append_cons]
    exact (hcode.endOfExpression hp (Expr.binding_nonneg he.1) hops).append hrest

end

/-- An expression with its end is read where nothing waits, and then nothing waits. -/
theorem Expr.leads_closedCode {e : Expr} (he : e.WellFormed k) (hn : 7 * e.depth ≤ n) :
    Leads n rests [] (e.closedCode site) [] := by
  have hopen : ∃ pending, Pending e.binding pending ∧
      Leads n rests [] (e.code site) (pending ++ []) :=
    e.leads_code he [] (by rw [List.length_nil]; omega) nofun
  obtain ⟨pending, hp, hcode⟩ := hopen
  exact hcode.endOfExpression hp (Expr.binding_nonneg he) nofun

end Expressions

/-! ## Statements -/

section Statements

variable {p : Program} {n start : Nat} {rests : Nat → Prop} {k : Names} {site : Site}

theorem Place.leads_store (place : Place) : Leads n rests [] [place.store site] [] := by
  cases place <;> exact .next trivial .rest

theorem Site.leads_defaultReturn : Leads n rests [] site.defaultReturn [] :=
  .next trivial (.next trivial (.next rfl .rest))

/-- Nothing waits before a test, nor behind its jump. -/
theorem Expr.leads_test {e : Expr} {target : Nat} {code : List Instr} (he : e.WellFormed k)
    (hn : 7 * e.depth < n) (hcode : CodeAt p start (e.closedCode site ++ .jumpIfFalse target :: code))
    (hstart : p.Rests start) :
    Leads n p.Rests [] (e.closedCode site) [] ∧
      p.Rests (start + (e.closedCode site).length + 1) := by
  have htest : Leads n p.Rests [] (e.closedCode site) [] :=
    Expr.leads_closedCode he (Nat.le_of_lt hn)
  exact ⟨htest, (hstart.after hcode.left htest).next hcode.right.head rfl⟩

mutual

/-- **Between two statements nothing waits**, and all jumps lead there. -/
theorem Stmt.leads_code (start : Nat) (st : Stmt) (h : st.WellFormed k) (hn : 7 * st.depth < n)
    (hcode : CodeAt p start (st.code site start)) (hstart : p.Rests start) :
    Leads n p.Rests [] (st.code site start) [] := by
  match st with
  | .assign name place e => exact (Expr.leads_closedCode h.2 (Nat.le_of_lt hn)).append place.leads_store
  | .call name callee args =>
    rw [Stmt.depth] at hn
    have hargs : Leads n p.Rests [.prepareCall] (Expr.argsCode site args) [.prepareCall] :=
      Expr.leads_args args h.2 [.prepareCall] (by rw [List.length_singleton]; omega)
        (by rintro q ⟨⟩; rfl)
    exact (Leads.call (Nat.zero_le n) hargs).append (.next trivial .rest)
  | .ret none => exact .next trivial (.next rfl .rest)
  | .ret (some e) =>
    exact (Expr.leads_closedCode h (Nat.le_of_lt hn)).append (.next rfl .rest)
  | .ifThen test body =>
    rw [Stmt.depth] at hn
    rw [Stmt.code] at hcode ⊢
    obtain ⟨htest, hinto⟩ := Expr.leads_test (n := n) h.1 (by omega) hcode hstart
    have hbody := Stmt.leads_block _ body h.2 (by omega) hcode.right.tail hinto
    have hend := hinto.after hcode.right.tail hbody
    exact htest.append (.next ⟨rfl, hend⟩ hbody)
  | .ifElse test body other =>
    rw [Stmt.depth] at hn
    rw [Stmt.code] at hcode ⊢
    obtain ⟨htest, hinto⟩ := Expr.leads_test (n := n) h.1 (by omega) hcode hstart
    have hbranches := hcode.right.tail
    have hbody := Stmt.leads_block _ body h.2.1 (by omega) hbranches.left hinto
    have hother := (hinto.after hbranches.left hbody).next hbranches.right.head rfl
    have helse := Stmt.leads_block _ other h.2.2 (by omega) hbranches.right.tail hother
    have hend := hother.after hbranches.right.tail helse
    exact htest.append (.next ⟨rfl, hother⟩ (hbody.append (.next ⟨rfl, hend⟩ helse)))
  | .whileDo test body =>
    rw [Stmt.depth] at hn
    rw [Stmt.code] at hcode ⊢
    obtain ⟨htest, hinto⟩ := Expr.leads_test (n := n) h.1 (by omega) hcode hstart
    have hloop := hcode.right.tail
    have hbody := Stmt.leads_block _ body h.2 (by omega) hloop.left hinto
    have hend := (hinto.after hloop.left hbody).next hloop.right.head rfl
    exact htest.append (.next ⟨rfl, hend⟩ (hbody.append (.next ⟨rfl, hstart⟩ .rest)))

theorem Stmt.leads_block (start : Nat) (body : List Stmt) (h : Stmt.AllWellFormed k body)
    (hn : 7 * Stmt.depthAll body < n) (hcode : CodeAt p start (Stmt.blockCode site start body))
    (hstart : p.Rests start) : Leads n p.Rests [] (Stmt.blockCode site start body) [] := by
  match body with
  | [] => exact .rest
  | st :: rest =>
    rw [Stmt.depthAll] at hn
    rw [Stmt.blockCode] at hcode ⊢
    have hst := Stmt.leads_code start st h.1 (by omega) hcode.left hstart
    exact hst.append (Stmt.leads_block _ rest h.2 (by omega) hcode.right (hstart.after hcode.left hst))

end

theorem Decl.leads_listCode (decls : List Decl) (h : Decl.AllWellFormed k decls)
    (hn : 7 * Decl.depthAll decls < n) : Leads n rests [] (Decl.listCode site decls) [] := by
  induction decls generalizing k with
  | nil => exact .rest
  | cons d rest ih =>
    obtain ⟨-, hinit, hrest⟩ := h
    rw [Decl.depthAll] at hn
    have hroom : Leads n rests [] d.place.room [] := by
      cases d.place with
      | global slot => exact .rest
      | frame ordinal => exact .next trivial .rest
    have hcode : Leads n rests [] (d.initCode site) [] := by
      unfold Decl.initCode
      cases he : d.init with
      | none => exact .rest
      | some e =>
        have hdepth : d.depth = e.depth := by simp [Decl.depth, he]
        exact (Expr.leads_closedCode (hinit e he) (by omega)).append d.place.leads_store
    exact (hroom.append hcode).append (ih hrest (by omega))

/-- The code of a function, and that behind all functions: declarations, statements and a return. -/
theorem leads_body {decls : List Decl} {body : List Stmt} {k' : Names}
    (hdecls : Decl.AllWellFormed k decls) (hbody : Stmt.AllWellFormed k' body)
    (hn : 7 * Decl.depthAll decls < n) (hn' : 7 * Stmt.depthAll body < n)
    (hcode : CodeAt p start (Decl.listCode site decls ++
      Stmt.blockCode site (start + (Decl.listCode site decls).length) body ++ site.defaultReturn))
    (hstart : p.Rests start) :
    Leads n p.Rests [] (Decl.listCode site decls ++
      Stmt.blockCode site (start + (Decl.listCode site decls).length) body ++
        site.defaultReturn) [] := by
  have hfirst : Leads n p.Rests [] (Decl.listCode site decls) [] :=
    Decl.leads_listCode decls hdecls hn
  have hat := hstart.after hcode.left.left hfirst
  exact (hfirst.append (Stmt.leads_block _ body hbody hn' hcode.left.right hat)).append
    Site.leads_defaultReturn

/-- **Nothing waits where a function begins.** -/
theorem FunctionDef.leads_layout (entries : List Nat) (start : Nat) (fs : List FunctionDef)
    (h : FunctionDef.AllWellFormed k fs) (hn : 7 * FunctionDef.depthAll fs < n)
    (hcode : CodeAt p start (layout entries start fs).2) (hstart : p.Rests start)
    (hentries : ∀ entry ∈ entries, p.Rests entry) :
    Leads n p.Rests [] (layout entries start fs).2 [] ∧
      ∀ entry ∈ (layout entries start fs).1, p.Rests entry := by
  induction fs generalizing k entries start with
  | nil => exact ⟨.rest, hentries⟩
  | cons f rest ih =>
    rw [FunctionDef.depthAll, FunctionDef.depth] at hn
    rw [FunctionDef.layout] at hcode
    have hf : Leads n p.Rests [] (f.code (entries ++ [start]) start) [] :=
      leads_body h.1.1 h.1.2 (by omega) (by omega) hcode.left hstart
    have hentries' : ∀ entry ∈ entries ++ [start], p.Rests entry :=
      List.forall_mem_append.mpr ⟨hentries, List.forall_mem_singleton.mpr hstart⟩
    obtain ⟨hrest, hall⟩ := ih _ _ h.2 (by omega) hcode.right (hstart.after hcode.left hf) hentries'
    exact ⟨hf.append hrest, hall⟩

end Statements

/-! ## Programs -/

/-- **All code of a script is in place**: in a frame wait at most seven operators for each level of
nesting, and one, and nothing waits where a function begins. -/
theorem Script.leads_program {s : Script} {n : Nat} (h : s.WellFormed) (hn : 7 * s.depth < n) :
    Leads n s.program.Rests [] s.program.code.instrs.toList [] ∧
      ∀ f ∈ s.program.functions, s.program.Rests f.entry := by
  rw [depth] at hn
  have hcode := s.codeAt_program
  have hdecls : Leads n s.program.Rests [] (Decl.listCode (.top []) s.decls) [] :=
    Decl.leads_listCode s.decls h.decls (by omega)
  have hzero : s.program.Rests 0 := rfl
  -- the jump over the functions is gone through like any other instruction
  have hskip := (hzero.after hcode.left hdecls).next hcode.right.head rfl
  have hrest := hcode.right.tail
  rw [Nat.zero_add] at hskip hrest
  obtain ⟨hbodies, hentries⟩ := FunctionDef.leads_layout (n := n) [] s.bodiesStart s.functions
    h.functions (by omega) hrest.left hskip nofun
  have hmain : s.program.Rests s.mainStart := hskip.after hrest.left hbodies
  have hlast : Leads n s.program.Rests [] s.mainCode [] :=
    leads_body h.lateDecls h.body (by omega) (by omega) s.codeAt_mainCode hmain
  refine ⟨hdecls.append (.next ⟨rfl, hmain⟩ (hbodies.append hlast)), fun f hf => ?_⟩
  refine hentries f.entry ?_
  have hentry : f.entry ∈ s.program.functions.map (·.entry) := List.mem_map_of_mem hf
  rwa [s.map_entry_functions] at hentry

/-- The same of an expression on its own. -/
theorem Expr.leads_program {e : Expr} {k : Names} {n : Nat} {rests : Nat → Prop}
    (h : e.WellFormed k) (hn : 7 * e.depth ≤ n) :
    Leads n rests [] e.program.code.instrs.toList [] :=
  (Expr.leads_closedCode h hn).append (.next rfl .rest)

end StackScript
