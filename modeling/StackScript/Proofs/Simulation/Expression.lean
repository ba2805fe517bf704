import StackScript.Proofs.Simulation.Variables

/-!
# Expressions on the machine

The code of an expression is its written order, and the machine finds the grouping again. The link
is `Expr.evalOpen`, an evaluation that leaves the last operators of an expression unapplied, as the
machine does: closing its result gives the value (`Expr.eval_eq`). The machine follows it
(`Expr.follows_evalOpen`), because in a well-formed tree a left operand binds at least as tightly as
its operator and a right operand more tightly; so it follows the evaluation of an expression with
its end (`Expr.follows_closed`) and of arguments (`Expr.follows_evalAll`).
-/

namespace StackScript

open Machine Activation

section Open

variable (call : String → List Value → Eval Value)

/-- Evaluates an expression but for its last operators. -/
def Expr.evalOpen : Expr → Eval Open
  | .unary op e => do return .unary op (← e.evalOpen)
  | .binary op lhs rhs => do
    let a ← lhs.eval call
    return .binary op a (← rhs.evalOpen)
  | e => do return .value (← e.eval call)

theorem Expr.evalOpen_of_isPrimary {e : Expr} (h : e.isPrimary) :
    e.evalOpen call = (do return .value (← e.eval call)) := by
  cases e with
  | unary op e | binary op lhs rhs => cases h
  | _ => rfl

/-- Closing what is left open gives the value. -/
theorem Expr.eval_eq (e : Expr) :
    e.eval call = (do Eval.ofExcept (← e.evalOpen call).close) := by
  induction e using Expr.evalOpen.induct with
  | case1 op e ih | case2 op lhs e ih =>
    simp only [Expr.eval, Expr.evalOpen, ih, bind_assoc, pure_bind, Open.close, Eval.ofExcept_bind]
  | case3 e h₁ h₂ =>
    have hprimary : e.isPrimary := by
      cases e with
      | unary op e => exact absurd rfl (h₁ op e)
      | binary op lhs rhs => exact absurd rfl (h₂ op lhs rhs)
      | _ => rfl
    rw [Expr.evalOpen_of_isPrimary call hprimary]
    simp only [bind_assoc, pure_bind, Open.close]
    exact (bind_pure _).symm

end Open

theorem Operator.not_barrier_of_binary {op : Operator} (h : op ∈ binary) :
    op.isUnary = false ∧ op.isBarrier = false := by
  revert op
  decide

/-- An expression binds at least as tightly as the end of expressions. -/
theorem Expr.binding_nonneg {k : Names} {e : Expr} (h : e.WellFormed k) : 0 ≤ e.binding := by
  cases e with
  | unary op e =>
    have hop := Operator.priority_of_isUnary h.1
    simp [Expr.binding, hop]
  | binary op lhs rhs => exact Int.le_of_lt (Operator.priority_pos_of_binary h.1)
  | _ => exact Int.le_of_lt (by decide : (0 : Int) < 40)

/-- A machine at an index, which holds a store under an activation, temporaries and pending
operators, while names are in view. -/
def At (k : Names) (site : Site) (a : Activation) (temps : List Value) (ops : List Operator)
    (ip : Nat) (s : Store) (m : Machine) : Prop :=
  Agrees k site a s ∧ ∃ t, m = a.machine s temps ops ip t

/-- Calls of the functions in view are followed from the instruction that makes them: arguments and
`prepareCall` are replaced by the result, and the frame of the caller is as it was. -/
def CallsFollow (p : Program) (n : Nat) (k : Names) (site : Site)
    (call : String → List Value → Eval Value) : Prop :=
  ∀ (name : String) (callee : Nat) (args : List Value),
    k.function? name = some (callee, args.length) →
    ∀ (a : Activation) (s : Store) (temps : List Value) (ops : List Operator) (ip t : Nat),
      s.globals.names = k.globals → p.code.get? ip = some (.call (site.entry callee)) →
      Follows p n (a.machine s (temps ++ args) (.prepareCall :: ops) ip t) (call name args s)
        fun v s' m' => s'.globals.names = s.globals.names ∧ s'.frame = s.frame ∧
          ∃ t', m' = a.machine s' (temps ++ [v]) ops (ip + 1) t'

/-- A machine that holds an open expression which binds at least as tightly as given. -/
def OpenAt (k : Names) (site : Site) (a : Activation) (temps : List Value) (ops : List Operator)
    (ip : Nat) (binding : Int) (o : Open) (s : Store) (m : Machine) : Prop :=
  o.Fits ∧ (∀ q ∈ o.pending, binding ≤ q.priority) ∧
    At k site a (temps ++ o.values) (o.pending ++ ops) ip s m

section Follow

variable {p : Program} {n : Nat} {k : Names} {site : Site} {a : Activation} {s : Store}
  {m : Machine} {temps : List Value} {ops : List Operator} {ip : Nat}
  {call : String → List Value → Eval Value}

theorem At.index {ip' : Nat} (h : At k site a temps ops ip s m) (hi : ip = ip') :
    At k site a temps ops ip' s m := hi ▸ h

/-- A value is an open expression of which nothing is left to do. -/
theorem At.openAt {v : Value} {b : Int} (h : At k site a (temps ++ [v]) ops ip s m) :
    OpenAt k site a temps ops ip b (.value v) s m :=
  ⟨trivial, fun _ hq => (List.not_mem_nil hq).elim, h⟩

/-- The end of an expression closes it. -/
theorem OpenAt.follows_end {o : Open} {b : Int} (hb : 0 ≤ b) (h : OpenAt k site a temps ops ip b o s m)
    (hi : p.code.get? ip = some .endOfExpression) (hops : ∀ q ∈ ops.head?, q.isBarrier) :
    Follows p n m (Eval.ofExcept o.close s) (fun v => At k site a (temps ++ [v]) ops (ip + 1)) := by
  obtain ⟨hfits, hp, hagrees, t, rfl⟩ := h
  exact Follows.closes (closes_endOfExpression hi hfits (fun q hq => Int.le_trans hb (hp q hq)) hops)
    fun v => ⟨hagrees, _, rfl⟩

/-- A closing parenthesis closes the expression after the opening one. -/
theorem OpenAt.follows_closeParen {o : Open} {b : Int}
    (h : OpenAt k site a temps (.openParen :: ops) ip b o s m)
    (hi : p.code.get? ip = some (.operator .closeParen)) :
    Follows p n m (Eval.ofExcept o.close s) (fun v => At k site a (temps ++ [v]) ops (ip + 1)) := by
  obtain ⟨hfits, -, hagrees, t, rfl⟩ := h
  exact Follows.closes (closes_closeParen hi hfits) fun v => ⟨hagrees, _, rfl⟩

/-- A binary operator closes the expression before it, which binds at least as tightly. -/
theorem OpenAt.follows_binary {o : Open} {b : Int} {op : Operator} (hop : op ∈ Operator.binary)
    (hb : op.priority ≤ b) (h : OpenAt k site a temps ops ip b o s m)
    (hi : p.code.get? ip = some (.operator op))
    (hops : ∀ q ∈ ops.head?, q.isBarrier ∨ q.priority < op.priority) :
    Follows p n m (Eval.ofExcept o.close s)
      (fun v => At k site a (temps ++ [v]) (op :: ops) (ip + 1)) := by
  obtain ⟨hfits, hp, hagrees, t, rfl⟩ := h
  exact Follows.closes
    (closes_binary hi hop hfits (fun q hq => Int.le_trans hb (hp q hq)) hops)
    fun v => ⟨hagrees, _, rfl⟩

/-- A machine that follows the evaluation of a primary expression to its value. -/
theorem follows_primary {e : Expr} {b : Int} (he : e.isPrimary)
    (h : Follows p n m (e.eval call s) (fun v => At k site a (temps ++ [v]) ops ip)) :
    Follows p n m (e.evalOpen call s) (OpenAt k site a temps ops ip b) := by
  rw [Expr.evalOpen_of_isPrimary call he]
  exact h.bind fun v s' m' hv => Follows.pure hv.openAt

/-- A machine that follows an expression to what is left open, and from there the closing of it,
follows its evaluation. -/
theorem follows_close {e : Expr} {b : Int} {Q : Value → Store → Machine → Prop}
    (h : Follows p n m (e.evalOpen call s) (OpenAt k site a temps ops ip b))
    (hend : ∀ o s' m', OpenAt k site a temps ops ip b o s' m' →
      Follows p n m' (Eval.ofExcept o.close s') Q) :
    Follows p n m (e.eval call s) Q := by
  rw [Expr.eval_eq]
  exact h.bind hend

/-- A prefix operator waits below what its operand leaves open. -/
theorem OpenAt.unary {o : Open} {op : Operator} (hop : op.isUnary)
    (h : OpenAt k site a temps (op :: ops) ip 40 o s m) :
    OpenAt k site a temps ops ip op.priority (.unary op o) s m := by
  obtain ⟨hfits, hp, hat⟩ := h
  have hprio := Operator.priority_of_isUnary hop
  have hbarrier : op.isBarrier = false := by
    cases op with
    | not | neg | pos => rfl
    | _ => cases hop
  refine ⟨⟨hop, hbarrier, hfits⟩, fun q hq => ?_, ?_⟩
  · rcases List.mem_append.mp hq with hq | hq
    · have := hp q hq
      omega
    · cases List.mem_singleton.mp hq
      exact Int.le_refl _
  · simpa [Open.values, Open.pending] using hat

/-- A binary operator and its left operand wait below what its right operand leaves open. -/
theorem OpenAt.binary {o : Open} {op : Operator} {b : Int} {v : Value} (hop : op ∈ Operator.binary)
    (hb : op.priority < b) (h : OpenAt k site a (temps ++ [v]) (op :: ops) ip b o s m) :
    OpenAt k site a temps ops ip op.priority (.binary op v o) s m := by
  obtain ⟨hfits, hp, hat⟩ := h
  obtain ⟨hunary, hbarrier⟩ := Operator.not_barrier_of_binary hop
  refine ⟨⟨hunary, hbarrier, hfits⟩, fun q hq => ?_, ?_⟩
  · rcases List.mem_append.mp hq with hq | hq
    · have := hp q hq
      omega
    · cases List.mem_singleton.mp hq
      exact Int.le_refl _
  · simpa [Open.values, Open.pending] using hat

theorem OpenAt.index {o : Open} {b : Int} {ip' : Nat} (h : OpenAt k site a temps ops ip b o s m)
    (hi : ip = ip') : OpenAt k site a temps ops ip' b o s m := hi ▸ h

/-- An operator of the code that only waits. -/
theorem At.follows_await {α : Type} {op : Operator} {x : Eval α} {Q : α → Store → Machine → Prop}
    (h : At k site a temps ops ip s m) (hi : p.code.get? ip = some (.operator op))
    (hop : op.isUnary ∨ op.isBarrier)
    (hx : ∀ m', At k site a temps (op :: ops) (ip + 1) s m' → Follows p n m' (x s) Q) :
    Follows p n m (x s) Q := by
  obtain ⟨hagrees, t, rfl⟩ := h
  exact .next (next_await hi hop) (hx _ ⟨hagrees, _, rfl⟩)

/-- A call in code is followed like the call of the function that it names. -/
theorem At.follows_call {name : String} {callee : Nat} {args : List Value}
    (hcalls : CallsFollow p n k site call) (hf : k.function? name = some (callee, args.length))
    (h : At k site a (temps ++ args) (.prepareCall :: ops) ip s m)
    (hi : p.code.get? ip = some (.call (site.entry callee))) :
    Follows p n m (call name args s) (fun v => At k site a (temps ++ [v]) ops (ip + 1)) := by
  obtain ⟨hagrees, t, rfl⟩ := h
  refine (hcalls _ _ _ hf _ _ _ _ _ _ hagrees.globals hi).mono fun v s' m' ⟨hg, hframe, t', hm⟩ => ?_
  exact ⟨hagrees.transfer hg (by rw [hframe]), t', hm⟩

/-- The code of a call is followed to its result, if the code of its arguments is. -/
theorem At.follows_callCode {name : String} {callee : Nat} {args : List Expr}
    (hcalls : CallsFollow p n k site call) (hf : k.function? name = some (callee, args.length))
    (hc : CodeAt p ip ((Expr.call name callee args).code site)) (h : At k site a temps ops ip s m)
    (hargs : ∀ {m'}, At k site a temps (.prepareCall :: ops) (ip + 1) s m' →
      Follows p n m' (Expr.evalAll call args s) (fun vs s' m' => vs.length = args.length ∧
        At k site a (temps ++ vs) (.prepareCall :: ops)
          (ip + 1 + (Expr.argsCode site args).length) s' m')) :
    Follows p n m ((Expr.call name callee args).eval call s) (fun v =>
      At k site a (temps ++ [v]) ops (ip + ((Expr.call name callee args).code site).length)) := by
  refine h.follows_await hc.head (Or.inr rfl) fun m₁ h₁ => ?_
  refine (hargs h₁).bind fun vs s₂ m₂ ⟨hlen, h₂⟩ => ?_
  refine (h₂.follows_call hcalls (hlen ▸ hf) hc.tail.right.head).mono fun v s₃ m₃ h₃ => ?_
  exact h₃.index (by simp [Expr.code]; omega)

mutual

/-- **The code of an expression is followed up to the operators that are left open.** -/
theorem Expr.follows_evalOpen (hcalls : CallsFollow p n k site call) (e : Expr)
    (he : e.WellFormed k) {s : Store} {m : Machine} {temps : List Value} {ops : List Operator}
    {ip : Nat} (hc : CodeAt p ip (e.code site))
    (hops : ∀ q ∈ ops.head?, q.isBarrier ∨ q.priority < e.binding)
    (h : At k site a temps ops ip s m) :
    Follows p n m (e.evalOpen call s)
      (OpenAt k site a temps ops (ip + (e.code site).length) e.binding) := by
  match e with
  | .literal v =>
    obtain ⟨hagrees, t, rfl⟩ := h
    exact follows_primary rfl (.next (next_push hc.head) (.pure ⟨hagrees, _, rfl⟩))
  | .var name place =>
    obtain ⟨hagrees, t, rfl⟩ := h
    exact follows_primary rfl
      ⟨1, _, .step (hagrees.next_load he hc.head) (.refl _), hagrees, _, rfl⟩
  | .group e =>
    refine follows_primary rfl (h.follows_await hc.head (Or.inr rfl) fun m₁ h₁ => ?_)
    have hbarrier : ∀ q ∈ (Operator.openParen :: ops).head?, q.isBarrier ∨ q.priority < e.binding :=
      fun q hq => Or.inl (by cases hq; rfl)
    show Follows p n m₁ (e.eval call s) _
    refine follows_close (Expr.follows_evalOpen hcalls e he hc.tail.left hbarrier h₁)
      fun o s₂ m₂ h₂ => (h₂.follows_closeParen hc.tail.right.head).mono fun v s₃ m₃ h₃ => ?_
    exact h₃.index (by simp [Expr.code]; omega)
  | .call name callee args =>
    have hbarrier : ∀ q ∈ (Operator.prepareCall :: ops).head?, q.isBarrier :=
      fun q hq => by cases hq; rfl
    exact follows_primary rfl (h.follows_callCode hcalls he.1 hc
      (Expr.follows_evalAll hcalls args he.2 hc.tail.left hbarrier))
  | .unary op e =>
    obtain ⟨hop, hprimary, hwf⟩ := he
    have hbinding := Expr.binding_of_isPrimary hprimary
    refine h.follows_await hc.head (Or.inl hop) fun m₁ h₁ => ?_
    have hhead : ∀ q ∈ (op :: ops).head?, q.isBarrier ∨ q.priority < e.binding := fun q hq => by
      cases hq
      rw [Operator.priority_of_isUnary hop, hbinding]
      exact Or.inr (by decide)
    refine (Expr.follows_evalOpen hcalls e hwf hc.tail hhead h₁).bind fun o s₂ m₂ h₂ => ?_
    rw [hbinding] at h₂
    exact .pure ((h₂.unary hop).index (by simp [Expr.code]; omega))
  | .binary op lhs rhs =>
    obtain ⟨hop, hlhs, hrhs, hwl, hwr⟩ := he
    have hleft : ∀ q ∈ ops.head?, q.isBarrier ∨ q.priority < lhs.binding := fun q hq =>
      (hops q hq).imp_right fun h => Int.lt_of_lt_of_le h hlhs
    have hright : ∀ q ∈ (op :: ops).head?, q.isBarrier ∨ q.priority < rhs.binding := fun q hq => by
      cases hq
      exact Or.inr hrhs
    refine (follows_close (Expr.follows_evalOpen hcalls lhs hwl hc.left hleft h)
      fun o s₁ m₁ h₁ => h₁.follows_binary hop hlhs hc.right.head hops).bind fun v s₂ m₂ h₂ => ?_
    refine (Expr.follows_evalOpen hcalls rhs hwr hc.right.tail hright h₂).bind fun o s₃ m₃ h₃ => ?_
    exact .pure ((h₃.binary hop hrhs).index (by simp [Expr.code]; omega))

/-- **The code of arguments is followed to their values.** -/
theorem Expr.follows_evalAll (hcalls : CallsFollow p n k site call) (args : List Expr)
    (he : Expr.AllWellFormed k args) {s : Store} {m : Machine} {temps : List Value}
    {ops : List Operator} {ip : Nat} (hc : CodeAt p ip (Expr.argsCode site args))
    (hops : ∀ q ∈ ops.head?, q.isBarrier) (h : At k site a temps ops ip s m) :
    Follows p n m (Expr.evalAll call args s) (fun vs s' m' => vs.length = args.length ∧
      At k site a (temps ++ vs) ops (ip + (Expr.argsCode site args).length) s' m') := by
  match args with
  | [] => exact .pure ⟨rfl, by simpa [Expr.argsCode] using h⟩
  | e :: rest =>
    have hhead : ∀ q ∈ ops.head?, q.isBarrier ∨ q.priority < e.binding := fun q hq =>
      Or.inl (hops q hq)
    refine (follows_close (Expr.follows_evalOpen hcalls e he.1 hc.left hhead h) fun o s₁ m₁ h₁ =>
      h₁.follows_end (Expr.binding_nonneg he.1) hc.right.head hops).bind fun v s₂ m₂ h₂ => ?_
    refine (Expr.follows_evalAll hcalls rest he.2 hc.right.tail hops h₂).bind
      fun vs s₃ m₃ ⟨hlen, h₃⟩ => .pure ⟨by simp [hlen], ?_⟩
    rw [List.append_assoc] at h₃
    exact h₃.index (by simp [Expr.argsCode]; omega)

end

/-- The code of a call is followed to its result. -/
theorem Expr.follows_call (hcalls : CallsFollow p n k site call) {name : String} {callee : Nat}
    {args : List Expr} (he : (Expr.call name callee args).WellFormed k)
    (hc : CodeAt p ip ((Expr.call name callee args).code site)) (h : At k site a temps ops ip s m) :
    Follows p n m ((Expr.call name callee args).eval call s) (fun v =>
      At k site a (temps ++ [v]) ops (ip + ((Expr.call name callee args).code site).length)) :=
  have hbarrier : ∀ q ∈ (Operator.prepareCall :: ops).head?, q.isBarrier :=
    fun q hq => by cases hq; rfl
  h.follows_callCode hcalls he.1 hc (Expr.follows_evalAll hcalls args he.2 hc.tail.left hbarrier)

/-- **The code of an expression with its end is followed to the value of the expression.** -/
theorem Expr.follows_closed (hcalls : CallsFollow p n k site call) {e : Expr} (he : e.WellFormed k)
    (hc : CodeAt p ip (e.closedCode site)) (hops : ∀ q ∈ ops.head?, q.isBarrier)
    (h : At k site a temps ops ip s m) :
    Follows p n m (e.eval call s)
      (fun v => At k site a (temps ++ [v]) ops (ip + (e.closedCode site).length)) := by
  have hhead : ∀ q ∈ ops.head?, q.isBarrier ∨ q.priority < e.binding := fun q hq =>
    Or.inl (hops q hq)
  refine follows_close (Expr.follows_evalOpen hcalls e he hc.left hhead h) fun o s₁ m₁ h₁ => ?_
  refine (h₁.follows_end (Expr.binding_nonneg he) hc.right.head hops).mono fun v s₂ m₂ h₂ => ?_
  exact h₂.index (by simp [Expr.closedCode]; omega)

end Follow

end StackScript
