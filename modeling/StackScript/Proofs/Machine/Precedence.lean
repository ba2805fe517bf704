import StackScript.Proofs.Machine.Post
import StackScript.Proofs.Script.Grouped

/-!
# Reduction by priority as evaluation of a tree

The machine takes the operators of an expression in written order and reduces them by priority. It
comes from the code of a tree by levels to its value, whatever it holds below, or fails as the
evaluation does (`Expr.grouped_computes`). The invariant of the run is that the operators which wait
above a barrier are of growing levels, so that what an operator reduces is what the tree has to its
left; `Expr.OpenRun` states it for a piece of code, with one rule for each rule of the grammar.
-/

namespace StackScript

/-! ## Runs with an outcome -/

namespace Machine

section Computes

variable (l : Limits) (p : Program)

/-- Within `n` ticks a machine comes to the state of an outcome, or one of the ticks fails as the
outcome does. -/
def Computes {α : Type} (n : Nat) (m : Machine) (outcome : Except Cause α)
    (after : α → Machine) : Prop :=
  match outcome with
  | .ok a => after? l p n m = some (after a)
  | .error c => ∃ k < n, ∃ m₁ f m₂, after? l p k m = some m₁ ∧ tick l p m₁ = .error f m₂ ∧ f.cause = c

/-- The limits allow a machine `room` more cells and `n` more ticks. -/
structure Allows (m : Machine) (room n : Nat) : Prop where
  stack : m.stack.size + room ≤ l.maxStack
  steps : ∀ bound ∈ l.maxSteps, m.steps + n ≤ bound

end Computes

/-- The machine `n` instructions later, with more values on its stack and more operators waiting. -/
def ahead (m : Machine) (vs : List Value) (ops : List Operator) (n : Nat) : Machine :=
  ⟨(m.stack.toList ++ vs.map Cell.value).toArray, ops ++ m.operators, m.globals, m.ip + n, m.base,
    m.calls, m.steps + n⟩

variable {l : Limits} {p : Program} {m : Machine}

@[simp] theorem ahead_ahead (m : Machine) (vs ws : List Value) (ops ops' : List Operator)
    (n k : Nat) : (m.ahead vs ops n).ahead ws ops' k = m.ahead (vs ++ ws) (ops' ++ ops) (n + k) := by
  simp [ahead, Nat.add_assoc]

theorem ahead_value (m : Machine) (v : Value) (n : Nat) :
    m.ahead [v] [] n = { m with
      stack := m.stack.push (.value v), ip := m.ip + n, steps := m.steps + n } := by
  simp only [ahead, List.map_singleton, ← Array.toList_push, List.nil_append]

/-- A run to an outcome, and from there on to what comes of it. -/
theorem Computes.bind {α β : Type} {i j : Nat} {x : Except Cause α} {f : α → Except Cause β}
    {after : α → Machine} {after' : β → Machine} (hx : Computes l p i m x after)
    (hf : ∀ a, x = .ok a → Computes l p j (after a) (f a) after') :
    Computes l p (i + j) m (x >>= f) after' := by
  cases x with
  | error c =>
    obtain ⟨k, hk, hfail⟩ := hx
    exact ⟨k, by omega, hfail⟩
  | ok a =>
    have hrest := hf a rfl
    show Computes l p (i + j) m (f a) after'
    unfold Computes at hx hrest ⊢
    cases hb : f a with
    | ok b =>
      rw [hb] at hrest
      simp only at hx hrest ⊢
      rw [after?_add, hx, Option.bind_some, hrest]
    | error c =>
      rw [hb] at hrest
      obtain ⟨k, hk, m₁, g, m₂, hm₁, hfail⟩ := hrest
      refine ⟨i + k, by omega, m₁, g, m₂, ?_, hfail⟩
      simp only at hx
      rw [after?_add, hx, Option.bind_some, hm₁]

/-- The same run for another way to state its outcome. -/
theorem Computes.map {α β : Type} {i : Nat} {x : Except Cause α} {f : α → β}
    {after : α → Machine} {after' : β → Machine} (h : Computes l p i m x after)
    (hafter : ∀ a, x = .ok a → after a = after' (f a)) :
    Computes l p i m (x >>= fun a => .ok (f a)) after' := by
  have hend (a : α) (ha : x = .ok a) : Computes l p 0 (after a) (.ok (f a)) after' :=
    congrArg some (hafter a ha)
  exact h.bind hend

/-- A tick before. -/
theorem Computes.next {α : Type} {i : Nat} {m' : Machine} {x : Except Cause α} {after : α → Machine}
    (ht : Machine.tick l p m = .ok none m') (h : Computes l p i m' x after) :
    Computes l p (i + 1) m x after := by
  have hstep : Computes l p 1 m (.ok ()) fun _ => m' := by
    show after? l p 1 m = some m'
    simp only [after?, ht]
  rw [Nat.add_comm]
  exact hstep.bind (f := fun _ => x) fun _ _ => h

section Tick

variable {i : Instr} {m' : Machine} (hsteps : ∀ bound ∈ l.maxSteps, m.steps + 1 ≤ bound)
  (hi : p.code.get? m.ip = some i)

include hsteps

theorem exceeded?_eq_none : exceeded? l (m.steps + 1) = none := by
  refine Option.filter_eq_none_iff.mpr fun bound hbound => ?_
  have := hsteps bound hbound
  simpa using this

include hi

theorem tick_of_step {r : Option Value}
    (hs : Exec.step l p i { m with ip := m.ip + 1, steps := m.steps + 1 } = .ok r m') :
    tick l p m = .ok r m' := by
  simp only [tick, exceeded?_eq_none hsteps, hi, hs]

/-- One tick to an outcome of the instruction at hand. -/
theorem Computes.tick {α : Type} {outcome : Except Cause α} {after : α → Machine}
    (h : (∃ a, outcome = .ok a ∧ Exec.step l p i { m with ip := m.ip + 1, steps := m.steps + 1 } =
        .ok none (after a)) ∨
      ∃ c m', outcome = .error c ∧
        Exec.step l p i { m with ip := m.ip + 1, steps := m.steps + 1 } = .error c m') :
    Computes l p 1 m outcome after := by
  rcases h with ⟨a, rfl, hs⟩ | ⟨c, m', rfl, hs⟩
  · show after? l p 1 m = some (after a)
    simp only [after?, tick_of_step hsteps hi hs]
  · refine ⟨0, Nat.one_pos, m, (Fault.ofCause c).locate m.ip, m', rfl, ?_, rfl⟩
    simp only [Machine.tick, exceeded?_eq_none hsteps, hi, hs]

end Tick

theorem Allows.mono {room room' n n' : Nat} (h : Allows l m room n) (hroom : room' ≤ room)
    (hn : n' ≤ n) : Allows l m room' n' where
  stack := Nat.le_trans (Nat.add_le_add_left hroom _) h.stack
  steps := fun bound hbound => Nat.le_trans (Nat.add_le_add_left hn _) (h.steps bound hbound)

theorem Allows.ahead {room room' n n' : Nat} {vs : List Value} (h : Allows l m room n)
    (ops : List Operator) (k : Nat) (hroom : vs.length + room' ≤ room) (hn : k + n' ≤ n) :
    Allows l (m.ahead vs ops k) room' n' where
  stack := by
    have := h.stack
    simp [Machine.ahead]
    omega
  steps := fun bound hbound => by
    have := h.steps bound hbound
    simp [Machine.ahead]
    omega

/-! ## Operators -/

/-- An operator that awaits its operand or the end of a group. -/
theorem Computes.await {α : Type} {i : Nat} {op : Operator} {x : Except Cause α}
    {after : α → Machine} (hi : p.code.get? m.ip = some (.operator op))
    (hop : op.isUnary ∨ op.isBarrier) (hsteps : ∀ bound ∈ l.maxSteps, m.steps + 1 ≤ bound)
    (h : Computes l p i (m.ahead [] [op] 1) x after) : Computes l p (i + 1) m x after := by
  have hawait : Exec.operator l op = Exec.await op := by
    cases op with
    | openParen | prepareCall | not | neg | pos => rfl
    | _ => exact absurd hop (by decide)
  have hstep : Exec.step l p (.operator op) { m with ip := m.ip + 1, steps := m.steps + 1 } =
      .ok none (m.ahead [] [op] 1) := by
    refine Activation.andNone ?_
    rw [hawait]
    simp [Exec.await, Machine.ahead]
  exact h.next (tick_of_step hsteps hi hstep)

section Close

variable {o : Open} {k : Nat}

/-- All that waits since a point is reduced, where a test tells it from what waits below. -/
theorem applyWhile_ahead {test : Operator → Bool} (ho : o.Fits)
    (h : m.stack.size + o.values.length ≤ l.maxStack) (hp : ∀ q ∈ o.pending, test q = true)
    (hops : ∀ q ∈ m.operators.head?, test q = false) (k : Nat) :
    (∃ v, o.close = .ok v ∧
      Exec.applyWhile (Exec.reduce l) test (o.pending ++ m.operators)
        (m.ahead o.values o.pending k) = .ok () (m.ahead [v] [] k)) ∨
    ∃ c m', o.close = .error c ∧
      Exec.applyWhile (Exec.reduce l) test (o.pending ++ m.operators)
        (m.ahead o.values o.pending k) = .error c m' := by
  have hroom : m.stack.toList.length + o.values.length ≤ l.maxStack := by
    rwa [Array.length_toList]
  rcases Exec.applyWhile_closes ho hp hops hroom with ⟨v, hv, he⟩ | ⟨c, τ, ops', hc, he⟩
  · exact Or.inl ⟨v, hv, he⟩
  · exact Or.inr ⟨c, _, hc, he⟩

/-- The end of an expression closes it. -/
theorem computes_end (hi : p.code.get? (m.ip + k) = some .endOfExpression) (ho : o.Fits)
    (hallow : Allows l m o.values.length (k + 1))
    (hp : ∀ q ∈ o.pending, ∃ j, q.level? = some j)
    (hops : ∀ q ∈ m.operators.head?, q.isBarrier) :
    Computes l p 1 (m.ahead o.values o.pending k) o.close fun v => m.ahead [v] [] (k + 1) := by
  have hyield : ∀ q ∈ o.pending, Exec.yieldsTo .endOfExpression q = true := fun q hq => by
    obtain ⟨j, hj⟩ := hp q hq
    exact Operator.yieldsTo_endOfExpression hj
  have hkeep : ∀ q ∈ m.operators.head?, Exec.yieldsTo .endOfExpression q = false := fun q hq => by
    simp [Exec.yieldsTo, hops q hq]
  refine Computes.tick hallow.steps hi ?_
  rcases applyWhile_ahead ho hallow.stack hyield hkeep (k + 1) with ⟨v, hv, he⟩ | ⟨c, m', hc, he⟩
  · exact Or.inl ⟨v, hv, Activation.andNone he⟩
  · exact Or.inr ⟨c, m', hc, Exec.bind_error he⟩

/-- A binary operator closes what binds at least as tightly before it, and waits. -/
theorem computes_binary {op : Operator} {n : Nat} (hn : n < 5) (hop : op.level? = some n)
    (hi : p.code.get? (m.ip + k) = some (.operator op)) (ho : o.Fits)
    (hallow : Allows l m o.values.length (k + 1))
    (hp : ∀ q ∈ o.pending, ∃ j, n ≤ j ∧ q.level? = some j)
    (hops : ∀ q ∈ m.operators.head?, q.isBarrier ∨ ∃ j < n, q.level? = some j) :
    Computes l p 1 (m.ahead o.values o.pending k) o.close fun v => m.ahead [v] [op] (k + 1) := by
  have hyield : ∀ q ∈ o.pending, Exec.yieldsTo op q = true := fun q hq => by
    obtain ⟨j, hj, hq'⟩ := hp q hq
    simp [Exec.yieldsTo, Open.not_isBarrier_of_mem ho hq, Operator.priority_le hop hq' hj]
  have hkeep : ∀ q ∈ m.operators.head?, Exec.yieldsTo op q = false := fun q hq => by
    rcases hops q hq with hb | ⟨j, hj, hq'⟩
    · simp [Exec.yieldsTo, hb]
    · simp [Exec.yieldsTo, Int.not_le.mpr (Operator.priority_lt hq' hop hj)]
  have hstep : Exec.operator l op = (do Exec.settle (Exec.reduce l) op; Exec.await op) := by
    have hbinary := (Operator.level?_eq_some hop).2.2.mpr hn
    cases op with
    | openParen | closeParen | prepareCall | endOfExpression | not | neg | pos =>
      exact absurd hbinary (by decide)
    | _ => rfl
  refine Computes.tick hallow.steps hi ?_
  rcases applyWhile_ahead ho hallow.stack hyield hkeep (k + 1) with ⟨v, hv, he⟩ | ⟨c, m', hc, he⟩
  · refine Or.inl ⟨v, hv, Activation.andNone ?_⟩
    rw [hstep]
    exact Exec.bind_ok he
  · refine Or.inr ⟨c, m', hc, Exec.bind_error ?_⟩
    rw [hstep]
    exact Exec.bind_error he

/-- A closing parenthesis closes what stands behind the opening one. -/
theorem computes_closeParen (hi : p.code.get? (m.ip + 1 + k) = some (.operator .closeParen))
    (ho : o.Fits) (hallow : Allows l (m.ahead [] [.openParen] 1) o.values.length (k + 1)) :
    Computes l p 1 ((m.ahead [] [.openParen] 1).ahead o.values o.pending k) o.close
      fun v => m.ahead [v] [] (k + 2) := by
  have hp : ∀ q ∈ o.pending, (!q.isBarrier) = true := fun q hq => by
    simp [Open.not_isBarrier_of_mem ho hq]
  have hops : ∀ q ∈ (Operator.openParen :: m.operators).head?, (!q.isBarrier) = false :=
    fun q hq => by
      cases hq
      rfl
  refine Computes.tick hallow.steps hi ?_
  rcases applyWhile_ahead ho hallow.stack hp hops (k + 1) with ⟨v, hv, he⟩ | ⟨c, m', hc, he⟩
  · refine Or.inl ⟨v, hv, Activation.andNone ((Exec.bind_get _).trans ((Exec.bind_ok he).trans ?_))⟩
    have hindex : 1 + (k + 1) = k + 2 := by omega
    rw [ahead_ahead, List.nil_append, hindex]
    rfl
  · exact Or.inr ⟨c, m', hc, Exec.bind_error ((Exec.bind_get _).trans (Exec.bind_error he))⟩

end Close

end Machine

/-! ## The run of a tree -/

namespace Expr

open Machine

theorem ok_of_bind {α β : Type} {x : Except Cause α} {f : α → Except Cause β} {b : β}
    (h : x >>= f = .ok b) : ∃ a, x = .ok a ∧ f a = .ok b := by
  cases x with
  | error c => cases h
  | ok a => exact ⟨a, rfl, h⟩

/-- The code of an expression of a level evaluates it but for its last operators, from any machine
in which no waiting operator binds as tightly. -/
structure OpenRun (l : Limits) (p : Program) (site : Site) (n : Nat) (e : Expr)
    (r : Except Cause Open) : Prop where
  eval : ∀ call, e.evalOpen call = Eval.ofExcept r
  shape : ∀ o, r = .ok o → o.Fits ∧ o.values.length ≤ e.room ∧
    ∀ q ∈ o.pending, ∃ j, n ≤ j ∧ q.level? = some j
  computes : ∀ m : Machine, CodeAt p m.ip (e.code site) →
    (∀ q ∈ m.operators.head?, q.isBarrier ∨ ∃ j < n, q.level? = some j) →
    Allows l m e.room (e.code site).length →
    Computes l p (e.code site).length m r fun o =>
      m.ahead o.values o.pending (e.code site).length

namespace OpenRun

variable {l : Limits} {p : Program} {site : Site} {n : Nat} {e : Expr} {r : Except Cause Open}

theorem eval_closed (h : OpenRun l p site n e r) (call : String → List Value → Eval Value) :
    e.eval call = Eval.ofExcept (r >>= Open.close) := by
  rw [Expr.eval_eq, h.eval, Eval.ofExcept_bind]

theorem literal (v : Value) : OpenRun l p site 6 (.literal v) (.ok (.value v)) where
  eval _ := rfl
  shape := by
    rintro o ⟨⟩
    exact ⟨trivial, Nat.le_refl 1, fun q hq => (List.not_mem_nil hq).elim⟩
  computes m hc _ hallow := by
    have hroom : m.stack.size < l.maxStack := hallow.stack
    refine Computes.tick hallow.steps hc.head (Or.inl ⟨_, rfl, Activation.andNone ?_⟩)
    show Exec.push l v _ = .ok () (m.ahead [v] [] 1)
    rw [ahead_value]
    exact if_pos hroom

theorem group (h : OpenRun l p site 0 e r) :
    OpenRun l p site 6 (.group e) (r >>= Open.close >>= fun v => .ok (.value v)) where
  eval call := by
    show (do return Open.value (← e.eval call)) = _
    rw [h.eval_closed, Eval.ofExcept_bind _ fun v => .ok (Open.value v)]
    rfl
  shape := by
    intro o ho
    obtain ⟨v, hv, ⟨⟩⟩ := ok_of_bind ho
    obtain ⟨o', ho', -⟩ := ok_of_bind hv
    have hpos := o'.values_length_pos
    have hle := (h.shape o' ho').2.1
    exact ⟨trivial, by simp only [Open.values, room, List.length_singleton]; omega,
      fun q hq => (List.not_mem_nil hq).elim⟩
  computes m hc _ hallow := by
    have hlen : ((Expr.group e).code site).length = (e.code site).length + 1 + 1 := by
      simp [Expr.code]
    rw [hlen] at hallow ⊢
    have hinner : Allows l (m.ahead [] [.openParen] 1) e.room ((e.code site).length + 1) :=
      hallow.ahead _ _ (by simp [room]) (by omega)
    have hops : ∀ q ∈ (m.ahead [] [.openParen] 1).operators.head?,
        q.isBarrier ∨ ∃ j < 0, q.level? = some j := by
      rintro q ⟨⟩
      exact Or.inl rfl
    have hclosed := (h.computes _ hc.tail.left hops
      (hinner.mono (Nat.le_refl _) (Nat.le_succ _))).bind fun o ho =>
        computes_closeParen hc.tail.right.head (h.shape o ho).1
          (hinner.mono (h.shape o ho).2.1 (Nat.le_refl _))
    exact Computes.await hc.head (Or.inr rfl) (hallow.mono (Nat.le_refl _) (by omega)).steps
      (hclosed.map fun v _ => rfl)

theorem unary {op : Operator} (hop : op.level? = some 5) (h : OpenRun l p site 6 e r) :
    OpenRun l p site 5 (.unary op e) (r >>= fun o => .ok (.unary op o)) where
  eval call := by
    show (do return Open.unary op (← e.evalOpen call)) = _
    rw [h.eval, Eval.ofExcept_bind _ fun o => .ok (Open.unary op o)]
    rfl
  shape := by
    intro o ho
    obtain ⟨o', ho', ⟨⟩⟩ := ok_of_bind ho
    obtain ⟨hfits, hlen, hlevels⟩ := h.shape o' ho'
    obtain ⟨hbarrier, hunary, -⟩ := Operator.level?_eq_some hop
    refine ⟨⟨hunary.mpr rfl, hbarrier, hfits⟩, hlen, fun q hq => ?_⟩
    rcases List.mem_append.mp hq with hq | hq
    · obtain ⟨j, hj, hq⟩ := hlevels q hq
      exact ⟨j, Nat.le_of_succ_le hj, hq⟩
    · exact ⟨5, Nat.le_refl 5, by rw [List.mem_singleton.mp hq, hop]⟩
  computes m hc _ hallow := by
    have hunary := (Operator.level?_eq_some hop).2.1.mpr rfl
    have hlen : ((Expr.unary op e).code site).length = (e.code site).length + 1 := rfl
    rw [hlen] at hallow ⊢
    have hops : ∀ q ∈ (m.ahead [] [op] 1).operators.head?,
        q.isBarrier ∨ ∃ j < 6, q.level? = some j := by
      rintro q ⟨⟩
      exact Or.inr ⟨5, by omega, hop⟩
    have hrest := h.computes _ hc.tail hops (hallow.ahead _ _ (by simp [room]) (by omega))
    refine Computes.await hc.head (Or.inl hunary) (hallow.mono (Nat.le_refl _) (by omega)).steps
      (hrest.map fun o _ => ?_)
    rw [ahead_ahead, List.nil_append, Nat.add_comm]
    rfl

theorem binary {op : Operator} {lhs rhs : Expr} {r' : Except Cause Open} (hn : n < 5)
    (hop : op.level? = some n) (hl : OpenRun l p site n lhs r)
    (hr : OpenRun l p site (n + 1) rhs r') :
    OpenRun l p site n (.binary op lhs rhs)
      (r >>= Open.close >>= fun a => r' >>= fun o => .ok (.binary op a o)) where
  eval call := by
    show (do let a ← lhs.eval call; return Open.binary op a (← rhs.evalOpen call)) = _
    rw [hl.eval_closed, hr.eval, Eval.ofExcept_bind (r >>= Open.close)]
    simp only [Eval.ofExcept_bind r']
    rfl
  shape := by
    intro o ho
    obtain ⟨a, -, ho'⟩ := ok_of_bind ho
    obtain ⟨o', hr', ⟨⟩⟩ := ok_of_bind ho'
    obtain ⟨hfits, hlen, hlevels⟩ := hr.shape o' hr'
    obtain ⟨hbarrier, hunary, -⟩ := Operator.level?_eq_some hop
    have hbinary : op.isUnary = false := Bool.eq_false_iff.mpr fun h => by
      have := hunary.mp h
      omega
    refine ⟨⟨hbinary, hbarrier, hfits⟩, ?_, fun q hq => ?_⟩
    · simp only [Open.values, room, List.length_cons]
      omega
    · rcases List.mem_append.mp hq with hq | hq
      · obtain ⟨j, hj, hq⟩ := hlevels q hq
        exact ⟨j, Nat.le_of_succ_le hj, hq⟩
      · exact ⟨n, Nat.le_refl n, by rw [List.mem_singleton.mp hq, hop]⟩
  computes m hc hops hallow := by
    have hlen : ((Expr.binary op lhs rhs).code site).length =
        (lhs.code site).length + 1 + (rhs.code site).length := by
      simp [Expr.code]
      omega
    rw [hlen] at hallow ⊢
    have hleft : Allows l m lhs.room ((lhs.code site).length + 1) :=
      hallow.mono (Nat.le_max_left _ _) (by omega)
    have hclosed := (hl.computes m hc.left hops
      (hleft.mono (Nat.le_refl _) (Nat.le_succ _))).bind fun o ho =>
        computes_binary hn hop hc.right.head (hl.shape o ho).1
          (hleft.mono (hl.shape o ho).2.1 (Nat.le_refl _)) (hl.shape o ho).2.2 hops
    refine hclosed.bind fun v _ => ?_
    have hops' : ∀ q ∈ (m.ahead [v] [op] ((lhs.code site).length + 1)).operators.head?,
        q.isBarrier ∨ ∃ j < n + 1, q.level? = some j := by
      rintro q ⟨⟩
      exact Or.inr ⟨n, Nat.lt_succ_self n, hop⟩
    have hright := hr.computes _ hc.right.tail hops'
      (hallow.ahead _ _ (by simp only [room, List.length_singleton]; omega) (by omega))
    refine hright.map fun o _ => ?_
    rw [ahead_ahead]
    rfl

theorem tighter (h : OpenRun l p site (n + 1) e r) : OpenRun l p site n e r where
  eval := h.eval
  shape := by
    intro o ho
    obtain ⟨hfits, hlen, hlevels⟩ := h.shape o ho
    refine ⟨hfits, hlen, fun q hq => ?_⟩
    obtain ⟨j, hj, hq⟩ := hlevels q hq
    exact ⟨j, Nat.le_of_succ_le hj, hq⟩
  computes m hc hops := by
    refine h.computes m hc fun q hq => (hops q hq).imp_right ?_
    rintro ⟨j, hj, hq⟩
    exact ⟨j, Nat.lt_succ_of_lt hj, hq⟩

end OpenRun

/-- **The code of a tree evaluates it but for its last operators.** -/
theorem Grouped.openRun {n : Nat} {e : Expr} (h : e.Grouped n) (l : Limits) (p : Program)
    (site : Site) : ∃ r, OpenRun l p site n e r := by
  induction h with
  | literal v => exact ⟨_, .literal v⟩
  | group _ ih =>
    obtain ⟨r, h⟩ := ih
    exact ⟨_, h.group⟩
  | unary hop _ ih =>
    obtain ⟨r, h⟩ := ih
    exact ⟨_, h.unary hop⟩
  | binary hn hop _ _ ihl ihr =>
    obtain ⟨r, hl⟩ := ihl
    obtain ⟨r', hr⟩ := ihr
    exact ⟨_, .binary hn hop hl hr⟩
  | tighter _ ih =>
    obtain ⟨r, h⟩ := ih
    exact ⟨r, h.tighter⟩

/-- **Reduction by priority is evaluation of the tree**: every written sequence of constants, prefix
and binary operators and parentheses has a tree by levels. From any machine on which no operator
waits above a barrier, the code of a tree and the end of expressions lead to the same machine with
one value more, that of the tree; or, if the evaluation fails, to its failure. -/
theorem grouped_computes :
    (∀ e : Expr, e.Plain → ∃ tree : Expr, tree.Grouped 0 ∧ ∀ site, tree.code site = e.code site) ∧
    ∀ (l : Limits) (p : Program) (site : Site) (tree : Expr) (m : Machine),
      tree.Grouped 0 → CodeAt p m.ip (tree.closedCode site) →
      (∀ q ∈ m.operators.head?, q.isBarrier) →
      Allows l m tree.room (tree.closedCode site).length →
      ∃ outcome, (∀ call, tree.eval call = Eval.ofExcept outcome) ∧
        Computes l p (tree.closedCode site).length m outcome fun v =>
          { m with
            stack := m.stack.push (.value v)
            ip := m.ip + (tree.closedCode site).length
            steps := m.steps + (tree.closedCode site).length } := by
  refine ⟨fun e he => exists_grouped he, fun l p site tree m htree hc hops hallow => ?_⟩
  obtain ⟨r, h⟩ := htree.openRun l p site
  have hlen : (tree.closedCode site).length = (tree.code site).length + 1 := by
    simp [closedCode]
  rw [hlen] at hallow ⊢
  have hopen := h.computes m hc.left (fun q hq => Or.inl (hops q hq))
    (hallow.mono (Nat.le_refl _) (Nat.le_succ _))
  refine ⟨r >>= Open.close, h.eval_closed, ?_⟩
  simp only [← ahead_value]
  refine hopen.bind fun o ho => ?_
  obtain ⟨hfits, hroom, hlevels⟩ := h.shape o ho
  exact computes_end hc.right.head hfits (hallow.mono hroom (Nat.le_refl _))
    (fun q hq => (hlevels q hq).imp fun j hj => hj.2) hops

/-- `1 + -2 * 3 < 4 && !(false || true)` -/
def mixed : Expr :=
  .binary .and
    (.binary .lt
      (.binary .add (.literal (.int 1))
        (.binary .mul (.unary .neg (.literal (.int 2))) (.literal (.int 3))))
      (.literal (.int 4)))
    (.unary .not (.group (.binary .or (.literal (.bool false)) (.literal (.bool true)))))

theorem grouped_mixed : mixed.Grouped 0 := by
  have hconst (v : Value) {n : Nat} (hn : n ≤ 6) : (Expr.literal v).Grouped n :=
    (Grouped.literal v).mono hn
  have hneg : (Expr.unary .neg (.literal (.int 2))).Grouped 5 := .unary rfl (.literal _)
  have hmul : (Expr.binary .mul _ _).Grouped 4 :=
    .binary (by decide) rfl hneg.tighter (hconst (.int 3) (by decide))
  have hadd : (Expr.binary .add _ _).Grouped 3 :=
    .binary (by decide) rfl (hconst (.int 1) (by decide)) hmul
  have hlt : (Expr.binary .lt _ _).Grouped 2 :=
    .binary (by decide) rfl hadd.tighter (hconst (.int 4) (by decide))
  have hor : (Expr.binary .or _ _).Grouped 0 :=
    .binary (by decide) rfl (hconst (.bool false) (by decide)) (hconst (.bool true) (by decide))
  have hnot : (Expr.unary .not _).Grouped 5 := .unary rfl (.group hor)
  have hand : (Expr.binary .and _ _).Grouped 1 :=
    .binary (by decide) rfl hlt.tighter (hnot.mono (by decide))
  exact hand.tighter

/-- In the middle of an argument, on a stack that no program leaves. -/
theorem grouped_computes_mixed :
    mixed.Grouped 0 ∧
      after? ⟨4, 0, some 36⟩ ⟨.ofList ([.pop, .pop] ++ mixed.closedCode (.top [])), [], []⟩ 16
          ⟨#[.savedBase 7], [.prepareCall, .mul], #[], 2, 9, #["f"], 20⟩ =
        some ⟨#[.savedBase 7, .value (.bool false)], [.prepareCall, .mul], #[], 18, 9, #["f"], 36⟩ := by
  refine ⟨grouped_mixed, ?_⟩
  obtain ⟨outcome, heval, hrun⟩ := grouped_computes.2 ⟨4, 0, some 36⟩
    ⟨.ofList ([.pop, .pop] ++ mixed.closedCode (.top [])), [], []⟩ (.top []) mixed
    ⟨#[.savedBase 7], [.prepareCall, .mul], #[], 2, 9, #["f"], 20⟩ grouped_mixed
    CodeAt.ofList.right (by decide) ⟨by decide, by decide⟩
  have hvalue : outcome = .ok (.bool false) := by
    have hstore := congrFun (heval fun _ _ => Eval.outOfFuel) ⟨[], []⟩
    have hmixed : mixed.eval (fun _ _ => Eval.outOfFuel) ⟨[], []⟩ =
        some (.ok (.bool false), ⟨[], []⟩) := rfl
    cases hmixed.symm.trans hstore
    rfl
  have hlen : (mixed.closedCode (.top [])).length = 16 := rfl
  rw [hvalue, hlen] at hrun
  exact hrun

end Expr

end StackScript
