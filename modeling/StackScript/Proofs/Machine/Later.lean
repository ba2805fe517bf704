import StackScript.Proofs.Machine.Post
import StackScript.Proofs.Simulation.Follows

/-!
# The same code one instruction later

Code that only computes, without variables, jumps and calls, runs in the same way wherever it stands
in a program. `Exec.Shifts` says so of a computation: a machine whose instruction pointer and count
of steps are one ahead does the same and stays one ahead. Instructions that only compute have this
property (`Exec.shifts_step`), a tick over such an instruction keeps two machines together
(`Machine.tick_later`), and hence two runs come to the same end, the second one step later
(`Machine.runFor_later`).
-/

namespace StackScript

namespace Machine

/-- The machine with one more step behind it, at the next instruction. -/
def later (m : Machine) : Machine := { m with ip := m.ip + 1, steps := m.steps + 1 }

/-- No call waits for its arguments. -/
def NoCall (m : Machine) : Prop := .prepareCall ∉ m.operators

end Machine

/-- The instruction only computes: it uses no variable, does not jump and has to do with no call. -/
def Instr.Computes : Instr → Prop
  | .push _ => True
  | .operator op => op ≠ .prepareCall
  | _ => False

namespace Exec

variable {α β : Type} {l : Limits} {m : Machine}

/-- From `m`, a computation does the same as one instruction later. It neither moves the machine nor
makes a call wait. -/
def Shifts (x : Exec α) (m : Machine) : Prop :=
  match x m with
  | .ok a m' => x m.later = .ok a m'.later ∧ m'.ip = m.ip ∧ m'.NoCall
  | .error c m' => x m.later = .error c m'.later

section Rules

variable {x : Exec α}

theorem Shifts.of_ok {a : α} {m' : Machine} (h : x m = .ok a m')
    (hlater : x m.later = .ok a m'.later) (hip : m'.ip = m.ip) (hcall : m'.NoCall) :
    Shifts x m := by
  unfold Shifts
  rw [h]
  exact ⟨hlater, hip, hcall⟩

theorem Shifts.of_error {c : Cause} {m' : Machine} (h : x m = .error c m')
    (hlater : x m.later = .error c m'.later) : Shifts x m := by
  unfold Shifts
  rwa [h]

theorem Shifts.pure (a : α) (hm : m.NoCall) : Shifts (Pure.pure a) m := of_ok rfl rfl rfl hm

theorem Shifts.throw (c : Cause) : Shifts (MonadExcept.throw c : Exec α) m := of_error rfl rfl

theorem Shifts.bind {f : α → Exec β} (hx : Shifts x m)
    (hf : ∀ a m', m'.ip = m.ip → m'.NoCall → Shifts (f a) m') : Shifts (x >>= f) m := by
  unfold Shifts at hx
  cases h : x m with
  | error c m' =>
    rw [h] at hx
    exact of_error (bind_error h) (bind_error hx)
  | ok a m' =>
    rw [h] at hx
    obtain ⟨hlater, hip, hcall⟩ := hx
    have hrest := hf a m' hip hcall
    unfold Shifts at hrest
    cases h' : f a m' with
    | error c m'' =>
      rw [h'] at hrest
      exact of_error ((bind_ok h).trans h') ((bind_ok hlater).trans hrest)
    | ok b m'' =>
      rw [h'] at hrest
      exact of_ok ((bind_ok h).trans h') ((bind_ok hlater).trans hrest.1) (hrest.2.1.trans hip)
        hrest.2.2

/-- What depends neither on the instruction pointer nor on the steps may be read. -/
theorem Shifts.bind_get {f : Machine → Exec α} (hf : f m.later = f m) (h : Shifts (f m) m) :
    Shifts (get >>= f) m := by
  have hlater : (get >>= f) m.later = f m m.later := by rw [Exec.bind_get, hf]
  unfold Shifts at h ⊢
  rwa [Exec.bind_get, hlater]

end Rules

/-! ## Operations -/

theorem shifts_push (v : Value) (hm : m.NoCall) : Shifts (push l v) m := by
  by_cases hroom : m.stack.size < l.maxStack
  · exact .of_ok (if_pos hroom) (if_pos hroom) rfl hm
  · exact .of_error (if_neg hroom) (if_neg hroom)

theorem shifts_popCell (hm : m.NoCall) : Shifts popCell m := by
  have hlater : m.later.stack.back? = m.stack.back? := rfl
  cases hback : m.stack.back? with
  | none =>
    rw [hback] at hlater
    have h : popCell m = .error (.defect .stackUnderflow) m := by simp only [popCell, hback]
    have h' : popCell m.later = .error (.defect .stackUnderflow) m.later := by
      simp only [popCell, hlater]
    exact .of_error h h'
  | some c =>
    rw [hback] at hlater
    have h : popCell m = .ok c { m with stack := m.stack.pop } := by simp only [popCell, hback]
    have h' : popCell m.later = .ok c { m.later with stack := m.stack.pop } := by
      simp only [popCell, hlater]
      rfl
    exact .of_ok h h' rfl hm

theorem shifts_pop (hm : m.NoCall) : Shifts pop m := by
  refine (shifts_popCell hm).bind fun c m' _ hm' => ?_
  cases c with
  | value v => exact .pure v hm'
  | returnAddress index => exact .throw _
  | savedBase base => exact .throw _

theorem shifts_ofExcept (x : Except Cause α) (hm : m.NoCall) : Shifts (ofExcept x) m := by
  cases x with
  | ok a => exact .pure a hm
  | error c => exact .throw c

theorem shifts_reduce (op : Operator) (hm : m.NoCall) : Shifts (reduce l op) m := by
  have hresult (y : Except Cause Value) {m : Machine} (hm : m.NoCall) :
      Shifts (do push l (← ofExcept y)) m :=
    (shifts_ofExcept y hm).bind fun v _ _ hm' => shifts_push v hm'
  unfold reduce
  by_cases hu : op.isUnary = true
  · rw [if_pos hu]
    exact (shifts_pop hm).bind fun v _ _ hm' => hresult _ hm'
  · rw [if_neg hu]
    exact (shifts_pop hm).bind fun rhs _ _ hm' =>
      (shifts_pop hm').bind fun lhs _ _ hm'' => hresult _ hm''

theorem shifts_setOperators {ops : List Operator} (hops : .prepareCall ∉ ops) :
    Shifts (setOperators ops) m := .of_ok rfl rfl rfl hops

theorem shifts_await {op : Operator} (hop : op ≠ .prepareCall) (hm : m.NoCall) :
    Shifts (await op) m :=
  .of_ok rfl rfl rfl fun hmem => (List.mem_cons.mp hmem).elim (fun h => hop h.symm) hm

theorem shifts_applyWhile {test : Operator → Bool} {ops : List Operator}
    (hops : .prepareCall ∉ ops) (hm : m.NoCall) : Shifts (applyWhile (reduce l) test ops) m := by
  induction ops generalizing m with
  | nil => exact .pure () hm
  | cons op rest ih =>
    have hrest : Operator.prepareCall ∉ rest := fun hmem => hops (List.mem_cons_of_mem op hmem)
    unfold applyWhile
    split
    · exact (shifts_setOperators hrest).bind fun _ _ _ hm' =>
        (shifts_reduce op hm').bind fun _ _ _ hm'' => ih hrest hm''
    · exact .pure () hm

theorem shifts_settle (op : Operator) (hm : m.NoCall) : Shifts (settle (reduce l) op) m :=
  .bind_get rfl (shifts_applyWhile hm hm)

theorem shifts_removeParen (hm : m.NoCall) : Shifts removeParen m := by
  have hrest : Operator.prepareCall ∉ m.operators.tail :=
    fun hmem => hm (List.mem_of_mem_tail hmem)
  refine .bind_get rfl ((shifts_setOperators hrest).bind fun _ _ _ hm' => ?_)
  split
  · exact .pure () hm'
  · exact .throw _

theorem shifts_closeGroup (hm : m.NoCall) : Shifts (closeGroup (reduce l)) m :=
  .bind_get rfl ((shifts_applyWhile hm hm).bind fun _ _ _ hm' => shifts_removeParen hm')

theorem shifts_operator {op : Operator} (hop : op ≠ .prepareCall) (hm : m.NoCall) :
    Shifts (operator l op) m := by
  unfold operator operatorBy
  split
  all_goals first
    | exact shifts_await hop hm
    | exact shifts_closeGroup hm
    | exact shifts_settle _ hm
    | exact (shifts_settle _ hm).bind fun _ _ _ hm' => shifts_await hop hm'

theorem shifts_finish (hm : m.NoCall) : Shifts finish m := by
  refine (shifts_pop hm).bind fun v m' _ hm' => .bind_get rfl ?_
  split
  · exact .pure v hm'
  · exact .throw _

/-- **An instruction that only computes does the same one instruction later**, in any program. -/
theorem shifts_step {i : Instr} (hi : i.Computes) :
    ∃ x : Exec Unit, (∀ p, step l p i = do x; return none) ∧ ∀ m, m.NoCall → Shifts x m := by
  cases i with
  | push v => exact ⟨push l v, fun _ => rfl, fun m hm => shifts_push v hm⟩
  | operator op => exact ⟨operator l op, fun _ => rfl, fun m hm => shifts_operator hi hm⟩
  | _ => cases hi

/-- Where no call waits, a return ends the program. -/
theorem ret_of_noCall (params locals : Nat) (hm : m.NoCall) :
    ret l params locals m = (do return some (← finish)) m := by
  unfold ret
  rw [bind_get]
  cases hops : m.operators with
  | nil => rfl
  | cons op rest =>
    cases op with
    | prepareCall => exact absurd (by rw [hops]; exact List.mem_cons_self) hm
    | _ => rfl

end Exec

namespace Machine

variable {l : Limits} {p q : Program} {m : Machine}

/-- The ends of two runs, of which the second took one step more and fails, if it does, by the same
cause one instruction later. -/
inductive EndsLater :
    EStateM.Result Fault Machine Value → EStateM.Result Fault Machine Value → Prop
  | value (v : Value) (m : Machine) : EndsLater (.ok v m) (.ok v m.later)
  | fault (c : Cause) (index : Nat) (m : Machine) :
    EndsLater (.error ⟨c, some index, []⟩ m) (.error ⟨c, some (index + 1), []⟩ m.later)

/-- A tick without a bound on steps does what its instruction does. -/
theorem tick_eq_step {i : Instr} (hbound : l.maxSteps = none) (hi : p.code.get? m.ip = some i) :
    tick l p m = match Exec.step l p i m.later with
      | .ok result m' => .ok result m'
      | .error c m' => .error ⟨c, some m.ip, []⟩ m' := by
  have hnone : exceeded? l (m.steps + 1) = none := by rw [exceeded?, hbound]; rfl
  simp only [tick, hnone, hi]
  rfl

/-- **A tick over an instruction that only computes keeps two machines together.** -/
theorem tick_later {i : Instr} (hbound : l.maxSteps = none) (hi : i.Computes)
    (hp : p.code.get? m.ip = some i) (hq : q.code.get? (m.ip + 1) = some i) (hm : m.NoCall) :
    (∃ m', tick l p m = .ok none m' ∧ tick l q m.later = .ok none m'.later ∧
      m'.ip = m.ip + 1 ∧ m'.NoCall) ∨
    ∃ c m', tick l p m = .error ⟨c, some m.ip, []⟩ m' ∧
      tick l q m.later = .error ⟨c, some (m.ip + 1), []⟩ m'.later := by
  obtain ⟨x, hstep, hshifts⟩ := Exec.shifts_step (l := l) hi
  have hx := hshifts m.later hm
  rw [tick_eq_step hbound hp, tick_eq_step hbound hq, hstep, hstep]
  unfold Exec.Shifts at hx
  cases h : x m.later with
  | ok a m' =>
    rw [h] at hx
    obtain ⟨hlater, hip, hcall⟩ := hx
    rw [Exec.bind_ok h, Exec.bind_ok hlater]
    exact .inl ⟨m', rfl, rfl, hip, hcall⟩
  | error c m' =>
    rw [h] at hx
    rw [Exec.bind_error h, Exec.bind_error hx]
    exact .inr ⟨c, m', rfl, rfl⟩

/-- A return where no call waits ends two runs together. -/
theorem runFor_ret_later {params locals : Nat} (hbound : l.maxSteps = none)
    (hp : p.code.get? m.ip = some (.ret params locals))
    (hq : q.code.get? (m.ip + 1) = some (.ret params locals)) (hm : m.NoCall) :
    ∃ result result', runFor l p 1 m = some result ∧ runFor l q 1 m.later = some result' ∧
      EndsLater result result' := by
  have hx := Exec.shifts_finish (m := m.later) hm
  simp only [runFor]
  rw [tick_eq_step hbound hp, tick_eq_step hbound hq]
  simp only [Exec.step]
  rw [Exec.ret_of_noCall (m := m.later) params locals hm,
    Exec.ret_of_noCall (m := m.later.later) params locals hm]
  unfold Exec.Shifts at hx
  cases h : Exec.finish m.later with
  | ok v m' =>
    rw [h] at hx
    rw [Exec.bind_ok h, Exec.bind_ok hx.1]
    exact ⟨_, _, rfl, rfl, .value v m'⟩
  | error c m' =>
    rw [h] at hx
    rw [Exec.bind_error h, Exec.bind_error hx]
    exact ⟨_, _, rfl, rfl, .fault c m.ip m'⟩

/-- **Code that only computes runs in the same way one instruction later.** With a return behind it,
both runs end within one tick for each instruction. -/
theorem runFor_later {code : List Instr} {params locals : Nat} (hbound : l.maxSteps = none)
    (hcode : ∀ i ∈ code, i.Computes) (hp : CodeAt p m.ip (code ++ [.ret params locals]))
    (hq : CodeAt q (m.ip + 1) (code ++ [.ret params locals])) (hm : m.NoCall) :
    ∃ result result', runFor l p (code.length + 1) m = some result ∧
      runFor l q (code.length + 1) m.later = some result' ∧ EndsLater result result' := by
  induction code generalizing m with
  | nil => exact runFor_ret_later hbound hp.head hq.head hm
  | cons i code ih =>
    obtain ⟨hi, hcode⟩ := List.forall_mem_cons.mp hcode
    rw [List.length_cons, runFor, runFor]
    rcases tick_later hbound hi hp.head hq.head hm with
      ⟨m', ht, ht', hip, hm'⟩ | ⟨c, m', ht, ht'⟩
    · rw [ht, ht']
      have hp' := hp.tail
      have hq' := hq.tail
      rw [← hip] at hp' hq'
      exact ih hcode hp' hq' hm'
    · rw [ht, ht']
      exact ⟨_, _, rfl, rfl, .fault c m.ip m'⟩

end Machine

end StackScript
