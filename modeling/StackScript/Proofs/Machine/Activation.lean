import StackScript.Proofs.Machine.Reduction
import StackScript.Scope.Frame
import StackScript.Script.Meaning

/-!
# Machines in the middle of a script

While the code of a script or of one of its functions runs, the machine holds a store: the variables
of the frame lie on the stack above the cells of the callers, with the links between the parameters
and the locals, and the temporaries of the expression at hand lie on top. `Activation` is what lies
below the locals, and `Activation.machine` the machine that holds a store under it. The `next_`
lemmas say what each instruction does to such a machine when no limit stops it.
-/

namespace StackScript

namespace Machine

variable {p : Program} {m m' : Machine} {i : Instr}

/-- A tick executes the instruction at hand. -/
theorem next_of_step {l : Limits} {r : Option Value} (hl : l.maxSteps = none)
    (hi : p.code.get? m.ip = some i)
    (hs : Exec.step l p i { m with ip := m.ip + 1, steps := m.steps + 1 } = .ok r m') :
    Next p m (.ok r m') := by
  refine ⟨l, hl, ?_, fun f m'' h => by cases h⟩
  simp only [tick, exceeded?, hl, Option.filter_none, hi, hs]

/-- A tick fails as the instruction at hand does. -/
theorem next_of_error {l : Limits} {c : Cause} (hl : l.maxSteps = none)
    (hi : p.code.get? m.ip = some i)
    (hs : Exec.step l p i { m with ip := m.ip + 1, steps := m.steps + 1 } = .error c m')
    (hc : c.IsOwn) : Next p m (.error ((Fault.ofCause c).locate m.ip) m') := by
  refine ⟨l, hl, ?_, fun f m'' h l' hcut => ?_⟩
  · simp only [tick, exceeded?, hl, Option.filter_none, hi, hs]
  · cases h
    change l'.Cuts c at hcut
    cases c with
    | stackOverflow | callDepthExceeded | stepLimitExceeded => exact hc
    | _ => exact hcut

/-- The next tick fails, with a cause of the script's own and the globals of a store. -/
def Fails (p : Program) (m : Machine) (c : Cause) (s : Store) : Prop :=
  ∃ f m', Next p m (.error f m') ∧ f.cause = c ∧ c.IsOwn ∧
    m'.globals = s.globals.values.toArray

theorem fails_of_error {l : Limits} {c : Cause} {s : Store} (hl : l.maxSteps = none)
    (hi : p.code.get? m.ip = some i)
    (hs : Exec.step l p i { m with ip := m.ip + 1, steps := m.steps + 1 } = .error c m')
    (hc : c.IsOwn) (hg : m'.globals = s.globals.values.toArray) : Fails p m c s :=
  ⟨_, _, next_of_error hl hi hs hc, rfl, hc, hg⟩

/-- The next tick goes on with the value of an outcome, or fails as the outcome does. -/
def Closes (p : Program) (m : Machine) (outcome : Except Cause Value) (after : Value → Machine)
    (s : Store) : Prop :=
  match outcome with
  | .ok v => Next p m (.ok none (after v))
  | .error c => Fails p m c s

end Machine

namespace Exec

section Unwind

variable {l : Limits} {σ : List Cell} {ops : List Operator} {globals : Array Value}
  {ip base steps : Nat} {calls : Array String}

theorem restoreBase_toArray (b : Nat) :
    restoreBase ⟨(σ ++ [Cell.savedBase b]).toArray, ops, globals, ip, base, calls, steps⟩ =
      .ok () ⟨σ.toArray, ops, globals, ip, b, calls, steps⟩ :=
  (bind_ok (popCell_toArray _)).trans rfl

theorem restoreAddress_toArray (index : Nat) :
    restoreAddress ⟨(σ ++ [Cell.returnAddress index]).toArray, ops, globals, ip, base, calls, steps⟩ =
      .ok () ⟨σ.toArray, ops, globals, index, base, calls, steps⟩ :=
  (bind_ok (popCell_toArray _)).trans rfl

/-- Unwinding removes the locals, the links and the arguments. -/
theorem unwind_toArray (args vars : List Value) (ret callerBase : Nat) (v : Value) (name : String)
    (ops : List Operator) (globals : Array Value) (ip steps : Nat) (calls : Array String)
    (h : σ.length < l.maxStack) :
    unwind l args.length vars.length
        ⟨(σ ++ args.map Cell.value ++ [Cell.returnAddress ret, Cell.savedBase callerBase] ++
          vars.map Cell.value ++ [Cell.value v]).toArray, ops, globals, ip,
          σ.length + args.length + 2, calls.push name, steps⟩ =
      .ok () ⟨(σ ++ [Cell.value v]).toArray, ops, globals, ret, callerBase, calls, steps⟩ := by
  have hlinks : σ ++ args.map Cell.value ++ [.returnAddress ret, .savedBase callerBase] =
      σ ++ args.map Cell.value ++ [.returnAddress ret] ++ [.savedBase callerBase] := by simp
  unfold unwind
  refine (bind_ok (pop_toArray v)).trans ((bind_get _).trans ?_)
  rw [if_neg (by simp; omega)]
  refine (bind_ok (drop_toArray vars)).trans ?_
  rw [hlinks]
  refine (bind_ok (restoreBase_toArray callerBase)).trans ?_
  refine (bind_ok (restoreAddress_toArray ret)).trans ?_
  refine (bind_ok (drop_toArray args)).trans ?_
  refine (bind_ok rfl).trans ?_
  simp only [Array.pop_push]
  exact push_toArray v h

end Unwind

end Exec

/-- What lies below the locals of the running code. -/
inductive Activation where
  /-- Nothing: the code outside all functions runs. -/
  | top
  /-- The cells of the callers, the arguments of the call, the links back to the caller, and the
  active functions. -/
  | call (under : List Cell) (params ret base : Nat) (calls : Array String)

namespace Activation

/-- The cells up to the temporaries, for the values of the frame. -/
def cells : Activation → List Value → List Cell
  | top, _ => []
  | call under params ret base _, vs =>
    under ++ (vs.take params).map Cell.value ++ [.returnAddress ret, .savedBase base] ++
      (vs.drop params).map Cell.value

/-- The height at which the locals begin. -/
def base : Activation → Nat
  | top => 0
  | call under params _ _ _ => under.length + params + 2

/-- The active functions, outermost first. -/
def calls : Activation → Array String
  | top => #[]
  | call _ _ _ _ calls => calls

/-- The whole stack, for a store and temporaries. -/
def stack (a : Activation) (s : Store) (temps : List Value) : List Cell :=
  a.cells s.frame.values ++ temps.map Cell.value

/-- The machine that holds a store under an activation. -/
def machine (a : Activation) (s : Store) (temps : List Value) (ops : List Operator)
    (ip steps : Nat) : Machine :=
  ⟨(a.stack s temps).toArray, ops, s.globals.values.toArray, ip, a.base, a.calls, steps⟩

/-- Limits that allow the next step. -/
def room (a : Activation) (s : Store) (temps : List Value) : Limits :=
  ⟨(a.stack s temps).length + 2, a.calls.size + 1, none⟩

variable {p : Program} {a : Activation} {s : Store} {temps : List Value} {ops : List Operator}
  {ip n : Nat}

theorem stack_append (vs : List Value) :
    a.stack s (temps ++ vs) = a.stack s temps ++ vs.map Cell.value := by
  simp [stack]

theorem stack_snoc (v : Value) : a.stack s (temps ++ [v]) = a.stack s temps ++ [Cell.value v] :=
  stack_append [v]

/-! ## Values and globals -/

/-- Leaves out the result of an instruction that gives none. -/
theorem andNone {x : Exec Unit} {m m' : Machine} (h : x m = .ok () m') :
    (do x; return (none : Option Value) : Exec (Option Value)) m = .ok none m' :=
  Exec.bind_ok h

theorem push_machine (v : Value) :
    Exec.push (a.room s temps) v (a.machine s temps ops ip n) =
      .ok () (a.machine s (temps ++ [v]) ops ip n) := by
  unfold machine
  rw [stack_snoc]
  exact Exec.push_toArray v (by simp [room])

theorem pop_machine (temps : List Value) (v : Value) :
    Exec.pop (a.machine s (temps ++ [v]) ops ip n) = .ok v (a.machine s temps ops ip n) := by
  unfold machine
  rw [stack_snoc]
  exact Exec.pop_toArray v

theorem next_push {v : Value} (hi : p.code.get? ip = some (.push v)) :
    Machine.Next p (a.machine s temps ops ip n)
      (.ok none (a.machine s (temps ++ [v]) ops (ip + 1) (n + 1))) :=
  Machine.next_of_step (l := a.room s temps) rfl hi (andNone (push_machine v))

theorem next_pop {v : Value} (hi : p.code.get? ip = some .pop) :
    Machine.Next p (a.machine s (temps ++ [v]) ops ip n)
      (.ok none (a.machine s temps ops (ip + 1) (n + 1))) :=
  Machine.next_of_step (l := a.room s temps) rfl hi (Exec.bind_ok (pop_machine temps v))

theorem next_getGlobal {slot : Nat} {v : Value} (hi : p.code.get? ip = some (.getGlobal slot))
    (hv : s.globals.values[slot]? = some v) :
    Machine.Next p (a.machine s temps ops ip n)
      (.ok none (a.machine s (temps ++ [v]) ops (ip + 1) (n + 1))) := by
  refine Machine.next_of_step (l := a.room s temps) rfl hi ?_
  have hget : Exec.getGlobal slot (a.machine s temps ops (ip + 1) (n + 1)) =
      .ok v (a.machine s temps ops (ip + 1) (n + 1)) := by
    unfold Exec.getGlobal
    rw [Exec.bind_get]
    simp only [machine, List.getElem?_toArray, hv]
    rfl
  exact (Exec.bind_ok hget).trans (andNone (push_machine v))

theorem next_setGlobal {slot : Nat} {v : Value} {globals : Bindings}
    (hi : p.code.get? ip = some (.setGlobal slot)) (hslot : slot < s.globals.length)
    (hg : globals.values = s.globals.values.set slot v) :
    Machine.Next p (a.machine s (temps ++ [v]) ops ip n)
      (.ok none (a.machine { s with globals } temps ops (ip + 1) (n + 1))) := by
  refine Machine.next_of_step (l := a.room s temps) rfl hi ?_
  have hset : Exec.setGlobal slot v (a.machine s temps ops (ip + 1) (n + 1)) =
      .ok () (a.machine { s with globals } temps ops (ip + 1) (n + 1)) := by
    simp [Exec.setGlobal, machine, stack, hslot, hg]
  exact (Exec.bind_ok (pop_machine temps v)).trans (andNone hset)

/-! ## The frame -/

section Frame

variable {under : List Cell} {params ret base : Nat} {calls : Array String} {vs : List Value}

/-- The address of the variable with an ordinal: parameters lie below the links, locals above. -/
def address (under : List Cell) (params i : Nat) : Nat :=
  if i < params then under.length + i else under.length + 2 + i

theorem cells_getElem? {i : Nat} (hp : params ≤ vs.length) :
    ((call under params ret base calls).cells vs)[address under params i]? =
      (vs[i]?).map Cell.value := by
  simp only [cells, address]
  split
  · rw [List.append_assoc, List.append_assoc, List.getElem?_append_right (by omega),
      List.getElem?_append_left (by simp; omega), List.getElem?_map,
      List.getElem?_take_of_lt (by omega), Nat.add_sub_cancel_left]
  · have hindex : params + (under.length + 2 + i - (under.length + (params + 2))) = i := by omega
    rw [List.getElem?_append_right (by simp; omega), List.getElem?_map, List.getElem?_drop]
    simp [hp, hindex]

theorem cells_set {i : Nat} (hp : params ≤ vs.length) (v : Value) :
    ((call under params ret base calls).cells vs).set (address under params i) (.value v) =
      (call under params ret base calls).cells (vs.set i v) := by
  simp only [cells, address]
  split
  · rename_i hlt
    rw [List.append_assoc, List.append_assoc, List.set_append_right _ _ (by omega),
      List.set_append_left _ _ (by simp; omega), Nat.add_sub_cancel_left,
      List.drop_set_of_lt hlt, List.take_set, List.map_set]
    simp
  · rename_i hge
    have hindex : params + (under.length + 2 + i - (under.length + (params + 2))) = i := by omega
    rw [List.set_append_right _ _ (by simp; omega), List.take_set_of_le (by omega)]
    simp [hp, List.set_drop, List.map_set, hindex]

theorem cells_snoc (hp : params ≤ vs.length) (v : Value) :
    (call under params ret base calls).cells (vs ++ [v]) =
      (call under params ret base calls).cells vs ++ [.value v] := by
  simp only [cells]
  rw [List.take_append_of_le_length hp, List.drop_append_of_le_length hp]
  simp

/-- The instructions of a frame reach the addresses of its variables. -/
theorem address?_eq {i : Nat} (hp : params ≤ s.frame.length) (hi : i < s.frame.length) :
    ((call under params ret base calls).machine s temps ops ip n).address?
        (Frame.offset params i (i < params)) = some (address under params i) := by
  have hlen : ((call under params ret base calls).stack s temps).length =
      under.length + 2 + s.frame.length + temps.length := by
    simp [stack, cells]
    omega
  unfold Machine.address? Frame.offset address
  simp only [machine, Activation.base, List.size_toArray, hlen, decide_eq_true_eq]
  split <;> rw [if_pos (by omega)] <;> congr 1 <;> omega

/-- The variable with an ordinal lies at its address. -/
theorem stack_getElem? {i : Nat} {v : Value} (hp : params ≤ s.frame.length)
    (hv : s.frame.values[i]? = some v) :
    ((call under params ret base calls).stack s temps)[address under params i]? =
      some (.value v) := by
  have hcell : ((call under params ret base calls).cells s.frame.values)[address under params i]? =
      some (.value v) := by
    rw [cells_getElem? (by simpa using hp), hv, Option.map_some]
  rw [stack, List.getElem?_append_left (List.getElem?_eq_some_iff.mp hcell).1, hcell]

/-- Changing the cell at the address of a variable changes the variable. -/
theorem stack_set {i : Nat} {v : Value} {frame : Bindings} (hp : params ≤ s.frame.length)
    (hlt : i < s.frame.length) (hf : frame.values = s.frame.values.set i v) :
    ((call under params ret base calls).stack s temps).set (address under params i) (.value v) =
      (call under params ret base calls).stack { s with frame } temps := by
  have hin : address under params i <
      ((call under params ret base calls).cells s.frame.values).length := by
    simp only [cells, address]
    split <;> simp <;> omega
  simp only [stack, hf]
  rw [List.set_append_left _ _ hin, cells_set (by simpa using hp)]

theorem next_getLocal {i : Nat} {v : Value}
    (hi : p.code.get? ip = some (.getLocal (Frame.offset params i (i < params))))
    (hp : params ≤ s.frame.length) (hv : s.frame.values[i]? = some v) :
    Machine.Next p ((call under params ret base calls).machine s temps ops ip n)
      (.ok none ((call under params ret base calls).machine s (temps ++ [v]) ops (ip + 1)
        (n + 1))) := by
  refine Machine.next_of_step (l := (call under params ret base calls).room s temps) rfl hi ?_
  have hlt : i < s.frame.length := by simpa using (List.getElem?_eq_some_iff.mp hv).1
  have hget : Exec.getLocal (Frame.offset params i (i < params))
      ((call under params ret base calls).machine s temps ops (ip + 1) (n + 1)) =
      .ok v ((call under params ret base calls).machine s temps ops (ip + 1) (n + 1)) := by
    unfold Exec.getLocal
    rw [Exec.bind_get, address?_eq hp hlt]
    simp only [machine, List.getElem?_toArray, stack_getElem? hp hv]
    rfl
  exact (Exec.bind_ok hget).trans (andNone (push_machine v))

theorem next_setLocal {i : Nat} {v : Value} {frame : Bindings}
    (hi : p.code.get? ip = some (.setLocal (Frame.offset params i (i < params))))
    (hp : params ≤ s.frame.length) (hlt : i < s.frame.length)
    (hf : frame.values = s.frame.values.set i v) :
    Machine.Next p ((call under params ret base calls).machine s (temps ++ [v]) ops ip n)
      (.ok none ((call under params ret base calls).machine { s with frame } temps ops (ip + 1)
        (n + 1))) := by
  refine Machine.next_of_step (l := (call under params ret base calls).room s temps) rfl hi ?_
  have hlt' : i < s.frame.values.length := by simpa using hlt
  have hold := List.getElem?_eq_getElem hlt'
  have hset : Exec.setLocal (Frame.offset params i (i < params)) v
      ((call under params ret base calls).machine s temps ops (ip + 1) (n + 1)) =
      .ok () ((call under params ret base calls).machine { s with frame } temps ops (ip + 1)
        (n + 1)) := by
    unfold Exec.setLocal
    rw [address?_eq hp hlt]
    simp only [machine, List.getElem?_toArray, stack_getElem? hp hold, List.setIfInBounds_toArray,
      stack_set hp hlt hf]
  exact (Exec.bind_ok (pop_machine temps v)).trans (andNone hset)

theorem next_declareLocal {name : String} (hi : p.code.get? ip = some .declareLocal)
    (hp : params ≤ s.frame.length) :
    Machine.Next p ((call under params ret base calls).machine s [] ops ip n)
      (.ok none ((call under params ret base calls).machine (s.declare name) [] ops (ip + 1)
        (n + 1))) := by
  refine Machine.next_of_step (l := (call under params ret base calls).room s []) rfl hi ?_
  refine (andNone (push_machine .undefined)).trans ?_
  have hp' : params ≤ s.frame.values.length := by simpa using hp
  simp [machine, stack, Store.declare, cells_snoc hp']

end Frame

/-! ## Jumps -/

theorem next_jump {target : Nat} (hi : p.code.get? ip = some (.jump target)) :
    Machine.Next p (a.machine s temps ops ip n) (.ok none (a.machine s temps ops target (n + 1))) :=
  Machine.next_of_step (l := a.room s temps) rfl hi (andNone rfl)

theorem next_jumpIfFalse {target : Nat} {b : Bool}
    (hi : p.code.get? ip = some (.jumpIfFalse target)) :
    Machine.Next p (a.machine s (temps ++ [.bool b]) ops ip n)
      (.ok none (a.machine s temps ops (if b then ip + 1 else target) (n + 1))) := by
  refine Machine.next_of_step (l := a.room s temps) rfl hi (andNone ?_)
  unfold Exec.jumpIfFalse
  refine (Exec.bind_ok (pop_machine temps _)).trans ?_
  cases b <;> rfl

theorem fails_jumpIfFalse {target : Nat} {v : Value}
    (hi : p.code.get? ip = some (.jumpIfFalse target)) (hv : ∀ b, v ≠ .bool b) :
    Machine.Fails p (a.machine s (temps ++ [v]) ops ip n) (.conditionNotBool v.type) s := by
  have hpop : Exec.jumpIfFalse target (a.machine s (temps ++ [v]) ops (ip + 1) (n + 1)) =
      .error (.conditionNotBool v.type) (a.machine s temps ops (ip + 1) (n + 1)) := by
    unfold Exec.jumpIfFalse
    refine (Exec.bind_ok (pop_machine temps _)).trans ?_
    cases v with
    | bool b => exact absurd rfl (hv b)
    | _ => rfl
  exact Machine.fails_of_error (l := a.room s temps) rfl hi (Exec.bind_error hpop) trivial rfl

/-! ## Operators -/

theorem next_await {op : Operator} (hi : p.code.get? ip = some (.operator op))
    (hop : op.isUnary ∨ op.isBarrier) :
    Machine.Next p (a.machine s temps ops ip n)
      (.ok none (a.machine s temps (op :: ops) (ip + 1) (n + 1))) := by
  refine Machine.next_of_step (l := a.room s temps) rfl hi (andNone ?_)
  cases op with
  | openParen | prepareCall | not | neg | pos => rfl
  | _ => exact absurd hop (by decide)

section Pending

variable {o : Open}

/-- Reducing what is pending closes an open expression on top of the stack. -/
theorem applyWhile_machine (a : Activation) (s : Store) (temps : List Value) (ip n : Nat)
    {test : Operator → Bool} (ho : o.Fits) (hp : ∀ q ∈ o.pending, test q = true)
    (hops : ∀ q ∈ ops.head?, test q = false) :
    (∃ v, o.close = .ok v ∧
      Exec.applyWhile (Exec.reduce (a.room s (temps ++ o.values))) test (o.pending ++ ops)
          (a.machine s (temps ++ o.values) (o.pending ++ ops) ip n) =
        .ok () (a.machine s (temps ++ [v]) ops ip n)) ∨
    (∃ c m', o.close = .error c ∧
      Exec.applyWhile (Exec.reduce (a.room s (temps ++ o.values))) test (o.pending ++ ops)
          (a.machine s (temps ++ o.values) (o.pending ++ ops) ip n) = .error c m' ∧
      m'.globals = s.globals.values.toArray) := by
  have hroom : (a.stack s temps).length + o.values.length ≤
      (a.room s (temps ++ o.values)).maxStack := by
    simp [room, stack_append]
  unfold machine
  simp only [stack_append]
  rcases Exec.applyWhile_closes ho hp hops hroom with ⟨v, hv, he⟩ | ⟨c, τ, ops', hc, he⟩
  · exact Or.inl ⟨v, hv, he⟩
  · exact Or.inr ⟨c, _, hc, he, rfl⟩

/-- The operators before the first that fails a test. -/
theorem splitWhile {test : Operator → Bool} {pending : List Operator}
    (hp : ∀ q ∈ pending, test q = true) (hops : ∀ q ∈ ops.head?, test q = false) :
    (pending ++ ops).takeWhile test = pending ∧ (pending ++ ops).dropWhile test = ops := by
  rw [List.takeWhile_append_of_pos hp, List.dropWhile_append_of_pos hp]
  cases ops with
  | nil => simp
  | cons q rest => simp [hops q rfl]

/-- An operator closes the open expression before it, if that binds at least as tightly and what
waits below does not. -/
theorem settle_machine (a : Activation) (s : Store) (temps : List Value) (ip n : Nat)
    {op : Operator} (ho : o.Fits)
    (hp : ∀ q ∈ o.pending, op.priority ≤ q.priority)
    (hops : ∀ q ∈ ops.head?, q.isBarrier ∨ q.priority < op.priority) :
    (∃ v, o.close = .ok v ∧
      Exec.settle (Exec.reduce (a.room s (temps ++ o.values))) op
          (a.machine s (temps ++ o.values) (o.pending ++ ops) ip n) =
        .ok () (a.machine s (temps ++ [v]) ops ip n)) ∨
    (∃ c m', o.close = .error c ∧
      Exec.settle (Exec.reduce (a.room s (temps ++ o.values))) op
          (a.machine s (temps ++ o.values) (o.pending ++ ops) ip n) = .error c m' ∧
      m'.globals = s.globals.values.toArray) := by
  refine applyWhile_machine a s temps ip n ho (fun q hq => ?_) fun q hq => ?_
  · simp [Exec.yieldsTo, Open.not_isBarrier_of_mem ho hq, hp q hq]
  · rcases hops q hq with h | h
    · simp [Exec.yieldsTo, h]
    · simp [Exec.yieldsTo, Int.not_le.mpr h]

theorem closes_endOfExpression (hi : p.code.get? ip = some .endOfExpression) (ho : o.Fits)
    (hp : ∀ q ∈ o.pending, 0 ≤ q.priority) (hops : ∀ q ∈ ops.head?, q.isBarrier) :
    Machine.Closes p (a.machine s (temps ++ o.values) (o.pending ++ ops) ip n) o.close
      (fun v => a.machine s (temps ++ [v]) ops (ip + 1) (n + 1)) s := by
  have hp' : ∀ q ∈ o.pending, Operator.endOfExpression.priority ≤ q.priority := hp
  rcases settle_machine a s temps (ip + 1) (n + 1) ho hp' fun q hq => Or.inl (hops q hq) with
    ⟨v, hv, he⟩ | ⟨c, m', hc, he, hg⟩
  · rw [hv]
    exact Machine.next_of_step rfl hi (andNone he)
  · rw [hc]
    exact Machine.fails_of_error rfl hi (Exec.bind_error he) (Open.close_error ho hc) hg

/-- A binary operator closes its left operand and waits. -/
theorem closes_binary {op : Operator} (hi : p.code.get? ip = some (.operator op))
    (hop : op ∈ Operator.binary) (ho : o.Fits) (hp : ∀ q ∈ o.pending, op.priority ≤ q.priority)
    (hops : ∀ q ∈ ops.head?, q.isBarrier ∨ q.priority < op.priority) :
    Machine.Closes p (a.machine s (temps ++ o.values) (o.pending ++ ops) ip n) o.close
      (fun v => a.machine s (temps ++ [v]) (op :: ops) (ip + 1) (n + 1)) s := by
  have hstep : Exec.operator (a.room s (temps ++ o.values)) op =
      (do Exec.settle (Exec.reduce (a.room s (temps ++ o.values))) op; Exec.await op) := by
    cases op with
    | openParen | closeParen | prepareCall | endOfExpression | not | neg | pos =>
      exact absurd hop (by decide)
    | _ => rfl
  rcases settle_machine a s temps (ip + 1) (n + 1) ho hp hops with
    ⟨v, hv, he⟩ | ⟨c, m', hc, he, hg⟩
  · rw [hv]
    refine Machine.next_of_step (l := a.room s (temps ++ o.values)) rfl hi (andNone ?_)
    rw [hstep]
    exact Exec.bind_ok he
  · rw [hc]
    refine Machine.fails_of_error (l := a.room s (temps ++ o.values)) rfl hi (Exec.bind_error ?_)
      (Open.close_error ho hc) hg
    rw [hstep]
    exact Exec.bind_error he

/-- A closing parenthesis closes everything after the opening one. -/
theorem closes_closeParen (hi : p.code.get? ip = some (.operator .closeParen)) (ho : o.Fits) :
    Machine.Closes p (a.machine s (temps ++ o.values) (o.pending ++ .openParen :: ops) ip n) o.close
      (fun v => a.machine s (temps ++ [v]) ops (ip + 1) (n + 1)) s := by
  have hfront : ∀ q ∈ o.pending, (!q.isBarrier) = true := fun q hq => by
    simp [Open.not_isBarrier_of_mem ho hq]
  have hback : ∀ q ∈ (Operator.openParen :: ops).head?, (!q.isBarrier) = false := fun q hq => by
    cases hq
    rfl
  rcases applyWhile_machine a s temps (ip + 1) (n + 1) ho hfront hback with
    ⟨v, hv, he⟩ | ⟨c, m', hc, he, hg⟩
  · rw [hv]
    exact Machine.next_of_step rfl hi (andNone ((Exec.bind_get _).trans (Exec.bind_ok he)))
  · rw [hc]
    exact Machine.fails_of_error rfl hi
      (Exec.bind_error ((Exec.bind_get _).trans (Exec.bind_error he))) (Open.close_error ho hc) hg

end Pending

/-! ## Calls -/

theorem next_call {target : Nat} {args : List Value} {frame : Bindings}
    (hi : p.code.get? ip = some (.call target)) (hf : frame.values = args) :
    Machine.Next p (a.machine s (temps ++ args) ops ip n)
      (.ok none ((call (a.stack s temps) args.length (ip + 1) a.base
        (a.calls.push (Exec.callName p target))).machine { s with frame } [] ops target
          (n + 1))) := by
  refine Machine.next_of_step (l := a.room s (temps ++ args)) rfl hi (andNone ?_)
  unfold Exec.call
  rw [Exec.bind_get, if_neg (by simp [room, machine])]
  refine (Exec.bind_get _).trans ?_
  refine (Exec.bind_ok (Exec.pushCell_toArray _ (by simp [room]))).trans ?_
  refine (Exec.bind_get _).trans ?_
  refine (Exec.bind_ok (Exec.pushCell_toArray _ (by simp [room]))).trans ?_
  have hcells : a.stack s (temps ++ args) ++ [Cell.returnAddress (ip + 1)] ++
      [Cell.savedBase a.base] = (call (a.stack s temps) args.length (ip + 1) a.base
        (a.calls.push (Exec.callName p target))).stack { s with frame } [] := by
    simp [stack, cells, hf]
  have hbase : (a.stack s (temps ++ args)).length + 1 + 1 =
      (a.stack s temps).length + args.length + 2 := by
    simp [stack_append]
  simp only [machine, Exec.enter]
  rw [hcells]
  simp only [List.size_toArray, ← hcells, List.length_append, List.length_singleton, hbase]
  rfl

/-- The frame of the running function is unwound, and its result lies on top of what the caller had
there. -/
theorem next_ret {s₀ : Store} {params locals ret : Nat} {name : String} {v : Value}
    (hi : p.code.get? ip = some (.ret params locals)) (hf : s.frame.length = params + locals) :
    Machine.Next p
      ((call (a.stack s₀ temps) params ret a.base (a.calls.push name)).machine s [v]
        (.prepareCall :: ops) ip n)
      (.ok none (a.machine { s with frame := s₀.frame } (temps ++ [v]) ops ret (n + 1))) := by
  refine Machine.next_of_step (l := a.room s₀ temps) rfl hi ?_
  refine (Exec.bind_get _).trans ((Exec.bind_setOperators _ _).trans (andNone ?_))
  have hargs : (s.frame.values.take params).length = params := by simp [hf]
  have hvars : (s.frame.values.drop params).length = locals := by simp [hf]
  have hroom : (a.stack s₀ temps).length < (a.room s₀ temps).maxStack := by simp [room]
  have hunwind := Exec.unwind_toArray (s.frame.values.take params)
    (s.frame.values.drop params) ret a.base v name ops s.globals.values.toArray (ip + 1)
    (n + 1) a.calls hroom
  rw [hargs, hvars] at hunwind
  simp only [machine, stack_snoc]
  exact hunwind

/-- Outside all functions a return ends the program. -/
theorem next_finish {params locals : Nat} {v : Value}
    (hi : p.code.get? ip = some (.ret params locals)) :
    Machine.Next p (top.machine s [v] [] ip n)
      (.ok (some v) (top.machine s [] [] (ip + 1) (n + 1))) := by
  refine Machine.next_of_step (l := top.room s []) rfl hi ?_
  refine (Exec.bind_get _).trans (Exec.bind_ok ?_)
  unfold Exec.finish
  refine (Exec.bind_ok (pop_machine [] v)).trans ?_
  rfl

end Activation

end StackScript
