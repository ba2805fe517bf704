import StackScript.Proofs.Machine.Post

/-!
# What computations leave alone

`Exec.Leaves part x` says that a computation leaves a part of the machine as it is, whether it ends
or fails. Most operations change the stack, the globals, the instruction pointer or the base, so they
leave every part that is apart from these (`Apart`), and operators and returns also change which
operators wait, so they leave every part that does not depend on them either (`Unconcerned`). Only
calls and returns change which functions are active, and no instruction changes the count of steps:

* `leaves_step`: an instruction that neither calls nor returns leaves the active functions, and all
  else that is unconcerned;
* `leaves_operators_step`: an instruction that is no operator and does not return leaves the
  operators that wait;
* `leaves_steps_step`: every instruction leaves the count of steps, so a tick adds one
  (`Machine.steps_of_tick_ok`, `Machine.steps_of_tick_error`).
-/

namespace StackScript

/-- A part of a machine that does not depend on the stack, the globals, the instruction pointer and
the base. -/
structure Apart {γ : Type} (part : Machine → γ) : Prop where
  stack : ∀ m s, part { m with stack := s } = part m
  globals : ∀ m g, part { m with globals := g } = part m
  ip : ∀ m i, part { m with ip := i } = part m
  base : ∀ m b, part { m with base := b } = part m

theorem apart_operators : Apart (·.operators) where
  stack _ _ := rfl
  globals _ _ := rfl
  ip _ _ := rfl
  base _ _ := rfl

/-- A part of a machine that depends neither on the stack and the operators that wait nor on the
globals, the instruction pointer and the base. -/
structure Unconcerned {γ : Type} (part : Machine → γ) : Prop where
  stack : ∀ m s, part { m with stack := s } = part m
  operators : ∀ m ops, part { m with operators := ops } = part m
  globals : ∀ m g, part { m with globals := g } = part m
  ip : ∀ m i, part { m with ip := i } = part m
  base : ∀ m b, part { m with base := b } = part m

theorem Unconcerned.apart {γ : Type} {part : Machine → γ} (h : Unconcerned part) : Apart part :=
  ⟨h.stack, h.globals, h.ip, h.base⟩

theorem unconcerned_calls : Unconcerned (·.calls) where
  stack _ _ := rfl
  operators _ _ := rfl
  globals _ _ := rfl
  ip _ _ := rfl
  base _ _ := rfl

theorem unconcerned_steps : Unconcerned (·.steps) where
  stack _ _ := rfl
  operators _ _ := rfl
  globals _ _ := rfl
  ip _ _ := rfl
  base _ _ := rfl

namespace Exec

variable {α β γ : Type} {part : Machine → γ} {l : Limits} {p : Program}

/-- Whether a computation ends or fails, it leaves a part of the machine as it is. -/
def Leaves (part : Machine → γ) (x : Exec α) : Prop :=
  ∀ m, match x m with
    | .ok _ m' => part m' = part m
    | .error _ m' => part m' = part m

section Rules

variable {x : Exec α} {m m' : Machine}

theorem Leaves.ok {a : α} (h : Leaves part x) (hx : x m = .ok a m') : part m' = part m := by
  have hm := h m
  rwa [hx] at hm

theorem Leaves.error {c : Cause} (h : Leaves part x) (hx : x m = .error c m') :
    part m' = part m := by
  have hm := h m
  rwa [hx] at hm

theorem Leaves.post (h : Leaves part x) (m : Machine) :
    Post (fun _ => True) x m fun _ m' => part m' = part m := by
  have hm := h m
  unfold Post
  cases hx : x m with
  | ok a m' =>
    rw [hx] at hm
    exact hm
  | error c m' => trivial

theorem Leaves.pure (a : α) : Leaves part (Pure.pure a) := fun _ => rfl

theorem Leaves.throw (c : Cause) : Leaves part (MonadExcept.throw c : Exec α) := fun _ => rfl

theorem Leaves.get : Leaves part (MonadState.get : Exec Machine) := fun _ => rfl

theorem Leaves.bind {f : α → Exec β} (hx : Leaves part x) (hf : ∀ a, Leaves part (f a)) :
    Leaves part (x >>= f) := by
  intro m
  cases h : x m with
  | ok a m₁ =>
    have hrest := hf a m₁
    rw [bind_ok h, ← hx.ok h]
    exact hrest
  | error c m₁ =>
    rw [bind_error h]
    exact hx.error h

end Rules

/-! ## Operations -/

section Operations

variable (hpart : Apart part)

include hpart

theorem leaves_pushCell (c : Cell) : Leaves part (pushCell l c) := by
  intro m
  unfold pushCell
  by_cases hroom : m.stack.size < l.maxStack
  · rw [if_pos hroom]
    exact hpart.stack m _
  · rw [if_neg hroom]

theorem leaves_push (v : Value) : Leaves part (push l v) := leaves_pushCell hpart _

theorem leaves_popCell : Leaves part popCell := by
  intro m
  unfold popCell
  cases m.stack.back? with
  | none => rfl
  | some c => exact hpart.stack m _

theorem leaves_pop : Leaves part pop := by
  refine (leaves_popCell hpart).bind fun c => ?_
  cases c with
  | value v => exact .pure v
  | returnAddress index => exact .throw _
  | savedBase base => exact .throw _

theorem leaves_drop (count : Nat) : Leaves part (drop count) := by
  induction count with
  | zero => exact .pure ()
  | succ count ih => exact (leaves_pop hpart).bind fun _ => ih

theorem leaves_setLocal (offset : Int) (v : Value) : Leaves part (setLocal offset v) := by
  intro m
  unfold setLocal
  cases m.address? offset with
  | none => rfl
  | some a =>
    simp only
    cases m.stack[a]? with
    | none => rfl
    | some c =>
      cases c with
      | value w => exact hpart.stack m _
      | returnAddress index => rfl
      | savedBase base => rfl

theorem leaves_setGlobal (slot : Nat) (v : Value) : Leaves part (setGlobal slot v) := by
  intro m
  unfold setGlobal
  by_cases hslot : slot < m.globals.size
  · rw [if_pos hslot]
    exact hpart.globals m _
  · rw [if_neg hslot]

omit hpart in
theorem leaves_getLocal (offset : Int) : Leaves part (getLocal offset) := by
  refine Leaves.get.bind fun m => ?_
  split
  · exact .throw _
  · split
    · exact .pure _
    · exact .throw _
    · exact .throw _

omit hpart in
theorem leaves_getGlobal (slot : Nat) : Leaves part (getGlobal slot) := by
  refine Leaves.get.bind fun m => ?_
  split
  · exact .pure _
  · exact .throw _

omit hpart in
theorem leaves_ofExcept (x : Except Cause α) : Leaves part (ofExcept x) := by
  cases x with
  | ok a => exact .pure a
  | error c => exact .throw c

theorem leaves_reduce (op : Operator) : Leaves part (reduce l op) := by
  have hresult (y : Except Cause Value) : Leaves part (do push l (← ofExcept y)) :=
    (leaves_ofExcept y).bind fun v => leaves_push hpart v
  unfold reduce
  by_cases hu : op.isUnary = true
  · rw [if_pos hu]
    exact (leaves_pop hpart).bind fun v => hresult _
  · rw [if_neg hu]
    exact (leaves_pop hpart).bind fun rhs => (leaves_pop hpart).bind fun lhs => hresult _

theorem leaves_jump (target : Nat) : Leaves part (jump target) := fun m => hpart.ip m target

theorem leaves_jumpIfFalse (target : Nat) : Leaves part (jumpIfFalse target) := by
  refine (leaves_pop hpart).bind fun v => ?_
  split
  · exact .pure ()
  · exact leaves_jump hpart target
  · exact .throw _

theorem leaves_finish : Leaves part finish := by
  refine (leaves_pop hpart).bind fun v => Leaves.get.bind fun m => ?_
  split
  · exact .pure v
  · exact .throw _

theorem leaves_restoreBase : Leaves part restoreBase := by
  refine (leaves_popCell hpart).bind fun c => ?_
  cases c with
  | savedBase b => exact fun m => hpart.base m b
  | value v => exact .throw _
  | returnAddress index => exact .throw _

theorem leaves_restoreAddress : Leaves part restoreAddress := by
  refine (leaves_popCell hpart).bind fun c => ?_
  cases c with
  | returnAddress index => exact fun m => hpart.ip m index
  | value v => exact .throw _
  | savedBase b => exact .throw _

/-- A call leaves every such part that does not depend on the active functions either. -/
theorem leaves_call (hcalls : ∀ m calls, part { m with calls := calls } = part m) (target : Nat) :
    Leaves part (call l p target) := by
  have henter : Leaves part (enter (callName p target) target) := fun m =>
    (hcalls { m with base := m.stack.size, ip := target } _).trans
      ((hpart.ip { m with base := m.stack.size } target).trans (hpart.base m _))
  refine Leaves.get.bind fun m => ?_
  have hframe : Leaves part (do
      pushCell l (.returnAddress (← MonadState.get).ip)
      pushCell l (.savedBase (← MonadState.get).base)
      enter (callName p target) target) :=
    Leaves.get.bind fun _ => (leaves_pushCell hpart _).bind fun _ =>
      Leaves.get.bind fun _ => (leaves_pushCell hpart _).bind fun _ => henter
  by_cases hdepth : l.maxDepth ≤ m.calls.size
  · rw [if_pos hdepth]
    exact .throw _
  · rw [if_neg hdepth]
    exact hframe

theorem leaves_unwind (hcalls : ∀ m calls, part { m with calls := calls } = part m)
    (params locals : Nat) : Leaves part (unwind l params locals) := by
  have hleave : Leaves part leave := fun m => hcalls m _
  have htail (v : Value) : Leaves part (do
      drop locals; restoreBase; restoreAddress; drop params; leave; push l v) :=
    (leaves_drop hpart locals).bind fun _ => (leaves_restoreBase hpart).bind fun _ =>
      (leaves_restoreAddress hpart).bind fun _ => (leaves_drop hpart params).bind fun _ =>
      hleave.bind fun _ => leaves_push hpart v
  refine (leaves_pop hpart).bind fun v => Leaves.get.bind fun m => ?_
  by_cases hsize : m.stack.size ≠ m.base + locals
  · rw [if_pos hsize]
    exact .throw _
  · rw [if_neg hsize]
    exact htail v

/-- An instruction that is no operator and neither calls nor returns leaves every part that is apart
from the stack. -/
theorem leaves_plain_step {i : Instr} (hop : ∀ op, i ≠ .operator op)
    (hcall : ∀ target, i ≠ .call target) (hret : ∀ params locals, i ≠ .ret params locals) :
    Leaves part (step l p i) := by
  have andNone {x : Exec Unit} (hx : Leaves part x) :
      Leaves part (do x; return (none : Option Value)) := hx.bind fun _ => .pure none
  cases i with
  | push v => exact andNone (leaves_push hpart v)
  | getGlobal slot => exact (leaves_getGlobal slot).bind fun v => andNone (leaves_push hpart v)
  | setGlobal slot =>
    exact (leaves_pop hpart).bind fun v => andNone (leaves_setGlobal hpart slot v)
  | getLocal offset => exact (leaves_getLocal offset).bind fun v => andNone (leaves_push hpart v)
  | setLocal offset =>
    exact (leaves_pop hpart).bind fun v => andNone (leaves_setLocal hpart offset v)
  | declareLocal => exact andNone (leaves_push hpart _)
  | jump target => exact andNone (leaves_jump hpart target)
  | jumpIfFalse target => exact andNone (leaves_jumpIfFalse hpart target)
  | call target => exact absurd rfl (hcall target)
  | ret params locals => exact absurd rfl (hret params locals)
  | operator op => exact absurd rfl (hop op)
  | pop => exact (leaves_pop hpart).bind fun _ => .pure none

end Operations

/-! ## Operators -/

section Operators

variable (hpart : Unconcerned part)

include hpart

theorem leaves_setOperators (ops : List Operator) : Leaves part (setOperators ops) :=
  fun m => hpart.operators m ops

theorem leaves_applyWhile (test : Operator → Bool) (ops : List Operator) :
    Leaves part (applyWhile (reduce l) test ops) := by
  induction ops with
  | nil => exact .pure ()
  | cons op rest ih =>
    unfold applyWhile
    split
    · exact (leaves_setOperators hpart rest).bind fun _ =>
        (leaves_reduce hpart.apart op).bind fun _ => ih
    · exact .pure ()

theorem leaves_settle (op : Operator) : Leaves part (settle (reduce l) op) :=
  Leaves.get.bind fun _ => leaves_applyWhile hpart _ _

theorem leaves_closeGroup : Leaves part (closeGroup (reduce l)) := by
  refine Leaves.get.bind fun _ => (leaves_applyWhile hpart _ _).bind fun _ => ?_
  refine Leaves.get.bind fun _ => (leaves_setOperators hpart _).bind fun _ => ?_
  split
  · exact .pure ()
  · exact .throw _

theorem leaves_operator (op : Operator) : Leaves part (operator l op) := by
  have hawait : Leaves part (await op) := fun m => hpart.operators m _
  unfold operator operatorBy
  split
  all_goals first
    | exact hawait
    | exact leaves_closeGroup hpart
    | exact leaves_settle hpart _
    | exact (leaves_settle hpart _).bind fun _ => hawait

/-- **An instruction that neither calls nor returns leaves every part that is unconcerned.** -/
theorem leaves_step {i : Instr} (hcall : ∀ target, i ≠ .call target)
    (hret : ∀ params locals, i ≠ .ret params locals) : Leaves part (step l p i) := by
  by_cases hop : ∃ op, i = .operator op
  · obtain ⟨op, rfl⟩ := hop
    exact (leaves_operator hpart op).bind fun _ => .pure none
  · exact leaves_plain_step hpart.apart (fun op h => hop ⟨op, h⟩) hcall hret

end Operators

/-- **An instruction that is no operator and does not return leaves the operators that wait.** -/
theorem leaves_operators_step {i : Instr} (hop : ∀ op, i ≠ .operator op)
    (hret : ∀ params locals, i ≠ .ret params locals) : Leaves (·.operators) (step l p i) := by
  by_cases hcall : ∃ target, i = .call target
  · obtain ⟨target, rfl⟩ := hcall
    exact (leaves_call apart_operators (fun _ _ => rfl) target).bind fun _ => .pure none
  · exact leaves_plain_step apart_operators hop (fun target h => hcall ⟨target, h⟩) hret

/-! ## The count of steps -/

theorem leaves_steps_ret (params locals : Nat) : Leaves (·.steps) (ret l params locals) := by
  have hunwind : Leaves (·.steps) (unwind l params locals) :=
    leaves_unwind unconcerned_steps.apart (fun _ _ => rfl) params locals
  refine Leaves.get.bind fun m => ?_
  split
  · exact (leaves_setOperators unconcerned_steps _).bind fun _ => hunwind.bind fun _ => .pure none
  · exact (leaves_finish unconcerned_steps.apart).bind fun v => .pure (some v)

/-- **No instruction changes the count of steps.** -/
theorem leaves_steps_step (i : Instr) : Leaves (·.steps) (step l p i) := by
  by_cases hcall : ∃ target, i = .call target
  · obtain ⟨target, rfl⟩ := hcall
    exact (leaves_call unconcerned_steps.apart (fun _ _ => rfl) target).bind fun _ => .pure none
  by_cases hret : ∃ params locals, i = .ret params locals
  · obtain ⟨params, locals, rfl⟩ := hret
    exact leaves_steps_ret params locals
  exact leaves_step unconcerned_steps (fun target h => hcall ⟨target, h⟩)
    fun params locals h => hret ⟨params, locals, h⟩

end Exec

namespace Machine

variable {l : Limits} {p : Program} {m m' : Machine}

theorem steps_of_tick_ok {r : Option Value} (h : tick l p m = .ok r m') :
    m'.steps = m.steps + 1 := by
  obtain ⟨i, -, hstep⟩ := tick_eq_ok h
  exact (Exec.leaves_steps_step i).ok hstep

theorem steps_of_tick_error {f : Fault} (h : tick l p m = .error f m') :
    m'.steps = m.steps + 1 := by
  rcases tick_error_cases h with ⟨bound, -, -, rfl⟩ | ⟨-, -, rfl⟩ | ⟨i, -, -, hs⟩
  · rfl
  · rfl
  · exact (Exec.leaves_steps_step i).error hs

end Machine

end StackScript
