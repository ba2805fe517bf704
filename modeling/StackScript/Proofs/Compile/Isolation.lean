import StackScript.Proofs.Compile.Compiled
import StackScript.Proofs.Machine.Frames
import StackScript.Proofs.Script.Plan

/-!
# Calls are isolated

A call in a compiled program changes nothing of its caller. From the `prepareCall` on the machine
runs the region of the call above what it held before, and the regions of the functions it comes to
above that (`Active`). So when the `prepareCall` is gone, which only a return brings about, the
machine is behind the call with the result on top of what was there (`compiled_call_isolated`).
-/

namespace StackScript

open Machine

/-- A machine `m` is at a `prepareCall`, and after `n` ticks the machine is `m'` and what `prepareCall`
made wait is gone, for the first time. -/
structure Machine.CallEnds (l : Limits) (p : Program) (m : Machine) (n : Nat) (m' : Machine) :
    Prop where
  prepare : p.code.get? m.ip = some (.operator .prepareCall)
  pos : 0 < n
  run : after? l p n m = some m'
  waits : ∀ j < n, 0 < j → ∀ m₁ ∈ after? l p j m, m.operators.length < m₁.operators.length
  popped : m'.operators.length ≤ m.operators.length

instance (l : Limits) (p : Program) (m : Machine) (n : Nat) (m' : Machine) :
    Decidable (Machine.CallEnds l p m n m') :=
  decidable_of_iff (p.code.get? m.ip = some (.operator .prepareCall) ∧ 0 < n ∧
      after? l p n m = some m' ∧
      (∀ j < n, 0 < j → ∀ m₁ ∈ after? l p j m, m.operators.length < m₁.operators.length) ∧
      m'.operators.length ≤ m.operators.length)
    ⟨fun ⟨h₁, h₂, h₃, h₄, h₅⟩ => ⟨h₁, h₂, h₃, h₄, h₅⟩,
      fun ⟨h₁, h₂, h₃, h₄, h₅⟩ => ⟨h₁, h₂, h₃, h₄, h₅⟩⟩

/-- A machine is behind the call that belongs to the `prepareCall` at which `m` is, with a result on
the stack of `m`. But for that, the globals and the count of steps it is `m`. -/
def Machine.CallDone (p : Program) (m m' : Machine) : Prop :=
  ∃ v k target, matchingCall? 0 (p.code.instrs.toList.drop (m.ip + 1)) = some k ∧
    p.code.get? (m.ip + 1 + k) = some (.call target) ∧
    m' = { m with
      stack := m.stack.push (.value v)
      ip := m.ip + 1 + k + 1
      globals := m'.globals
      steps := m'.steps }

section Isolation

variable {p : Program} {l : Limits} {m m' : Machine} {n : Nat} {plan : Plan p}
  {code rest : List Instr}

/-- What a machine holds, as the ground of what it does next. -/
def Machine.ground (m : Machine) : Ground := ⟨m.stack.toList, m.operators, m.base, m.calls⟩

theorem codeAt_of_drop {index : Nat} (h : p.code.instrs.toList.drop index = code ++ rest) :
    CodeAt p index code := by
  intro j i hi
  have hlt := (List.getElem?_eq_some_iff.mp hi).1
  show p.code.instrs[index + j]? = some i
  rw [← Array.getElem?_toList, ← List.getElem?_drop, h, List.getElem?_append_left hlt, hi]

theorem tick_prepareCall {m₁ : Machine} (hi : p.code.get? m.ip = some (.operator .prepareCall))
    (ht : tick l p m = .ok none m₁) :
    m₁ = { m with
      operators := .prepareCall :: m.operators
      ip := m.ip + 1
      steps := m.steps + 1 } := by
  obtain ⟨i, hi', hstep⟩ := tick_eq_ok ht
  obtain rfl := Option.some.inj (hi.symm.trans hi')
  cases hstep
  rfl

namespace CallCode

variable (h : CallCode plan.arity code)

include h

/-- The first tick of a call opens its region on what the machine holds. -/
theorem active {m₁ : Machine} (hi : p.code.get? m.ip = some (.operator .prepareCall))
    (ht : tick l p m = .ok none m₁) : Active plan (.ofCall plan.arity m.ip code) m.ground m₁ := by
  obtain rfl := tick_prepareCall hi ht
  refine ⟨_, _, ⟨0, 0, [.prepareCall]⟩, .root, ⟨1, Nat.one_pos, Nat.le_of_succ_le h.ends.1, rfl, ?_⟩,
    ⟨[], rfl, by simp [ground]⟩, rfl, rfl, rfl, rfl⟩
  obtain ⟨args, target, rfl, -⟩ := h
  rfl

/-- Where the region of a call is left, the call is done. -/
theorem done (hdrop : p.code.instrs.toList.drop m.ip = code ++ rest)
    (hactive : Active plan (.ofCall plan.arity m.ip code) m.ground m')
    (hpopped : m'.operators.length ≤ m.operators.length) : CallDone p m m' := by
  obtain ⟨R, g, X, hstacked, hX, hm⟩ := hactive
  have hlen : X.ops.length + g.ops.length ≤ m.ground.ops.length := by
    rw [← List.length_append, ← hm.operators]
    exact hpopped
  obtain ⟨rfl, rfl⟩ := hstacked.eq_root (Nat.le_trans (Nat.le_add_left _ _) hlen)
  obtain ⟨hip, rfl⟩ := h.at_end hX (List.eq_nil_of_length_eq_zero (by omega))
  obtain ⟨hlength, target, hlast⟩ := h.ends
  obtain ⟨vs, hvs, hstack⟩ := hm.stack
  obtain ⟨v, rfl⟩ := List.length_eq_one_iff.mp hvs
  refine ⟨v, code.length - 2, target, ?_, ?_, ?_⟩
  · rw [← List.drop_drop, hdrop]
    exact h.matchingCall? rest
  · have hindex : m.ip + 1 + (code.length - 2) = m.ip + (code.length - 1) := by omega
    rw [hindex]
    exact codeAt_of_drop hdrop _ _ hlast
  · have hindex : m'.ip = m.ip + 1 + (code.length - 2) + 1 := by omega
    have hpush : m'.stack = m.stack.push (.value v) := by
      rw [hstack, List.map_singleton, ground, ← Array.toList_push]
    have hoperators : m'.operators = m.operators := hm.operators
    have hbase : m'.base = m.base := hm.base
    have hcalls : m'.calls = m.calls := hm.calls
    simp only [← hindex, ← hpush, ← hoperators, ← hbase, ← hcalls]

/-- What takes the `prepareCall` of a call away is a return. -/
theorem ret_of_popped (hdrop : p.code.instrs.toList.drop m.ip = code ++ rest) {m₁ : Machine}
    (hactive : Active plan (.ofCall plan.arity m.ip code) m.ground m₁)
    (hwaits : m.operators.length < m₁.operators.length) (ht : tick l p m₁ = .ok none m')
    (hpopped : m'.operators.length ≤ m.operators.length) :
    ∃ params locals, p.code.get? m₁.ip = some (.ret params locals) := by
  have hcode := codeAt_of_drop hdrop
  refine (hactive.popped rfl (h.sound_region hcode) hwaits ht hpopped).resolve_right ?_
  rintro ⟨op, Y, hi, hY, hnil⟩
  -- the last instruction of a call is no operator
  obtain ⟨hend, -⟩ := h.at_end hY hnil
  obtain ⟨hlength, target, hlast⟩ := h.ends
  have hindex : m₁.ip = m.ip + (code.length - 1) := by omega
  rw [hindex, hcode _ _ hlast] at hi
  cases hi

end CallCode

/-- **A call that ends is done**, by a return, in every program whose calls are complete. -/
theorem Nested.callDone (plan : Plan p) (hnested : Nested plan.arity p.code.instrs.toList)
    (h : CallEnds l p m n m') :
    CallDone p m m' ∧ ∃ m₁ params locals, after? l p (n - 1) m = some m₁ ∧
      p.code.get? m₁.ip = some (.ret params locals) := by
  have hi : p.code.instrs.toList[m.ip]? = some (.operator .prepareCall) := by
    rw [Array.getElem?_toList]
    exact h.prepare
  obtain ⟨code, rest, hdrop, hcall⟩ := hnested.calls m.ip hi
  have hsound := hcall.sound_region (codeAt_of_drop hdrop)
  obtain ⟨n, rfl⟩ : ∃ k, n = k + 1 := ⟨n - 1, (Nat.sub_add_cancel h.pos).symm⟩
  obtain ⟨m₁, ht, hrun⟩ := after?_succ h.run
  have hactive := hcall.active h.prepare ht
  have hshift (k : Nat) : after? l p (k + 1) m = after? l p k m₁ := by rw [Machine.after?, ht]
  cases n with
  | zero =>
    -- right behind the `prepareCall` it waits
    cases hrun
    have hpopped := h.popped
    rw [tick_prepareCall h.prepare ht] at hpopped
    exact absurd hpopped (Nat.not_succ_le_self _)
  | succ n =>
    obtain ⟨m₂, hm₂, ht₂⟩ := after?_succ_last hrun
    have hactive₂ := hactive.after? rfl hsound (fun k m₃ hk hm₃ => h.waits (k + 1)
      (by omega) (Nat.succ_pos k) m₃ ((hshift k).trans hm₃)) hm₂
    have hwaits := h.waits (n + 1) (Nat.lt_succ_self _) (Nat.succ_pos n) m₂ ((hshift n).trans hm₂)
    refine ⟨hcall.done hdrop (hactive₂.tick rfl hsound hwaits ht₂) h.popped, m₂, ?_⟩
    obtain ⟨params, locals, hret⟩ := hcall.ret_of_popped hdrop hactive₂ hwaits ht₂ h.popped
    exact ⟨params, locals, (hshift n).trans hm₂, hret⟩

end Isolation

/-- **Call frames are isolated.** Let a machine of any state be at a `prepareCall` of a compiled
program. When the `prepareCall` is taken off again, that is done by a return. The machine is then
behind the matching call with one value more on its stack; the rest of the stack, the operators that
wait, the base and the active functions are what they were. However deep the callee recurses, only
globals can differ. -/
theorem compiled_call_isolated {settings : Settings} {source : String} {p : Program}
    (h : compile settings source = .ok p ∨ compileExpression settings source = .ok p)
    {l : Limits} {m m' : Machine} {n : Nat} (hends : CallEnds l p m n m') :
    CallDone p m m' ∧ ∃ m₁ params locals, after? l p (n - 1) m = some m₁ ∧
      p.code.get? m₁.ip = some (.ret params locals) := by
  rcases h with h | h
  · obtain ⟨s, hobeys, -, rfl⟩ := compile_eq_ok h
    exact Nested.callDone (s.plan hobeys.wellFormed) (s.nested_program hobeys.wellFormed) hends
  · obtain ⟨e, hwf, -, rfl⟩ := compileExpression_eq_ok h
    exact Nested.callDone e.plan (e.nested_program hwf) hends

/-- A sum by recursion, in the middle of a product. -/
def sumSource : String :=
  "function f(n) \x7b if (n > 0) \x7b return n + f(n - 1); \x7d return 0; \x7d return 2 * f(2);"

/-- Where the product is interrupted for the call, `2` and the product wait. The callee calls itself
twice, and after 48 ticks its result is on top of the `2`. -/
theorem compiled_call_isolated_recursion :
    ∃ p m m', compile .standard sumSource = .ok p ∧
      after? .standard p 3 (Machine.idle.start p) = some m ∧
      m.stack = #[.value (.int 2)] ∧ m.operators = [.mul] ∧ CallEnds .standard p m 48 m' ∧
      m'.stack = #[.value (.int 2), .value (.int 3)] ∧ CallDone p m m' := by
  have hrun : (compile .standard sumSource).toOption.any fun p =>
      (after? .standard p 3 (Machine.idle.start p)).any fun m =>
        (after? .standard p 48 m).any fun m' => decide (m.stack = #[.value (.int 2)] ∧
          m.operators = [.mul] ∧ CallEnds .standard p m 48 m' ∧
          m'.stack = #[.value (.int 2), .value (.int 3)]) := by
    decide +kernel
  obtain ⟨p, hp, hrun⟩ := (Option.any_eq_true _ _).mp hrun
  obtain ⟨m, hm, hrun⟩ := (Option.any_eq_true _ _).mp hrun
  obtain ⟨m', -, hrun⟩ := (Option.any_eq_true _ _).mp hrun
  obtain ⟨hstack, hoperators, hends, hstack'⟩ := of_decide_eq_true hrun
  have hcompiled : compile .standard sumSource = .ok p := by
    cases hc : compile .standard sumSource with
    | error d =>
      rw [hc] at hp
      cases hp
    | ok q =>
      rw [hc] at hp
      cases hp
      rfl
  exact ⟨p, m, m', hcompiled, hm, hstack, hoperators, hends, hstack',
    (compiled_call_isolated (.inl hcompiled) hends).1⟩

end StackScript
