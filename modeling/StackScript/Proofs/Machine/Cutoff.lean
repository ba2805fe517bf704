import StackScript.Proofs.Machine.Links
import StackScript.Proofs.Machine.Untouched

/-!
# Where limits cut a run

Two runs of one program under different limits go on in lockstep until one of them is cut. An
instruction looks at the limits on the stack and the depth of calls only to fail, and it does not see
the limit on steps at all, which is checked between instructions.

* **`Machine.limits_transparent`**: more room on the stack and for calls changes nothing about a run
  that did not end for want of room.
* **`Machine.step_limit_exact`**: a run with a limit on steps always ends. It is the run without that
  limit if this ends in time, and otherwise stops right before the first instruction beyond the limit.
-/

namespace StackScript

/-- The causes by which a run ends for want of room on the stack or for calls. -/
def Cause.IsWantOfRoom : Cause → Prop
  | .stackOverflow _ | .callDepthExceeded _ => True
  | _ => False

namespace Exec

variable {l l' : Limits}

/-- An instruction does not see the limit on steps. -/
theorem step_maxSteps (l : Limits) (bound : Option Nat) (p : Program) (i : Instr) :
    step { l with maxSteps := bound } p i = step l p i := by
  cases i <;> rfl

/-- With more room an instruction does the same, unless it fails for want of room. -/
theorem step_of_room (hstack : l.maxStack ≤ l'.maxStack) (hdepth : l.maxDepth ≤ l'.maxDepth)
    (p : Program) (i : Instr) (m : Machine) :
    step l p i m = step l' p i m ∨ ∃ c m', step l p i m = .error c m' ∧ c.IsWantOfRoom := by
  have hbelow : Limits.Below { l with maxSteps := none } { l' with maxSteps := none } :=
    ⟨hstack, hdepth, .inl rfl⟩
  have hcut := cutBy_step hbelow p i m
  simp only [step_maxSteps] at hcut
  rcases hcut with heq | ⟨c, m', herror, hc⟩
  · exact .inl heq
  · refine .inr ⟨c, m', herror, ?_⟩
    cases c with
    | stackOverflow n => trivial
    | callDepthExceeded n => trivial
    | stepLimitExceeded n => cases hc
    | _ => exact hc

end Exec

namespace Machine

variable {l l' : Limits} {p : Program} {m m' : Machine}

/-- Ticks that check the same bound on steps differ only as the instruction at hand does. -/
theorem tick_congr (hbound : exceeded? l (m.steps + 1) = exceeded? l' (m.steps + 1))
    (hstep : ∀ i, p.code.get? m.ip = some i →
      Exec.step l p i { m with ip := m.ip + 1, steps := m.steps + 1 } =
        Exec.step l' p i { m with ip := m.ip + 1, steps := m.steps + 1 }) :
    tick l p m = tick l' p m := by
  simp only [tick, hbound]
  cases exceeded? l' (m.steps + 1) with
  | some bound => rfl
  | none =>
    cases hi : p.code.get? m.ip with
    | none => rfl
    | some i => simp only [hstep i hi]

/-! ## Room -/

section Room

variable (hsteps : l.maxSteps = l'.maxSteps) (hstack : l.maxStack ≤ l'.maxStack)
  (hdepth : l.maxDepth ≤ l'.maxDepth)

include hsteps hstack hdepth

/-- With more room a tick does the same, unless it fails for want of room. -/
theorem tick_of_room (m : Machine) :
    tick l p m = tick l' p m ∨ ∃ f m', tick l p m = .error f m' ∧ f.cause.IsWantOfRoom := by
  have hbound : exceeded? l (m.steps + 1) = exceeded? l' (m.steps + 1) := by
    simp only [exceeded?, hsteps]
  by_cases hsame : ∀ i, p.code.get? m.ip = some i →
      Exec.step l p i { m with ip := m.ip + 1, steps := m.steps + 1 } =
        Exec.step l' p i { m with ip := m.ip + 1, steps := m.steps + 1 }
  · exact .inl (tick_congr hbound hsame)
  · simp only [not_forall] at hsame
    obtain ⟨i, hi, hne⟩ := hsame
    obtain ⟨c, m', herror, hc⟩ := (Exec.step_of_room hstack hdepth p i _).resolve_left hne
    cases hover : exceeded? l (m.steps + 1) with
    | some bound =>
      -- a tick that is cut by the bound on steps does not come to the instruction
      refine .inl ?_
      simp only [tick, ← hbound, hover]
    | none =>
      refine .inr ⟨(Fault.ofCause c).locate m.ip, m', ?_, hc⟩
      simp only [tick, hover, hi, herror]

/-- With more room a run ends in the same way, unless it ended for want of room. -/
theorem runFor_of_room {fuel : Nat} {result : EStateM.Result Fault Machine Value}
    (h : runFor l p fuel m = some result)
    (hresult : ∀ f m', result = .error f m' → ¬ f.cause.IsWantOfRoom) :
    runFor l' p fuel m = some result := by
  induction fuel generalizing m with
  | zero => cases h
  | succ fuel ih =>
    unfold runFor at h ⊢
    rcases tick_of_room hsteps hstack hdepth m with heq | ⟨f, m', herror, hc⟩
    · rw [← heq]
      cases ht : tick l p m with
      | ok r m₁ =>
        rw [ht] at h
        cases r with
        | none => exact ih h
        | some v => exact h
      | error f m₁ =>
        rw [ht] at h
        exact h
    · rw [herror] at h
      cases h
      exact absurd hc (hresult f m' rfl)

end Room

/-- **The limits on the stack and on calls are transparent.** If a checked program ends under some
limits, with a value or by any fault but for want of room, then under limits that allow at least as
much on the stack and as many calls, and the same number of steps, it ends after as many ticks with
the same value or the same fault and leaves the same machine, whatever the machines ran before. -/
theorem limits_transparent (hp : p.check = .ok ()) (hsteps : l.maxSteps = l'.maxSteps)
    (hstack : l.maxStack ≤ l'.maxStack) (hdepth : l.maxDepth ≤ l'.maxDepth) {fuel : Nat}
    {result : Except Fault Value × Machine} (hrun : m.run? l p fuel = some result)
    (hroom : ∀ f, result.1 = .error f → ¬ f.cause.IsWantOfRoom) (m' : Machine) :
    m'.run? l' p fuel = some result := by
  rw [run?_eq hp] at hrun ⊢
  obtain ⟨r, hr, rfl⟩ := Option.map_eq_some_iff.mp hrun
  have hresult : ∀ f m₁, r = .error f m₁ → ¬ f.cause.IsWantOfRoom := by
    rintro f m₁ rfl
    have hcause := hroom _ rfl
    rwa [cause_within] at hcause
  have hsame : m'.start p = m.start p := rfl
  rw [hsame, runFor_of_room hsteps hstack hdepth hr hresult]
  rfl

end Machine

/-- Divides the argument of a function by zero. -/
def Program.division : Program where
  code := ⟨#[.operator .prepareCall, .push (.int 7), .call 4, .ret 0 0,
    .getLocal 2, .operator .div, .push (.int 0), .endOfExpression, .ret 1 0]⟩
  globals := []
  functions := [⟨"f", 4, 1, 0⟩]

/-- The division fails inside the call alike where the stack is full and one call the most, and where
there is room left. -/
theorem Machine.limits_transparent_division :
    Program.division.check = .ok () ∧
      ∃ f m, idle.run? ⟨5, 1, none⟩ Program.division 20 = some (.error f, m) ∧
        f = ⟨.divisionByZero, some 7, ["f"]⟩ ∧ m.steps = 7 ∧
        idle.run? ⟨100, 50, none⟩ Program.division 20 = some (.error f, m) := by
  have hcheck : Program.division.check = .ok () := by decide
  have hends : (idle.run? ⟨5, 1, none⟩ Program.division 20).map (fun r => (r.1, r.2.steps)) =
      some (.error ⟨.divisionByZero, some 7, ["f"]⟩, 7) := by decide +kernel
  obtain ⟨⟨r, m⟩, hrun, hr⟩ := Option.map_eq_some_iff.mp hends
  obtain ⟨rfl, hsteps⟩ := Prod.mk.inj hr
  have hbound : (⟨5, 1, none⟩ : Limits).maxSteps = (⟨100, 50, none⟩ : Limits).maxSteps := rfl
  refine ⟨hcheck, _, m, hrun, rfl, hsteps, ?_⟩
  refine limits_transparent hcheck hbound (by decide) (by decide) hrun ?_ idle
  rintro f ⟨⟩
  exact id

namespace Machine

variable {l l' : Limits} {p : Program} {m m' : Machine}

/-! ## Steps -/

theorem steps_of_after? {n : Nat} (h : after? l p n m = some m') : m'.steps = m.steps + n := by
  induction n generalizing m with
  | zero =>
    cases h
    rfl
  | succ n ih =>
    obtain ⟨m₁, ht, hrest⟩ := after?_succ h
    rw [ih hrest, steps_of_tick_ok ht]
    omega

/-- Ticks that do not end a run come before the rest of it. -/
theorem runFor_of_after? {n : Nat} (h : after? l p n m = some m') (fuel : Nat) :
    runFor l p (n + fuel) m = runFor l p fuel m' := by
  induction n generalizing m with
  | zero =>
    cases h
    rw [Nat.zero_add]
  | succ n ih =>
    obtain ⟨m₁, ht, hrest⟩ := after?_succ h
    rw [Nat.add_right_comm, runFor, ht]
    exact ih hrest

/-- A run that has not ended is still going on. -/
theorem exists_after?_of_runFor {n : Nat} (h : runFor l p n m = none) :
    ∃ m', after? l p n m = some m' := by
  induction n generalizing m with
  | zero => exact ⟨m, rfl⟩
  | succ n ih =>
    unfold runFor at h
    unfold after?
    cases ht : tick l p m with
    | ok r m₁ =>
      rw [ht] at h
      cases r with
      | none => exact ih h
      | some v => cases h
    | error f m₁ =>
      rw [ht] at h
      cases h

/-- The machine that an ended run leaves. -/
def left : EStateM.Result Fault Machine Value → Machine
  | .ok _ m => m
  | .error _ m => m

/-- A run counts its steps: it ends with the tick that its count tells. -/
theorem runFor_steps {fuel : Nat} {result : EStateM.Result Fault Machine Value}
    (h : runFor l p fuel m = some result) :
    ∃ n ≤ fuel, (left result).steps = m.steps + n ∧ runFor l p n m = some result := by
  obtain ⟨n, m₁, hn, ht⟩ := runFor_eq_some h
  refine ⟨n + 1, ?_, ?_, ?_⟩
  · -- otherwise the run goes on for more ticks than it is given
    by_contra hlt
    obtain ⟨j, rfl⟩ : ∃ j, n = fuel + j := ⟨n - fuel, by omega⟩
    rw [after?_add] at hn
    obtain ⟨m₂, hm₂, -⟩ := Option.bind_eq_some_iff.mp hn
    have hnone := runFor_of_after? hm₂ 0
    rw [Nat.add_zero, h] at hnone
    cases hnone
  · rw [← Nat.add_assoc, ← steps_of_after? hn]
    cases result with
    | ok v m₂ => exact steps_of_tick_ok ht
    | error f m₂ => exact steps_of_tick_error ht
  · rw [runFor_of_after? hn]
    exact runFor_lastTick ht

section Bound

variable {k : Nat}

theorem exceeded?_some_of_le {steps : Nat} (h : steps ≤ k) :
    exceeded? { l with maxSteps := some k } steps = none := by
  simp [exceeded?, h]

/-- Up to the bound a tick is what it is without the bound. -/
theorem tick_of_lt_bound (h : m.steps < k) :
    tick { l with maxSteps := some k } p m = tick { l with maxSteps := none } p m := by
  refine tick_congr ?_ fun i _ => ?_
  · rw [exceeded?_some_of_le h]
    rfl
  · simp only [Exec.step_maxSteps]

/-- At the bound a tick fails before it executes anything. -/
theorem tick_at_bound (h : m.steps = k) :
    tick { l with maxSteps := some k } p m =
      .error ⟨.stepLimitExceeded k, some m.ip, []⟩ { m with steps := k + 1 } := by
  have hover : exceeded? { l with maxSteps := some k } (m.steps + 1) = some k := by
    simp [exceeded?, h]
  simp only [tick, hover]
  rw [h]
  rfl

/-- Runs with and without a bound agree for as many ticks as the bound allows. -/
theorem runFor_of_le_bound {n : Nat} (h : m.steps + n ≤ k) :
    runFor { l with maxSteps := some k } p n m = runFor { l with maxSteps := none } p n m ∧
      after? { l with maxSteps := some k } p n m = after? { l with maxSteps := none } p n m := by
  induction n generalizing m with
  | zero => exact ⟨rfl, rfl⟩
  | succ n ih =>
    unfold runFor after?
    rw [tick_of_lt_bound (by omega)]
    cases ht : tick { l with maxSteps := none } p m with
    | error f m₁ => exact ⟨rfl, rfl⟩
    | ok r m₁ =>
      cases r with
      | some v => exact ⟨rfl, rfl⟩
      | none =>
        have hcount := steps_of_tick_ok ht
        exact ih (by omega)

end Bound

section Exact

variable {k : Nat} {result : Except Fault Value × Machine}

theorem left_eq (r : EStateM.Result Fault Machine Value) : left r = (ended r).2 := by
  cases r <;> rfl

/-- A run that takes no more steps than the bound allows ends as it does without the bound. -/
theorem run?_of_steps_le (hp : p.check = .ok ()) {fuel : Nat}
    (hrun : m.run? { l with maxSteps := none } p fuel = some result) (hle : result.2.steps ≤ k) :
    m.run? { l with maxSteps := some k } p (k + 1) = some result := by
  rw [run?_eq hp] at hrun ⊢
  obtain ⟨r, hr, rfl⟩ := Option.map_eq_some_iff.mp hrun
  obtain ⟨n, -, hcount, hn⟩ := runFor_steps hr
  have hstart : (m.start p).steps = 0 := rfl
  rw [← left_eq, hcount, hstart] at hle
  rw [← (runFor_of_le_bound (k := k) (by omega)).1] at hn
  have hmore := runFor_add _ p n (k + 1 - n) _ hn
  rw [Nat.add_sub_cancel' (by omega)] at hmore
  rw [hmore]
  rfl

/-- A run that takes more steps than the bound allows, or does not end, is stopped at the bound. -/
theorem run?_of_steps_gt (hp : p.check = .ok ())
    (hlong : ∀ fuel result, m.run? { l with maxSteps := none } p fuel = some result →
      k < result.2.steps) :
    ∃ m₁, after? { l with maxSteps := none } p k (m.start p) = some m₁ ∧ m₁.ip < p.code.size ∧
      m.run? { l with maxSteps := some k } p (k + 1) =
        some (.error ⟨.stepLimitExceeded k, some m₁.ip, m₁.calls.toList⟩,
          { m₁ with steps := k + 1 }) := by
  have hstart : (m.start p).steps = 0 := rfl
  have hgoing : runFor { l with maxSteps := none } p k (m.start p) = none := by
    refine Option.eq_none_iff_forall_ne_some.mpr fun r hr => ?_
    have hover := hlong k (ended r) (by rw [run?_eq hp, hr]; rfl)
    obtain ⟨n, hn, hcount, -⟩ := runFor_steps hr
    rw [← left_eq, hcount, hstart] at hover
    omega
  obtain ⟨m₁, hm₁⟩ := exists_after?_of_runFor hgoing
  have hcount : m₁.steps = k := by
    rw [steps_of_after? hm₁, hstart, Nat.zero_add]
  have hle : (m.start p).steps + k ≤ k := by omega
  have hbounded := (runFor_of_le_bound (l := l) (p := p) hle).2.trans hm₁
  refine ⟨m₁, hm₁, (Ordered.after? hp hm₁).ip_lt, ?_⟩
  rw [run?_eq hp, runFor_of_after? hbounded, runFor, tick_at_bound hcount]
  rfl

/-- **The limit on steps is exact.** With at most `k` steps every run of a checked program ends. If
the run without that limit ends within `k` steps, both end alike, with the same machine. If it takes
more than `k` steps or does not end, it can be followed for `k` ticks to a machine `m₁`, and the run
with the limit fails right there: it names the next instruction and the active functions of `m₁`, and
differs from `m₁` only in that it has counted one step more. -/
theorem step_limit_exact (hp : p.check = .ok ()) (l : Limits) (k : Nat) (m : Machine) :
    (∃ result, m.run? { l with maxSteps := some k } p (k + 1) = some result) ∧
      (∀ fuel result, m.run? { l with maxSteps := none } p fuel = some result →
        result.2.steps ≤ k → m.run? { l with maxSteps := some k } p (k + 1) = some result) ∧
      ((∀ fuel result, m.run? { l with maxSteps := none } p fuel = some result →
          k < result.2.steps) →
        ∃ m₁, after? { l with maxSteps := none } p k (m.start p) = some m₁ ∧
          m₁.ip < p.code.size ∧
          m.run? { l with maxSteps := some k } p (k + 1) =
            some (.error ⟨.stepLimitExceeded k, some m₁.ip, m₁.calls.toList⟩,
              { m₁ with steps := k + 1 })) := by
  refine ⟨?_, fun fuel result hrun hle => run?_of_steps_le hp hrun hle, run?_of_steps_gt hp⟩
  by_cases hends : ∃ fuel result, m.run? { l with maxSteps := none } p fuel = some result ∧
      result.2.steps ≤ k
  · obtain ⟨fuel, result, hrun, hle⟩ := hends
    exact ⟨result, run?_of_steps_le hp hrun hle⟩
  · obtain ⟨m₁, -, -, hrun⟩ := run?_of_steps_gt hp fun fuel result hrun =>
      Nat.lt_of_not_le fun hle => hends ⟨fuel, result, hrun, hle⟩
    exact ⟨_, hrun⟩

end Exact

end Machine

/-- Writes a global without end. -/
def Program.spin : Program where
  code := ⟨#[.push (.int 1), .setGlobal 0, .jump 0, .ret 0 0]⟩
  globals := ["n"]
  functions := []

/-- After five steps `spin` is about to jump back, its global written. -/
theorem Machine.step_limit_exact_spin :
    Program.spin.check = .ok () ∧
      ∃ m₁, after? ⟨10, 10, none⟩ Program.spin 5 (idle.start Program.spin) = some m₁ ∧
        m₁.ip = 2 ∧ m₁.globals = #[.int 1] ∧
        idle.run? ⟨10, 10, some 5⟩ Program.spin 6 =
          some (.error ⟨.stepLimitExceeded 5, some m₁.ip, m₁.calls.toList⟩,
            { m₁ with steps := 6 }) := by
  have hcheck : Program.spin.check = .ok () := by decide
  have hplace : (after? ⟨10, 10, none⟩ Program.spin 5 (idle.start Program.spin)).map
      (fun m₁ => (m₁.ip, m₁.globals)) = some (2, #[.int 1]) := by decide +kernel
  have hcount : (idle.run? ⟨10, 10, some 5⟩ Program.spin 6).map (·.2.steps) = some 6 := by decide +kernel
  obtain ⟨-, hshort, hlong⟩ := step_limit_exact hcheck ⟨10, 10, none⟩ 5 idle
  obtain ⟨m₁, hm₁, -, hrun⟩ := hlong fun fuel result hrun => by
    by_contra hle
    rw [hshort fuel result hrun (Nat.le_of_not_lt hle)] at hcount
    have hsix : result.2.steps = 6 := Option.some.inj hcount
    omega
  rw [hm₁] at hplace
  obtain ⟨hip, hglobals⟩ := Prod.mk.inj (Option.some.inj hplace)
  exact ⟨hcheck, m₁, hm₁, hip, hglobals, hrun⟩

end StackScript
