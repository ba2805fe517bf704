import StackScript.Proofs.Simulation.Script

/-!
# Runs of generated programs

What a machine that follows an evaluation means for a run under limits. A run of the program of a
well-formed script or expression ends as the evaluation does unless a limit cuts it
(`Script.run?_cases`, `Expr.run?_cases`), so it fails only by what the script computes or by a limit.
Under sufficiently large limits it ends exactly if the evaluation has an answer, and with that answer
(`Script.run?_of_eval`, `Script.eval_of_run?`).
-/

namespace StackScript

namespace Machine

/-- The value of an ended run or the cause of its failure, and the globals. -/
def outcome (ended : Except Fault Value × Machine) : Except Cause Value × Array Value :=
  (ended.1.mapError (·.cause), ended.2.globals)

/-- An ended run was cut by a limit. -/
def WasCut (limits : Limits) (ended : Except Fault Value × Machine) : Prop :=
  ∃ f, ended.1 = .error f ∧ limits.Cuts f.cause

/-- The end of a run, with what its ticks end in. -/
def ended : EStateM.Result Fault Machine Value → Except Fault Value × Machine
  | .ok v m => (.ok v, m)
  | .error f m => (.error (f.within m.calls.toList), m)

/-- The last tick of a run. -/
def lastTick : EStateM.Result Fault Machine Value → EStateM.Result Fault Machine (Option Value)
  | .ok v m => .ok (some v) m
  | .error f m => .error f m

variable {p : Program} {limits : Limits} {m : Machine}

theorem cause_within (f : Fault) (calls : List String) : (f.within calls).cause = f.cause := by
  unfold Fault.within
  split <;> rfl

theorem outcome_ended_error (f : Fault) (m : Machine) :
    outcome (ended (.error f m)) = (.error f.cause, m.globals) := by
  rw [← cause_within f m.calls.toList]
  rfl

theorem run?_eq (h : p.check = .ok ()) (fuel : Nat) :
    m.run? limits p fuel = (runFor limits p fuel (m.start p)).map ended := by
  unfold run?
  rw [h]
  rfl

theorem runFor_lastTick {result : EStateM.Result Fault Machine Value}
    (h : tick limits p m = lastTick result) : runFor limits p 1 m = some result := by
  unfold runFor
  rw [h]
  cases result <;> rfl

/-- A run has one end, however many ticks it is given. -/
theorem runFor_unique {r r' : EStateM.Result Fault Machine Value} {fuel fuel' : Nat}
    (h : runFor limits p fuel m = some r) (h' : runFor limits p fuel' m = some r') : r = r' := by
  have hr := runFor_add limits p fuel fuel' m h
  have hr' := runFor_add limits p fuel' fuel m h'
  rw [Nat.add_comm, hr] at hr'
  exact Option.some.inj hr'

theorem wasCut_ended {f : Fault} {m' : Machine} (h : limits.Cuts f.cause) :
    WasCut limits (ended (.error f m')) :=
  ⟨_, rfl, by rwa [cause_within]⟩

/-- Runs that different limits cut fail by different causes. -/
theorem WasCut.causes_ne {bound : Nat} {result result' : Except Fault Value × Machine}
    (h : WasCut ⟨bound, bound, none⟩ result)
    (h' : WasCut ⟨bound + 1, bound + 1, none⟩ result') :
    result.1.mapError (·.cause) ≠ result'.1.mapError (·.cause) := by
  obtain ⟨f, hf, hc⟩ := h
  obtain ⟨f', hf', hc'⟩ := h'
  rw [hf, hf']
  intro heq
  have hcause : f.cause = f'.cause := Except.error.inj heq
  rw [hcause] at hc
  unfold Limits.Cuts at hc hc'
  split at hc <;> simp_all

/-- A run that no limit stops ends in a result. -/
def Ends (p : Program) (m : Machine) (result : EStateM.Result Fault Machine Value) : Prop :=
  ∃ k m₁, Steps p k m m₁ ∧ Next p m₁ (lastTick result)

/-- Under any limits a run ends as if no limit could stop it, or is cut. -/
theorem Ends.runFor {result : EStateM.Result Fault Machine Value} (h : Ends p m result)
    (limits : Limits) :
    ∃ fuel result', Machine.runFor limits p fuel m = some result' ∧
      (result' = result ∨ WasCut limits (ended result')) := by
  obtain ⟨k, m₁, hs, hlast⟩ := h
  rcases runFor_of_steps hs limits 1 with heq | ⟨f, m', hcut, hc⟩
  · rcases hlast.tick limits with ht | ⟨f, m', ht, hc⟩
    · exact ⟨k + 1, result, heq.trans (runFor_lastTick ht), Or.inl rfl⟩
    · exact ⟨k + 1, _, heq.trans (@runFor_lastTick _ _ _ (.error f m') ht),
        Or.inr (wasCut_ended hc)⟩
  · exact ⟨k + 1, _, hcut, Or.inr (wasCut_ended hc)⟩

/-- Under sufficiently large limits a run ends as if no limit could stop it. -/
theorem Ends.enough {result : EStateM.Result Fault Machine Value} (h : Ends p m result) :
    ∃ bound fuel : Nat, ∀ limits : Limits, bound ≤ limits.maxStack → bound ≤ limits.maxDepth →
      limits.maxSteps = none → Machine.runFor limits p fuel m = some result := by
  obtain ⟨k, m₁, hs, hlast⟩ := h
  obtain ⟨b₁, h₁⟩ := runFor_of_steps_enough hs
  obtain ⟨b₂, h₂⟩ := hlast.enough
  refine ⟨max b₁ b₂, k + 1, fun l hS hD hn => ?_⟩
  rw [h₁ l (by omega) (by omega) hn]
  exact runFor_lastTick (h₂ l (by omega) (by omega) hn)

end Machine

open Machine Activation

section Follows

variable {p : Program} {n : Nat} {m : Machine} {k : Names} {site : Site}
  {evaluation : Option (Except Cause Value × Store)}

/-- A run that follows an evaluation with an answer ends with that answer. -/
theorem Follows.ends {r : Except Cause Value} {s : Store}
    (h : Follows p n m (some (r, s)) (Returns p k site .top [])) :
    ∃ result, Ends p m result ∧ outcome (ended result) = (r, s.globals.values.toArray) ∧
      ∀ c, r = .error c → c.IsOwn := by
  cases r with
  | ok v =>
    obtain ⟨i, m₁, hs, ip, hi, -, t, rfl⟩ := h
    exact ⟨.ok v _, ⟨i, _, hs, next_finish hi⟩, rfl, fun c hc => by cases hc⟩
  | error c =>
    obtain ⟨i, m₁, hs, f, m₂, hnext, rfl, hown, hg⟩ := h
    refine ⟨.error f m₂, ⟨i, m₁, hs, hnext⟩, ?_, fun c hc => by cases hc; exact hown⟩
    rw [outcome_ended_error, hg]

/-- **A run that follows an evaluation ends like it or is cut**, and takes at least the given number
of ticks if the evaluation has no answer. -/
theorem Follows.run?_cases (hp : p.check = .ok ())
    (h : Follows p n (m.start p) evaluation (Returns p k site .top [])) {limits : Limits} {fuel : Nat}
    (hfuel : fuel ≤ n) {result : Except Fault Value × Machine}
    (hrun : m.run? limits p fuel = some result) :
    WasCut limits result ∨ ∃ r s, evaluation = some (r, s) ∧
      outcome result = (r, s.globals.values.toArray) ∧ ∀ c, r = .error c → c.IsOwn := by
  rw [run?_eq hp] at hrun
  obtain ⟨result, hticks, rfl⟩ := Option.map_eq_some_iff.mp hrun
  match evaluation, h with
  | none, ⟨m', hs⟩ =>
    rcases runFor_of_steps hs limits 0 with heq | ⟨f, m'', hcut, hc⟩
    · have hnone := runFor_add limits p fuel (n - fuel) _ hticks
      rw [Nat.add_sub_cancel' hfuel, ← Nat.add_zero n, heq] at hnone
      cases hnone
    · rw [runFor_unique hticks hcut]
      exact Or.inl (wasCut_ended hc)
  | some (r, s), h =>
    obtain ⟨result₀, hends, hout, hown⟩ := Follows.ends h
    obtain ⟨fuel', result', hrun', hcase⟩ := hends.runFor limits
    rw [runFor_unique hticks hrun']
    rcases hcase with rfl | hcut
    · exact Or.inr ⟨r, s, rfl, hout, hown⟩
    · exact Or.inl hcut

end Follows

namespace Script

variable {s : Script} {limits : Limits} {m : Machine} {fuel : Nat}
  {result : Except Fault Value × Machine}

/-- **A run of the program of a well-formed script ends like the evaluation of the script, or is
cut.** -/
theorem run?_cases (h : s.WellFormed) (hrun : m.run? limits s.program fuel = some result) :
    WasCut limits result ∨ s.eval fuel = some (outcome result) ∧
      ∀ f, result.1 = .error f → f.cause.IsOwn := by
  rcases (follows_evalBody h fuel m).run?_cases (check_program h) (Nat.le_refl _) hrun with
    hcut | ⟨r, store, heval, hout, hown⟩
  · exact Or.inl hcut
  · refine Or.inr ⟨?_, fun f hf => ?_⟩
    · rw [eval, heval, hout]
      rfl
    · have hr : r = result.1.mapError (·.cause) := (congrArg Prod.fst hout).symm
      exact hown f.cause (by rw [hr, hf]; rfl)

/-- What a script evaluates to is what its program gives under sufficiently large limits. -/
theorem run?_of_eval (h : s.WellFormed) {answer : Except Cause Value × Array Value}
    (heval : s.eval fuel = some answer) (m : Machine) :
    ∃ bound fuel : Nat, ∀ limits : Limits, bound ≤ limits.maxStack → bound ≤ limits.maxDepth →
      limits.maxSteps = none →
        ∃ result, m.run? limits s.program fuel = some result ∧ outcome result = answer := by
  obtain ⟨⟨r, store⟩, hbody, rfl⟩ := Option.map_eq_some_iff.mp heval
  have hfollows := follows_evalBody h fuel m
  rw [hbody] at hfollows
  obtain ⟨result, hends, hout, -⟩ := hfollows.ends
  obtain ⟨bound, ticks, hb⟩ := hends.enough
  refine ⟨bound, ticks, fun l hS hD hn => ⟨ended result, ?_, hout⟩⟩
  rw [run?_eq (check_program h), hb l hS hD hn]
  rfl

/-- **Execution preserves meaning.** A script evaluates to a value or a failure and leaves certain
globals exactly if its program, run without a bound on steps and under all sufficiently large limits
on the stack and the depth of calls, ends with that value or failure and those globals. -/
theorem eval_iff_run (h : s.WellFormed) (r : Except Cause Value) (globals : Array Value)
    (m : Machine) :
    (∃ fuel, s.eval fuel = some (r, globals)) ↔
      ∃ bound : Nat, ∀ limits : Limits, bound ≤ limits.maxStack → bound ≤ limits.maxDepth →
        limits.maxSteps = none → ∃ fuel result, m.run? limits s.program fuel = some result ∧
          result.1.mapError (·.cause) = r ∧ result.2.globals = globals := by
  constructor
  · rintro ⟨fuel, heval⟩
    obtain ⟨bound, ticks, hb⟩ := run?_of_eval h heval m
    refine ⟨bound, fun l hS hD hn => ?_⟩
    obtain ⟨result, hrun, hout⟩ := hb l hS hD hn
    exact ⟨ticks, result, hrun, congrArg Prod.fst hout, congrArg Prod.snd hout⟩
  · rintro ⟨bound, hb⟩
    -- a run that is cut reports the limit, so under two different limits one is not cut
    obtain ⟨fuel, result, hrun, hr, hg⟩ := hb ⟨bound, bound, none⟩ (Nat.le_refl _) (Nat.le_refl _) rfl
    rcases run?_cases h hrun with hcut | ⟨heval, -⟩
    · obtain ⟨fuel', result', hrun', hr', hg'⟩ := hb ⟨bound + 1, bound + 1, none⟩ (Nat.le_succ _)
        (Nat.le_succ _) rfl
      rcases run?_cases h hrun' with hcut' | ⟨heval, -⟩
      · exact absurd (hr.trans hr'.symm) (WasCut.causes_ne hcut hcut')
      · exact ⟨fuel', by rw [heval, outcome, hr', hg']⟩
    · exact ⟨fuel, by rw [heval, outcome, hr, hg]⟩

/-- Halves a global by a function whose parameter hides it until it is `0`, and divides by it. -/
def halving : Script where
  globals := ["n"]
  decls := [⟨"n", .global 0, some (.literal (.int 5))⟩]
  functions := [⟨"half", ["n"], [⟨"x", .frame 1, none⟩],
    [.assign "x" (.frame 1) (.binary .div (.var "n" (.frame 0)) (.literal (.int 2))),
      .ret (some (.var "x" (.frame 1)))]⟩]
  lateDecls := []
  body := [.whileDo (.binary .gt (.var "n" (.global 0)) (.literal (.int 0)))
      [.assign "n" (.global 0) (.call "half" 0 [.var "n" (.global 0)])],
    .ret (some (.binary .div (.literal (.int 10)) (.var "n" (.global 0))))]

theorem halving_wellFormed : halving.WellFormed where
  decls := by
    simp only [halving, Decl.AllWellFormed, Option.some.injEq, forall_eq', Expr.WellFormed]
    decide
  functions := by
    simp [halving, FunctionDef.AllWellFormed, FunctionDef.WellFormed, Decl.AllWellFormed,
      Stmt.AllWellFormed, Stmt.WellFormed, Expr.WellFormed]
    decide
  lateDecls := trivial
  body := by
    simp [halving, Stmt.AllWellFormed, Stmt.WellFormed, Expr.WellFormed, Expr.AllWellFormed]
    decide

/-- The division by zero at the end of `halving` is what its program fails by, with the global that
the loop left. -/
theorem halving_runs_as_it_evaluates :
    halving.WellFormed ∧
      ∃ bound : Nat, ∀ limits : Limits, bound ≤ limits.maxStack → bound ≤ limits.maxDepth →
        limits.maxSteps = none → ∃ fuel result,
          Machine.idle.run? limits halving.program fuel = some result ∧
            result.1.mapError (·.cause) = .error .divisionByZero ∧
              result.2.globals = #[.int 0] :=
  ⟨halving_wellFormed, (eval_iff_run halving_wellFormed _ _ _).mp ⟨10, rfl⟩⟩

end Script

/-- **A run of the program of a well-formed expression fails as its operators do, or is cut.** -/
theorem Expr.run?_cases {e : Expr} (h : e.WellFormed (.top [] [])) {limits : Limits} {m : Machine}
    {fuel : Nat} {result : Except Fault Value × Machine}
    (hrun : m.run? limits e.program fuel = some result) :
    WasCut limits result ∨ ∀ f, result.1 = .error f → f.cause.IsOwn := by
  rcases (e.follows_program h (fun _ _ => Eval.outOfFuel) fuel m).run?_cases (e.check_program h)
    (Nat.le_refl _) hrun with hcut | ⟨r, store, -, hout, hown⟩
  · exact Or.inl hcut
  · refine Or.inr fun f hf => ?_
    have hr : r = result.1.mapError (·.cause) := (congrArg Prod.fst hout).symm
    exact hown f.cause (by rw [hr, hf]; rfl)

end StackScript
