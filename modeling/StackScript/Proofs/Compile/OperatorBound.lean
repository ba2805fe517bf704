import StackScript.Proofs.Compile.Places
import StackScript.Proofs.Script.Waiting

/-!
# A bound for the operators of compiled code

The limits of a machine bound its stack and its calls, but not the operators that wait. In a run of a
compiled program they are bounded all the same, by the nesting that the compiler allows: a frame has
at most seven for each level, and one (`compiled_tidy`), and every active call has one frame.

* **`compiled_operators_bounded`**: the bound holds in all machines of every run.
-/

namespace StackScript

/-- Code is tidy if all of it is in place and functions begin where nothing waits. -/
theorem Program.Tidy.of_leads {p : Program} {n : Nat} {ops : List Operator} (hp : p.Closed)
    (h : Leads n p.Rests [] p.code.instrs.toList ops)
    (hentries : ∀ f ∈ p.functions, p.Rests f.entry) : p.Tidy n where
  suits {index i} hi := (h.take index).2 i (by rwa [Array.getElem?_toList])
  calls {index target} hi := by
    obtain ⟨f, hf, rfl⟩ := hp.calls target (Array.mem_of_getElem? hi)
    exact hentries f hf
  bound index := (h.take index).1

/-! ## The end of a run -/

namespace Machine

variable {l : Limits} {p : Program} {m₀ m m' : Machine}

/-- What fails leaves no operators that did not wait before. -/
theorem FailsNext.operators_suffix {cause : Cause} (h : FailsNext l p m cause m') :
    m'.operators <:+ m.operators := by
  obtain ⟨i, -, hstep | ⟨bound, -, -, rfl⟩⟩ := h
  · exact Exec.operators_of_step_error (m := { m with ip := m.ip + 1, steps := m.steps + 1 }) hstep
  · exact List.suffix_refl _

/-- Nothing waits at the end of a run that gives a value. -/
theorem operators_of_run?_ok {fuel : Nat} {v : Value} (hp : p.check = .ok ())
    (h : m₀.run? l p fuel = some (.ok v, m')) : m'.operators = [] := by
  rw [run?_eq hp] at h
  obtain ⟨result, hrun, hended⟩ := Option.map_eq_some_iff.mp h
  obtain ⟨n, m, -, hlast⟩ := runFor_eq_some hrun
  cases result with
  | error f m₂ => cases hended
  | ok w m₂ =>
    obtain rfl : m₂ = m' := congrArg Prod.snd hended
    obtain ⟨i, -, hstep⟩ := tick_eq_ok hlast
    exact Exec.operators_of_step_value hstep

end Machine

/-! ## Compiled programs -/

section Compiled

variable {settings : Settings} {source : String} {p : Program} {l : Limits} {m₀ m m' : Machine}
  (h : compile settings source = .ok p ∨ compileExpression settings source = .ok p)

include h

/-- **Compiled programs are tidy.** -/
theorem compiled_tidy : p.Tidy (7 * settings.maxNesting + 1) := by
  have hclosed := p.check_eq_ok_iff_closed.mp (check_compiled h).1
  rcases h with h | h
  · obtain ⟨s, hobeys, -, rfl⟩ := compile_eq_ok h
    have hdepth := hobeys.nesting
    obtain ⟨hleads, hentries⟩ :=
      Script.leads_program (n := 7 * settings.maxNesting + 1) hobeys.wellFormed (by omega)
    exact .of_leads hclosed hleads hentries
  · obtain ⟨e, hwf, hdepth, rfl⟩ := compileExpression_depth h
    exact .of_leads hclosed (Expr.leads_program hwf (by omega)) nofun

/-- Between two instructions each frame has its share. -/
theorem compiled_operators_after? {n : Nat} (hn : Machine.after? l p n (m₀.start p) = some m) :
    m.operators.length ≤ (m.calls.size + 1) * (7 * settings.maxNesting + 1) := by
  have htidy := compiled_tidy h
  have htraced : m.Traced p := .after? (compiled_contained h) hn
  have hreturns : m.calls.size = (returnsOn m.stack).length := by
    rw [← htraced.length_eq, List.length_reverse, Array.length_toList]
  have hawaits : m.Awaits p (7 * settings.maxNesting + 1) := .after? htidy hn
  rw [hreturns]
  exact hawaits.length_operators htidy

/-- At the end of a run as well: nothing waits if it gives a value, and an instruction that fails adds
neither operators nor calls. -/
theorem compiled_operators_run? {fuel : Nat} {result : Except Fault Value}
    (hrun : m₀.run? l p fuel = some (result, m')) :
    m'.operators = [] ∨ ∃ n m, Machine.after? l p n (m₀.start p) = some m ∧
      m'.operators <:+ m.operators ∧ m'.calls = m.calls := by
  have hcheck := (check_compiled h).1
  cases result with
  | ok v => exact .inl (Machine.operators_of_run?_ok hcheck hrun)
  | error f =>
    obtain ⟨n, m, hn, -, -, hfails⟩ := Machine.run?_eq_error hcheck hrun
    have hordered : m.Ordered l p := .after? hcheck hn
    exact .inr ⟨n, m, hn, hfails.operators_suffix, hfails.calls_eq hordered.held.stack_le⟩

end Compiled

/-- **The operators of compiled code are bounded by nesting and calls.** Between two instructions of a
run of a compiled program and at the end of the run, whatever the limits, at most `7 * n + 1` operators
wait for each active call and as many outside all calls, where `n` is the nesting that the settings
allow. Calls are limited, so there is a bound for the whole run. -/
theorem compiled_operators_bounded {settings : Settings} {source : String} {p : Program}
    (h : compile settings source = .ok p ∨ compileExpression settings source = .ok p)
    (l : Limits) (m₀ m : Machine)
    (hm : (∃ n, Machine.after? l p n (m₀.start p) = some m) ∨
      ∃ fuel result, m₀.run? l p fuel = some (result, m)) :
    m.operators.length ≤ (m.calls.size + 1) * (7 * settings.maxNesting + 1) ∧
      m.operators.length ≤ (l.maxDepth + 1) * (7 * settings.maxNesting + 1) := by
  have hbetween {n : Nat} {m : Machine} (hn : Machine.after? l p n (m₀.start p) = some m) :
      m.operators.length ≤ (m.calls.size + 1) * (7 * settings.maxNesting + 1) ∧
        m.operators.length ≤ (l.maxDepth + 1) * (7 * settings.maxNesting + 1) := by
    have hshare := compiled_operators_after? h hn
    have hordered : m.Ordered l p := .after? (check_compiled h).1 hn
    have hcalls : m.calls.size + 1 ≤ l.maxDepth + 1 := Nat.succ_le_succ hordered.held.calls_le
    exact ⟨hshare, Nat.le_trans hshare (Nat.mul_le_mul_right _ hcalls)⟩
  rcases hm with ⟨n, hn⟩ | ⟨fuel, result, hrun⟩
  · exact hbetween hn
  · rcases compiled_operators_run? h hrun with hnone | ⟨n, m₁, hn, hsuffix, hcalls⟩
    · rw [hnone]
      exact ⟨Nat.zero_le _, Nat.zero_le _⟩
    · obtain ⟨hshare, hlimit⟩ := hbetween hn
      rw [hcalls]
      exact ⟨Nat.le_trans hsuffix.length_le hshare, Nat.le_trans hsuffix.length_le hlimit⟩

/-- One level, with an operator of each priority and a call before and behind them, that calls itself
without end. -/
def greedySource : String :=
  "function g(x) \x7b return x; \x7d" ++
    "function f() \x7b g(0 || 0 && 0 < 0 + 0 * -f()); \x7d" ++
      "g(0 || 0 && 0 < 0 + 0 * -f());"

/-- The bound is reached: eight operators wait in each of three frames when the calls reach their
limit. -/
theorem compiled_operators_bounded_greedy :
    ∃ p result m, compile ⟨true, 1⟩ greedySource = .ok p ∧
      Machine.idle.run? ⟨100, 2, none⟩ p 100 = some (result, m) ∧
        m.operators.length = (m.calls.size + 1) * (7 * 1 + 1) ∧
          m.operators.length = (2 + 1) * (7 * 1 + 1) ∧
            m.operators.length ≤ (m.calls.size + 1) * (7 * 1 + 1) ∧
              m.operators.length ≤ (2 + 1) * (7 * 1 + 1) := by
  have hreached : (compile ⟨true, 1⟩ greedySource).toOption.any fun p =>
      (Machine.idle.run? ⟨100, 2, none⟩ p 100).any fun ended => decide
        (ended.2.operators.length = (ended.2.calls.size + 1) * (7 * 1 + 1) ∧
          ended.2.operators.length = (2 + 1) * (7 * 1 + 1)) := by
    decide +kernel
  obtain ⟨p, hp, hreached⟩ := (Option.any_eq_true _ _).mp hreached
  obtain ⟨⟨result, m⟩, hrun, hreached⟩ := (Option.any_eq_true _ _).mp hreached
  obtain ⟨hshare, hlimit⟩ := of_decide_eq_true hreached
  have hcompiled : compile ⟨true, 1⟩ greedySource = .ok p := by
    cases hc : compile ⟨true, 1⟩ greedySource with
    | error d =>
      rw [hc] at hp
      cases hp
    | ok q =>
      rw [hc] at hp
      exact congrArg _ (Option.some.inj hp)
  exact ⟨p, result, m, hcompiled, hrun, hshare, hlimit,
    compiled_operators_bounded (.inl hcompiled) _ _ m (.inr ⟨_, result, hrun⟩)⟩

end StackScript
