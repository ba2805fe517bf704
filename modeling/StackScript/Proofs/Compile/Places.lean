import StackScript.Proofs.Compile.Tables
import StackScript.Proofs.Machine.Trail

/-!
# Places of failures

A failed run of a compiled program reports the instruction that failed and the functions that were
active. Control in a compiled program leaves a region by calls and returns only
(`compiled_contained`), so the two agree: the instruction lies in the body of the innermost active
function, or in top-level code if none is active.

* **`compiled_fault_place`**: the place in the report of every failed run is right.
-/

namespace StackScript

/-! ## Control in compiled programs -/

/-- In a program without functions all code is top-level code. -/
theorem Program.Closed.contained {p : Program} (hp : p.Closed) (hnone : p.functions = []) :
    p.Contained := by
  have hbody (k index : Nat) : ¬ p.InBody k index := by
    rintro ⟨f, hf, -⟩
    rw [hnone] at hf
    cases hf
  have hregion {region : Option Nat} {index index' : Nat} (h : p.InRegion region index)
      (hlt : index' < p.code.size) : p.InRegion region index' := by
    cases region with
    | none => exact ⟨hlt, fun k => hbody k index'⟩
    | some k => exact absurd h (hbody k index)
  refine ⟨⟨?_, fun k => hbody k 0⟩, ?_, ?_, ?_⟩
  · obtain ⟨params, locals, hlast⟩ := hp.ending
    exact Array.size_pos_of_mem (Array.mem_of_back? hlast)
  · intro region index i hin hi _ hret
    exact hregion hin (hp.succ_lt hi hret)
  · intro region index target i hin hi ht
    exact hregion hin (hp.jumps i (Array.mem_of_getElem? hi) target ht)
  · intro index target hi
    obtain ⟨f, hf, -⟩ := hp.calls target (Array.mem_of_getElem? hi)
    rw [hnone] at hf
    cases hf

/-- **Control in the program of a script leaves a region by calls and returns only.** -/
theorem Script.contained {s : Script} (h : s.WellFormed) : s.program.Contained where
  start := (topLevel_iff h).mpr
    ⟨Nat.lt_of_le_of_lt (Nat.zero_le _) s.mainStart_lt_size, .inl (Nat.succ_pos _)⟩
  next hin hi := next_stays h hin hi
  jump hin hi ht := jump_stays h hin hi ht
  call := by
    intro index target hi
    have hclosed := s.program.check_eq_ok_iff_closed.mp (s.check_program h)
    obtain ⟨f, hf, hentry⟩ := hclosed.calls target (Array.mem_of_getElem? hi)
    have hnodup : (s.program.functions.map (·.entry)).Nodup := s.map_entry_functions ▸ s.nodup_entries
    have hfound : s.program.functionAt? target = some f :=
      (find?_entry_eq_some_iff hnodup).mpr ⟨hf, hentry⟩
    obtain ⟨k, hk⟩ := List.getElem?_of_mem hf
    refine ⟨k, f, hk, ?_, hentry ▸ entry_inBody h hk⟩
    rw [Exec.callName, hfound]

/-- The program of an expression jumps nowhere. -/
theorem Expr.program_no_jump {e : Expr} (he : e.WellFormed (.top [] [])) {index : Nat} {i : Instr}
    (hi : e.program.code.get? index = some i) : i.jumpTarget? = none := by
  have hmem : i ∈ e.closedCode (.top []) ++ [.ret 0 0] := by
    simpa [Expr.program, Code.ofList] using Array.mem_of_getElem? hi
  rcases List.mem_append.mp hmem with hcode | hret
  · exact Instr.jumpTarget?_eq_none fun _ _ => Expr.closedCode_belongs (Nat.zero_le _) he i hcode
  · rw [List.mem_singleton.mp hret]
    rfl

theorem Program.eq_of_name_eq {p : Program} (h : (p.functions.map (·.name)).Nodup) {j k : Nat}
    {f g : FunctionEntry} (hf : p.functions[j]? = some f) (hg : p.functions[k]? = some g)
    (heq : f.name = g.name) : j = k := by
  have hj : (p.functions.map (·.name))[j]? = some f.name := by rw [List.getElem?_map, hf]; rfl
  have hk : (p.functions.map (·.name))[k]? = some g.name := by rw [List.getElem?_map, hg]; rfl
  exact (List.getElem?_inj (List.getElem?_eq_some_iff.mp hj).1 h).mp (hj.trans (heq ▸ hk.symm))

section Compiled

variable {settings : Settings} {source : String} {p : Program}
  (h : compile settings source = .ok p ∨ compileExpression settings source = .ok p)

include h

theorem compiled_contained : p.Contained := by
  rcases h with h | h
  · obtain ⟨s, hobeys, -, rfl⟩ := compile_eq_ok h
    exact Script.contained hobeys.wellFormed
  · have hclosed := p.check_eq_ok_iff_closed.mp (check_compiled (.inr h)).1
    obtain ⟨e, -, -, rfl⟩ := compileExpression_eq_ok h
    exact hclosed.contained rfl

theorem compiled_nodup_names : (p.functions.map (·.name)).Nodup := by
  rcases h with h | h
  · obtain ⟨s, hobeys, -, rfl⟩ := compile_eq_ok h
    rw [s.map_name_functions]
    exact hobeys.nodup_functions
  · obtain ⟨e, -, -, rfl⟩ := compileExpression_eq_ok h
    exact List.nodup_nil

/-- In top-level code only the jump over the functions starts before them. -/
theorem compiled_topLevel_jump {index target : Nat} {i : Instr} (hin : p.TopLevel index)
    (hi : p.code.get? index = some i) (ht : i.jumpTarget? = some target) :
    p.skip? = some (index, target) ∨ (p.bodiesEnd ≤ index ∧ p.bodiesEnd ≤ target) := by
  rcases h with h | h
  · obtain ⟨s, hobeys, -, rfl⟩ := compile_eq_ok h
    have hwf := hobeys.wellFormed
    rw [Script.skip?_program hwf, Script.bodiesEnd_program hwf]
    rcases Script.topLevel_jump hwf hin hi ht with ⟨rfl, rfl⟩ | ⟨hindex, htarget, -⟩
    · exact .inl rfl
    · exact .inr ⟨hindex, htarget⟩
  · obtain ⟨e, hwf, -, rfl⟩ := compileExpression_eq_ok h
    rw [Expr.program_no_jump hwf hi] at ht
    cases ht

end Compiled

/-! ## Reports -/

namespace Machine

variable {l : Limits} {p : Program} {m m' : Machine} {f : Fault}

/-- A run ends with a cause at the next instruction of a machine: the instruction fails, or it is not
executed, for the limit on steps is reached. -/
def FailsNext (l : Limits) (p : Program) (m : Machine) (cause : Cause) (m' : Machine) : Prop :=
  ∃ i, p.code.get? m.ip = some i ∧
    (Exec.step l p i { m with ip := m.ip + 1, steps := m.steps + 1 } = .error cause m' ∨
      ∃ bound, l.maxSteps = some bound ∧ cause = .stepLimitExceeded bound ∧
        m' = { m with steps := m.steps + 1 })

/-- A tick that fails records its instruction. -/
theorem tick_error_place (hip : m.ip < p.code.size) (h : tick l p m = .error f m') :
    f = ⟨f.cause, some m.ip, []⟩ ∧ FailsNext l p m f.cause m' := by
  have hi : p.code.get? m.ip = some p.code.instrs[m.ip] := Array.getElem?_eq_getElem hip
  rcases tick_error_cases h with ⟨bound, hbound, rfl, hm'⟩ | ⟨hnone, -⟩ | ⟨i, hi, hf, hstep⟩
  · exact ⟨rfl, _, hi, .inr ⟨bound, hbound, rfl, hm'⟩⟩
  · rw [hi] at hnone
    cases hnone
  · exact ⟨hf, i, hi, .inl hstep⟩

/-- What fails leaves the active functions. -/
theorem FailsNext.calls_eq {cause : Cause} (h : FailsNext l p m cause m')
    (hsize : m.stack.size ≤ l.maxStack) : m'.calls = m.calls := by
  obtain ⟨i, -, hstep | ⟨bound, -, -, rfl⟩⟩ := h
  · exact Exec.calls_of_step_error (m := { m with ip := m.ip + 1, steps := m.steps + 1 }) hsize hstep
  · rfl

/-- A failed run of a checked program reports the place and the active functions of the machine before
the instruction that failed. -/
theorem run?_eq_error {m₀ : Machine} {fuel : Nat} (hp : p.check = .ok ())
    (h : m₀.run? l p fuel = some (.error f, m')) :
    ∃ n m, after? l p n (m₀.start p) = some m ∧ m.ip < p.code.size ∧
      f = ⟨f.cause, some m.ip, m.calls.toList⟩ ∧ FailsNext l p m f.cause m' := by
  rw [run?_eq hp] at h
  obtain ⟨result, hrun, hended⟩ := Option.map_eq_some_iff.mp h
  obtain ⟨n, m, hn, hlast⟩ := runFor_eq_some hrun
  have hordered : m.Ordered l p := .after? hp hn
  cases result with
  | ok v m₂ => cases hended
  | error g m₂ =>
    obtain ⟨hg, hfails⟩ := tick_error_place hordered.ip_lt hlast
    have hcalls := hfails.calls_eq hordered.held.stack_le
    obtain rfl : m₂ = m' := congrArg Prod.snd hended
    obtain rfl : g.within m₂.calls.toList = f := Except.error.inj (congrArg Prod.fst hended)
    rw [cause_within]
    refine ⟨n, m, hn, hordered.ip_lt, ?_, hfails⟩
    rw [hg, ← hcalls]
    rfl

end Machine

/-- **The place in the report of a failure is right.** When a run of a compiled program fails, the
report names the instruction that failed, or that was next when the limit on steps was reached. It
lies in top-level code if no function was active, and else in the body of the function that is named
last among the active ones. In every compiled program jumps stay in the region that they are in, and
apart from the one that skips the functions those of top-level code stay behind them. -/
theorem compiled_fault_place {settings : Settings} {source : String} {p : Program}
    (h : compile settings source = .ok p ∨ compileExpression settings source = .ok p) :
    (∀ (l : Limits) (m₀ m' : Machine) (fuel : Nat) (f : Fault),
      m₀.run? l p fuel = some (.error f, m') →
        ∃ n m, Machine.after? l p n (m₀.start p) = some m ∧ Machine.FailsNext l p m f.cause m' ∧
          f.index = some m.ip ∧ m.ip < p.code.size ∧ (f.calls = [] → p.TopLevel m.ip) ∧
            ∀ name, f.calls.getLast? = some name → ∃ k g, p.functions[k]? = some g ∧
              g.name = name ∧ p.InBody k m.ip ∧
                ∀ j g', p.functions[j]? = some g' → g'.name = name → j = k) ∧
      ∀ region index target i, p.InRegion region index → p.code.get? index = some i →
        i.jumpTarget? = some target → p.InRegion region target ∧
          (region = none → p.skip? = some (index, target) ∨
            (p.bodiesEnd ≤ index ∧ p.bodiesEnd ≤ target)) := by
  have hcontained := compiled_contained h
  have hnames := compiled_nodup_names h
  constructor
  · intro l m₀ m' fuel f hrun
    obtain ⟨n, m, hn, hip, hf, hfails⟩ := Machine.run?_eq_error (check_compiled h).1 hrun
    have htraced : m.Traced p := Machine.Traced.after? hcontained hn
    have hcalls : f.calls = m.calls.toList := congrArg Fault.calls hf
    refine ⟨n, m, hn, hfails, congrArg Fault.index hf, hip, ?_, ?_⟩
    · intro hnone
      exact htraced.topLevel (hcalls ▸ hnone)
    · intro name hname
      obtain ⟨k, g, hg, rfl, hin⟩ := htraced.inBody (hcalls ▸ hname)
      exact ⟨k, g, hg, rfl, hin, fun j g' hg' heq => Program.eq_of_name_eq hnames hg' hg heq⟩
  · intro region index target i hin hi ht
    refine ⟨hcontained.jump hin hi ht, ?_⟩
    rintro rfl
    exact compiled_topLevel_jump h hin hi ht

/-- A division by zero two calls deep. -/
def nestedDivisionText : String :=
  "function inner(n) \x7b return 6 / n; \x7d " ++
  "function outer(n) \x7b return inner(n - 1); \x7d return outer(1);"

theorem compiled_fault_place_nested :
    ∃ p f m', compile .standard nestedDivisionText = .ok p ∧
      Machine.idle.run? ⟨100, 8, none⟩ p 100 = some (.error f, m') ∧ f.calls = ["outer", "inner"] ∧
        ∃ index k g, f.index = some index ∧ p.functions[k]? = some g ∧ g.name = "inner" ∧
          p.InBody k index := by
  have hfails : ((compile .standard nestedDivisionText).toOption.bind
      fun p => Machine.idle.run? ⟨100, 8, none⟩ p 100).any fun
        | (.error f, _) => f.calls = ["outer", "inner"]
        | _ => false := by
    decide +kernel
  cases hp : compile .standard nestedDivisionText with
  | error d =>
    rw [hp] at hfails
    cases hfails
  | ok p =>
    rw [hp, Except.toOption, Option.bind_some] at hfails
    obtain ⟨⟨f | v, m'⟩, hrun, hcalls⟩ := (Option.any_eq_true _ _).mp hfails
    · have hcalls : f.calls = ["outer", "inner"] := of_decide_eq_true hcalls
      obtain ⟨n, m, -, -, hindex, -, -, hbody⟩ :=
        (compiled_fault_place (.inl hp)).1 _ _ _ _ _ hrun
      obtain ⟨k, g, hg, hname, hin, -⟩ := hbody "inner" (by rw [hcalls]; rfl)
      exact ⟨p, f, m', rfl, hrun, hcalls, m.ip, k, g, hindex, hg, hname, hin⟩
    · cases hcalls

end StackScript
