import Mathlib.Algebra.Ring.Nat
import StackScript.Proofs.Emission.Script
import StackScript.Proofs.Simulation.Run

/-!
# Compiled programs

What holds of every program that a source text gives, whatever the settings. It is the program of a
script that obeys the static rules or of a well-formed expression (`compile_eq_ok`,
`compileExpression_eq_ok`), hence:

* **`compiled_check`**: it passes the check, no jump of it is left open, and no text makes the
  compiler fail by a fault of its own;
* **`compiled_run_error`**: a run of it keeps the stack discipline: it fails only by what the script
  computes or by a limit.
-/

namespace StackScript

/-! ## What the compiler accepts -/

section Inversion

variable {α : Type} {x : Reader α} {Q : α → Reading → Prop} {f : α → Program}
  {settings : Settings} {source : String} {p : Program} {d : Diagnostic}

theorem Reader.Post.run_eq_ok (h : x.Post ⟨source.toList, ∅⟩ Q)
    (hrun : (x.run source).map f = .ok p) : ∃ a r, Q a r ∧ p = f a := by
  unfold Reader.Post at h
  unfold Reader.run at hrun
  split at hrun
  · rename_i a r hx
    rw [hx] at h
    exact ⟨a, r, h, (Except.ok.inj hrun).symm⟩
  · cases hrun

theorem Reader.Post.run_eq_error (h : x.Post ⟨source.toList, ∅⟩ Q)
    (hrun : (x.run source).map f = .error d) (reason : String) :
    d.complaint ≠ .internal reason := by
  unfold Reader.Post at h
  unfold Reader.run at hrun
  split at hrun
  · cases hrun
  · rename_i e r hx
    rw [hx] at h
    cases hrun
    exact h reason

/-- What is compiled is a script that obeys the static rules. -/
theorem compile_eq_ok (h : compile settings source = .ok p) :
    ∃ s : Script, s.Obeys settings Lexeme.IsName ∧ s.size ≤ source.toList.length + 4 ∧
      p = s.program := by
  rw [compile_eq] at h
  obtain ⟨s, r, ⟨hobeys, hsize, -⟩, hp⟩ := (Reader.Post.script settings source.toList).run_eq_ok h
  exact ⟨s, hobeys, hsize, hp⟩

/-- A text pays for the variables of each of its functions. -/
theorem compile_functions (h : compile settings source = .ok p) :
    ∃ s : Script, s.Obeys settings Lexeme.IsName ∧
      (∀ f ∈ s.functions, f.params.length + f.size ≤ source.toList.length) ∧ p = s.program := by
  rw [compile_eq] at h
  obtain ⟨s, r, ⟨hobeys, -, hfunctions⟩, hp⟩ :=
    (Reader.Post.script settings source.toList).run_eq_ok h
  exact ⟨s, hobeys, hfunctions, hp⟩

/-- What is compiled on its own is a well-formed expression. -/
theorem compileExpression_eq_ok (h : compileExpression settings source = .ok p) :
    ∃ e : Expr, e.WellFormed (.top [] []) ∧ e.size ≤ source.toList.length ∧ p = e.program := by
  rw [compileExpression_eq] at h
  obtain ⟨e, r, ⟨hwf, hsize, -⟩, hp⟩ :=
    (Reader.Post.wholeExpression settings source.toList).run_eq_ok h
  exact ⟨e, hwf, hsize, hp⟩

theorem compileExpression_depth (h : compileExpression settings source = .ok p) :
    ∃ e : Expr, e.WellFormed (.top [] []) ∧ e.depth ≤ settings.maxNesting ∧ p = e.program := by
  rw [compileExpression_eq] at h
  obtain ⟨e, r, ⟨hwf, -, hdepth⟩, hp⟩ :=
    (Reader.Post.wholeExpression settings source.toList).run_eq_ok h
  exact ⟨e, hwf, hdepth, hp⟩

end Inversion

/-! ## The check -/

/-- What the check of a program looks for. -/
structure Program.Closed (p : Program) : Prop where
  /-- The stream is not empty and ends in a return. -/
  ending : ∃ params locals, p.code.instrs.back? = some (.ret params locals)
  functions : ∀ f ∈ p.functions, f.entry < p.code.size
  jumps : ∀ i ∈ p.code.instrs, ∀ target, i.jumpTarget? = some target → target < p.code.size
  calls : ∀ target, .call target ∈ p.code.instrs → ∃ f ∈ p.functions, f.entry = target
  reads : ∀ slot, .getGlobal slot ∈ p.code.instrs → slot < p.globals.length
  writes : ∀ slot, .setGlobal slot ∈ p.code.instrs → slot < p.globals.length

theorem Program.check_eq_ok_iff_closed (p : Program) : p.check = .ok () ↔ p.Closed := by
  rw [check_eq_ok_iff]
  constructor
  · rintro ⟨hlast, hfunctions, hinstrs⟩
    have hnone : ∀ i ∈ p.code.instrs, p.instrViolation? i = none := fun i hi =>
      hinstrs i (Array.mem_toList_iff.mpr hi)
    refine ⟨hlast, hfunctions, fun i hi target htarget => ?_, fun target hi => ?_,
      fun slot hi => ?_, fun slot hi => ?_⟩
    · have := hnone i hi
      cases i <;> simp_all [instrViolation?, Instr.jumpTarget?]
    · simpa [instrViolation?, functionAt?] using hnone _ hi
    · simpa [instrViolation?] using hnone _ hi
    · simpa [instrViolation?] using hnone _ hi
  · intro h
    refine ⟨h.ending, h.functions, fun i hi => ?_⟩
    have hi := Array.mem_toList_iff.mp hi
    cases i with
    | jump target | jumpIfFalse target => simpa [instrViolation?] using h.jumps _ hi target rfl
    | call target => simpa [instrViolation?, functionAt?] using h.calls target hi
    | getGlobal slot => simpa [instrViolation?] using h.reads slot hi
    | setGlobal slot => simpa [instrViolation?] using h.writes slot hi
    | _ => rfl

/-- A program that is compiled from a text passes the check, and has at most four instructions more
than the text has characters. -/
theorem check_compiled {settings : Settings} {source : String} {p : Program}
    (h : compile settings source = .ok p ∨ compileExpression settings source = .ok p) :
    p.check = .ok () ∧ p.code.size ≤ source.toList.length + 4 := by
  rcases h with h | h
  · obtain ⟨s, hobeys, hsize, rfl⟩ := compile_eq_ok h
    exact ⟨s.check_program hobeys.wellFormed, s.size_program ▸ hsize⟩
  · obtain ⟨e, hwf, hsize, rfl⟩ := compileExpression_eq_ok h
    exact ⟨e.check_program hwf, by rw [e.size_program]; omega⟩

/-- **Compiled programs always pass the check.** No text of fewer than `2 ^ 31` bytes makes the
compiler fail by a fault of its own. What it gives is accepted by the check, so that everything its
instructions name is there, and no jump is left open. -/
theorem compiled_check (settings : Settings) (source : String)
    (hsource : utf8Length source.toList < 2 ^ 31) :
    (∀ d, compile settings source = .error d ∨ compileExpression settings source = .error d →
      ∀ reason, d.complaint ≠ .internal reason) ∧
    ∀ p, compile settings source = .ok p ∨ compileExpression settings source = .ok p →
      p.check = .ok () ∧ p.Closed ∧
        ∀ i ∈ p.code.instrs, i.jumpTarget? ≠ some Instr.unpatched := by
  constructor
  · rintro d (h | h)
    · rw [compile_eq] at h
      exact (Reader.Post.script settings source.toList).run_eq_error h
    · rw [compileExpression_eq] at h
      exact (Reader.Post.wholeExpression settings source.toList).run_eq_error h
  · intro p h
    obtain ⟨hcheck, hsize⟩ := check_compiled h
    have hclosed := p.check_eq_ok_iff_closed.mp hcheck
    refine ⟨hcheck, hclosed, fun i hi hopen => ?_⟩
    have hlt := hclosed.jumps i hi _ hopen
    have hlen := length_le_utf8Length source.toList
    have hunpatched : Instr.unpatched = 18446744073709551615 := rfl
    omega

/-- A function that calls itself and a global that only an assignment declares. -/
theorem compiled_check_recursion :
    utf8Length "function f(n) \x7b return f(n - 1); \x7d g = f(3);".toList < 2 ^ 31 ∧
      ∃ p, compile ⟨false, 8⟩ "function f(n) \x7b return f(n - 1); \x7d g = f(3);" = .ok p ∧
        p.check = .ok () ∧ p.Closed := by
  have hsource : utf8Length "function f(n) \x7b return f(n - 1); \x7d g = f(3);".toList < 2 ^ 31 := by
    decide +kernel
  have hok : (compile ⟨false, 8⟩ "function f(n) \x7b return f(n - 1); \x7d g = f(3);").isOk := by
    decide +kernel
  cases hp : compile ⟨false, 8⟩ "function f(n) \x7b return f(n - 1); \x7d g = f(3);" with
  | error d =>
    rw [hp] at hok
    cases hok
  | ok p =>
    obtain ⟨hcheck, hclosed, -⟩ := (compiled_check _ _ hsource).2 p (.inl hp)
    exact ⟨hsource, p, rfl, hcheck, hclosed⟩

/-! ## Runs -/

/-- **Compiled code keeps the stack discipline.** A run of a compiled program, under any limits and
on any machine, never fails by a defect, a failed check or a value of the wrong type. It fails only
by what the script computes (incompatible operands, a division by zero, an overflow or a condition
that is no bool) or because it exceeds a limit. -/
theorem compiled_run_error {settings : Settings} {source : String} {p : Program}
    (h : compile settings source = .ok p ∨ compileExpression settings source = .ok p)
    {limits : Limits} {m m' : Machine} {fuel : Nat} {f : Fault}
    (hrun : m.run? limits p fuel = some (.error f, m')) :
    (∀ d, f.cause ≠ .defect d) ∧ (∀ reason, f.cause ≠ .invalidProgram reason) ∧
      (∀ expected found, f.cause ≠ .typeMismatch expected found) ∧
        (f.cause.IsOwn ∨ limits.Cuts f.cause) := by
  have hcause : f.cause.IsOwn ∨ limits.Cuts f.cause := by
    rcases h with h | h
    · obtain ⟨s, hobeys, -, rfl⟩ := compile_eq_ok h
      rcases Script.run?_cases hobeys.wellFormed hrun with ⟨_, ⟨⟩, hcut⟩ | ⟨-, hown⟩
      · exact .inr hcut
      · exact .inl (hown f rfl)
    · obtain ⟨e, hwf, -, rfl⟩ := compileExpression_eq_ok h
      rcases Expr.run?_cases hwf hrun with ⟨_, ⟨⟩, hcut⟩ | hown
      · exact .inr hcut
      · exact .inl (hown f rfl)
  refine ⟨fun d hd => ?_, fun reason hr => ?_, fun expected found ht => ?_, hcause⟩
  · rw [hd] at hcause
    exact hcause.elim id id
  · rw [hr] at hcause
    exact hcause.elim id id
  · rw [ht] at hcause
    exact hcause.elim id id

/-- An endless recursion ends by the limit on the depth of calls. -/
theorem compiled_run_error_recursion :
    ∃ p f m', compile .standard "function f(n) \x7b return f(n); \x7d return f(3);" = .ok p ∧
      Machine.idle.run? ⟨100, 8, none⟩ p 100 = some (.error f, m') ∧
        (f.cause.IsOwn ∨ Limits.Cuts ⟨100, 8, none⟩ f.cause) := by
  have hfails : ((compile .standard "function f(n) \x7b return f(n); \x7d return f(3);").toOption.bind
      fun p => Machine.idle.run? ⟨100, 8, none⟩ p 100).any (fun ended => !ended.1.isOk) := by
    decide +kernel
  cases hp : compile .standard "function f(n) \x7b return f(n); \x7d return f(3);" with
  | error d =>
    rw [hp] at hfails
    cases hfails
  | ok p =>
    rw [hp, Except.toOption, Option.bind_some] at hfails
    match hrun : Machine.idle.run? ⟨100, 8, none⟩ p 100, hfails with
    | some (.error f, m'), _ =>
      exact ⟨p, f, m', rfl, hrun, (compiled_run_error (.inl hp) hrun).2.2.2⟩

end StackScript
