import StackScript.Proofs.Machine.Cutoff

/-!
# Sessions on one machine

A machine can be asked to run one program after another, and to forget what it ran. Each request is
answered by a `Report`: the result of the run, and the steps and globals that can be read off the
machine afterwards. Whatever a run leaves behind when it fails, such as half a frame, waiting
operators or active functions, nothing of it comes to the next one, which starts afresh
(`run?_of_check`). Only a program that does not pass the check is not started at all, and then the
machine stays as it is (`run?_of_check_error`).

* **`Machine.session_isolated`**: in any session each checked program reports what it reports on a
  new machine, and each program that is refused leaves steps and globals as they were.
-/

namespace StackScript

/-- What can be asked of a machine. -/
inductive Request where
  | run (p : Program)
  | reset

/-- What can be seen after a request: the result, if it was a run, and the steps and globals of the
machine. -/
structure Report where
  result : Option (Except Fault Value)
  steps : Nat
  globals : Array Value
  deriving DecidableEq

namespace Machine

/-- The report of a machine that has come to a result. -/
def report (m : Machine) (result : Option (Except Fault Value)) : Report :=
  ⟨result, m.steps, m.globals⟩

section Session

variable (l : Limits) (fuel : Nat)

/-- Answers a request. Nothing is said about a run that takes more than `fuel` ticks. -/
def serve? (m : Machine) : Request → Option (Report × Machine)
  | .reset => some (m.reset.report none, m.reset)
  | .run p => (m.run? l p fuel).map fun r => (r.2.report (some r.1), r.2)

/-- Answers requests one after another on the same machine. -/
def session? : List Request → Machine → Option (List Report)
  | [], _ => some []
  | request :: rest, m => do
    let (report, m) ← m.serve? l fuel request
    return report :: (← session? rest m)

end Session

variable {l : Limits} {fuel : Nat} {m : Machine} {p : Program}

/-- A checked program runs on every machine as on a new one. -/
theorem run?_of_check (h : p.check = .ok ()) : m.run? l p fuel = idle.run? l p fuel := by
  rw [run?_eq h, run?_eq h]
  rfl

/-- A program that does not pass the check leaves the machine as it is. -/
theorem run?_of_check_error {e : CheckError} (h : p.check = .error e) :
    m.run? l p fuel = some (.error (.ofCause (.invalidProgram e.text)), m) := by
  unfold run?
  rw [h]

end Machine

/-- What a request shows by itself after `last` was to be seen: a checked program shows what it
shows on a new machine, and one that is refused leaves steps and globals as they were. -/
def Request.alone? (l : Limits) (fuel : Nat) (last : Report) : Request → Option Report
  | .reset => some ⟨none, 0, #[]⟩
  | .run p =>
    match p.check with
    | .ok () => (Machine.idle.run? l p fuel).map fun r => r.2.report (some r.1)
    | .error e => some ⟨some (.error (.ofCause (.invalidProgram e.text))), last.steps, last.globals⟩

namespace Request

variable {l : Limits} {fuel : Nat} {last : Report} {p : Program}

theorem alone?_run (h : p.check = .ok ()) :
    (run p).alone? l fuel last =
      (Machine.idle.run? l p fuel).map fun r => r.2.report (some r.1) := by
  simp only [alone?, h]

theorem alone?_run_error {e : CheckError} (h : p.check = .error e) :
    (run p).alone? l fuel last =
      some ⟨some (.error (.ofCause (.invalidProgram e.text))), last.steps, last.globals⟩ := by
  simp only [alone?, h]

end Request

namespace Machine

variable {l : Limits} {fuel : Nat} {m : Machine}

/-- **A machine answers a request as if it stood alone**, and what it shows is what can be read off
the machine afterwards. -/
theorem serve?_eq (l : Limits) (fuel : Nat) (m : Machine) (request : Request)
    (before : Option (Except Fault Value)) :
    (m.serve? l fuel request).map (·.1) = request.alone? l fuel (m.report before) ∧
      ∀ report m', m.serve? l fuel request = some (report, m') →
        report = m'.report report.result := by
  cases request with
  | reset =>
    refine ⟨rfl, fun report m' h => ?_⟩
    obtain ⟨rfl, rfl⟩ := Prod.mk.inj (Option.some.inj h)
    rfl
  | run p =>
    refine ⟨?_, fun report m' h => ?_⟩
    · unfold serve?
      rw [Option.map_map]
      cases hp : p.check with
      | ok u =>
        rw [Request.alone?_run hp, run?_of_check hp]
        rfl
      | error e =>
        rw [Request.alone?_run_error hp, run?_of_check_error hp]
        rfl
    · obtain ⟨r, -, hr⟩ := Option.map_eq_some_iff.mp h
      obtain ⟨rfl, rfl⟩ := Prod.mk.inj hr
      rfl

theorem session?_cons (request : Request) (rest : List Request) {reports : List Report}
    (h : m.session? l fuel (request :: rest) = some reports) :
    ∃ report m' others, m.serve? l fuel request = some (report, m') ∧
      m'.session? l fuel rest = some others ∧ reports = report :: others := by
  obtain ⟨⟨report, m'⟩, hserve, hrest⟩ := Option.bind_eq_some_iff.mp h
  obtain ⟨others, hothers, heq⟩ := Option.bind_eq_some_iff.mp hrest
  exact ⟨report, m', others, hserve, hothers, (Option.some.inj heq).symm⟩

/-- Each report of a session follows from its request and the report before it. -/
theorem alone?_of_session? {requests : List Request} {reports : List Report}
    (h : m.session? l fuel requests = some reports) (before : Option (Except Fault Value))
    {k : Nat} {request : Request} (hk : requests[k]? = some request) :
    ∃ last report, (m.report before :: reports)[k]? = some last ∧ reports[k]? = some report ∧
      request.alone? l fuel last = some report := by
  induction requests generalizing m reports before k with
  | nil => exact nomatch hk
  | cons first rest ih =>
    obtain ⟨report, m', others, hserve, hothers, rfl⟩ := session?_cons first rest h
    obtain ⟨halone, hreport⟩ := serve?_eq l fuel m first before
    cases k with
    | zero =>
      obtain rfl := Option.some.inj hk
      refine ⟨m.report before, report, rfl, rfl, ?_⟩
      rw [← halone, hserve]
      rfl
    | succ k =>
      -- the machine after the first request shows what was reported of it
      obtain ⟨last, report', hlast, hreport', hnext⟩ := ih hothers report.result hk
      rw [← hreport report m' hserve] at hlast
      exact ⟨last, report', hlast, hreport', hnext⟩

theorem length_of_session? {requests : List Request} {reports : List Report}
    (h : m.session? l fuel requests = some reports) : reports.length = requests.length := by
  induction requests generalizing m reports with
  | nil =>
    obtain rfl := Option.some.inj h
    rfl
  | cons first rest ih =>
    obtain ⟨report, m', others, -, hothers, rfl⟩ := session?_cons first rest h
    rw [List.length_cons, List.length_cons, ih hothers]

/-- A session comes to its end if all checked programs do so on a new machine. -/
theorem exists_session? {requests : List Request}
    (h : ∀ p, .run p ∈ requests → p.check = .ok () → ∃ ended, idle.run? l p fuel = some ended) :
    ∃ reports, m.session? l fuel requests = some reports := by
  induction requests generalizing m with
  | nil => exact ⟨[], rfl⟩
  | cons first rest ih =>
    have halone : ∃ report, first.alone? l fuel (m.report none) = some report := by
      cases first with
      | reset => exact ⟨_, rfl⟩
      | run p =>
        cases hp : p.check with
        | ok u =>
          obtain ⟨ended, hended⟩ := h p List.mem_cons_self hp
          rw [Request.alone?_run hp, hended]
          exact ⟨_, rfl⟩
        | error e => exact ⟨_, Request.alone?_run_error hp⟩
    obtain ⟨report, hreport⟩ := halone
    rw [← (serve?_eq l fuel m first none).1] at hreport
    obtain ⟨served, hserve, -⟩ := Option.map_eq_some_iff.mp hreport
    obtain ⟨others, hothers⟩ := ih (m := served.2) fun p hp => h p (List.mem_cons_of_mem first hp)
    refine ⟨served.1 :: others, ?_⟩
    unfold session?
    rw [hserve]
    show (session? l fuel rest served.2 >>= fun reports => some (served.1 :: reports)) = _
    rw [hothers]
    rfl

/-- **Runs on one machine do not leak into each other.** A session of runs and resets on any machine
comes to its end exactly if each of its checked programs ends on a new machine. Each checked program
then reports the same value or fault, steps and globals as on a new machine under the same limits.
Each program that does not pass the check reports its refusal, and steps and globals are those of
the report before it, or at first those of the machine. A reset leaves no steps and no globals. -/
theorem session_isolated (l : Limits) (fuel : Nat) (requests : List Request) (m : Machine) :
    ((∃ reports, m.session? l fuel requests = some reports) ↔
        ∀ p, .run p ∈ requests → p.check = .ok () →
          ∃ ended, idle.run? l p fuel = some ended) ∧
      ∀ reports, m.session? l fuel requests = some reports →
        reports.length = requests.length ∧
        ∀ k : Nat,
          (∀ p, requests[k]? = some (.run p) → p.check = .ok () →
            ∃ ended, idle.run? l p fuel = some ended ∧
              reports[k]? = some ⟨some ended.1, ended.2.steps, ended.2.globals⟩) ∧
          (∀ p e, requests[k]? = some (.run p) → p.check = .error e →
            ∃ last, (m.report none :: reports)[k]? = some last ∧
              reports[k]? = some ⟨some (.error (.ofCause (.invalidProgram e.text))),
                last.steps, last.globals⟩) ∧
          (requests[k]? = some .reset → reports[k]? = some ⟨none, 0, #[]⟩) := by
  have hchecked (reports : List Report) (h : m.session? l fuel requests = some reports) (k : Nat)
      (p : Program) (hk : requests[k]? = some (.run p)) (hp : p.check = .ok ()) :
      ∃ ended, idle.run? l p fuel = some ended ∧
        reports[k]? = some ⟨some ended.1, ended.2.steps, ended.2.globals⟩ := by
    obtain ⟨last, report, -, hreport, halone⟩ := alone?_of_session? h none hk
    rw [Request.alone?_run hp] at halone
    obtain ⟨ended, hended, rfl⟩ := Option.map_eq_some_iff.mp halone
    exact ⟨ended, hended, hreport⟩
  refine ⟨⟨?_, exists_session?⟩, fun reports h => ⟨length_of_session? h, fun k =>
    ⟨hchecked reports h k, fun p e hk hp => ?_, fun hk => ?_⟩⟩⟩
  · rintro ⟨reports, h⟩ p hmem hp
    obtain ⟨k, hk⟩ := List.mem_iff_getElem?.mp hmem
    obtain ⟨ended, hended, -⟩ := hchecked reports h k p hk hp
    exact ⟨ended, hended⟩
  · obtain ⟨last, report, hlast, hreport, halone⟩ := alone?_of_session? h none hk
    rw [Request.alone?_run_error hp] at halone
    exact ⟨last, hlast, halone ▸ hreport⟩
  · obtain ⟨last, report, -, hreport, halone⟩ := alone?_of_session? h none hk
    exact hreport.trans halone.symm

end Machine

/-- Jumps out of its code. -/
def Program.astray : Program where
  code := ⟨#[.push (.int 1), .jump 9, .ret 0 0]⟩
  globals := []
  functions := []

/-- `division` fails in the middle of a call and `spin` at the limit on steps, with a global
written; neither shows in what comes after it. -/
theorem Machine.session_isolated_failures :
    ∃ reports e, idle.session? ⟨10, 10, some 8⟩ 20
        [.run .division, .run .astray, .run .spin, .reset, .run .division] = some reports ∧
      Program.astray.check = .error e ∧
      (∃ last, reports[0]? = some last ∧
        reports[1]? = some ⟨some (.error (.ofCause (.invalidProgram e.text))),
          last.steps, last.globals⟩) ∧
      reports[3]? = some ⟨none, 0, #[]⟩ ∧
      ∃ ended, idle.run? ⟨10, 10, some 8⟩ .division 20 = some ended ∧
        reports[4]? = some ⟨some ended.1, ended.2.steps, ended.2.globals⟩ := by
  have hdivision : Program.division.check = .ok () := by decide
  have hastray : Program.astray.check.isOk = false := by decide
  have hends : (idle.session? ⟨10, 10, some 8⟩ 20
      [.run .division, .run .astray, .run .spin, .reset, .run .division]).isSome := by decide +kernel
  obtain ⟨reports, hreports⟩ := Option.isSome_iff_exists.mp hends
  have hk := ((session_isolated _ _ _ _).2 reports hreports).2
  cases he : Program.astray.check with
  | ok u =>
    rw [he] at hastray
    cases hastray
  | error e =>
    exact ⟨reports, e, hreports, rfl, (hk 1).2.1 .astray e rfl he, (hk 3).2.2 rfl,
      (hk 4).1 .division rfl hdivision⟩

end StackScript
