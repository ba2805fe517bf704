import StackScript.Proofs.Machine.Frames
import StackScript.Proofs.Machine.Trail

/-!
# Waiting operators

No limit bounds the operators that wait on a machine. In code whose jumps are made where nothing waits
(`Program.Tidy`) the operators that wait in a frame can be read off the code: they are those that its
instructions leave when they are gone through in order (`Program.waitingAt`). A call then waits below
its own `prepareCall`, until the return takes this away, and what waits on the machine is what waits in
the current frame and behind each return address on the stack:

* `Machine.Awaits.after?`: that holds in all machines of a run.

An instruction that fails leaves no operators that did not wait before it
(`Exec.operators_of_step_error`), and nothing waits at the end of a program
(`Exec.operators_of_step_value`).
-/

namespace StackScript

/-- The operators that wait once an operator has come in. -/
def Operator.taken (op : Operator) (ops : List Operator) : List Operator :=
  match op with
  | .openParen | .prepareCall | .not | .neg | .pos => op :: ops
  | .closeParen => (ops.dropWhile (!·.isBarrier)).tail
  | .endOfExpression => ops.dropWhile (Exec.yieldsTo op)
  | _ => op :: ops.dropWhile (Exec.yieldsTo op)

namespace Instr

/-- The operators of a frame that wait behind an instruction: behind a call, when it has returned. -/
def waiting (ops : List Operator) : Instr → List Operator
  | .operator op => op.taken ops
  | .call _ => ops.tail
  | _ => ops

/-- An instruction is in place where `ops` wait: nothing waits where it jumps or returns, a call has
its `prepareCall` and a closing parenthesis the one that it closes. -/
def Suits (rests : Nat → Prop) (ops : List Operator) : Instr → Prop
  | .jump target | .jumpIfFalse target => ops = [] ∧ rests target
  | .ret _ _ => ops = []
  | .call _ => ops.head? = some .prepareCall
  | .operator .closeParen => (ops.dropWhile (!·.isBarrier)).head? = some .openParen
  | _ => True

end Instr

namespace Program

/-- The operators of a frame that wait at an index. -/
def waitingAt (p : Program) (index : Nat) : List Operator :=
  (p.code.instrs.toList.take index).foldl Instr.waiting []

/-- Nothing waits at an index. -/
def Rests (p : Program) (index : Nat) : Prop := p.waitingAt index = []

/-- The operators that wait in the frames of callers, by where they go on. -/
def waitingBelow (p : Program) (returns : List Nat) : List Operator :=
  returns.flatMap fun r => .prepareCall :: p.waitingAt r

/-- All instructions are in place, calls lead to where nothing waits, and no more than `n` operators
wait in a frame. -/
structure Tidy (p : Program) (n : Nat) : Prop where
  suits : ∀ {index : Nat} {i : Instr}, p.code.get? index = some i →
    i.Suits p.Rests (p.waitingAt index)
  calls : ∀ {index target : Nat}, p.code.get? index = some (.call target) → p.Rests target
  bound : ∀ index, (p.waitingAt index).length ≤ n

variable {p : Program} {index n : Nat} {i : Instr}

theorem waitingAt_succ (h : p.code.get? index = some i) :
    p.waitingAt (index + 1) = i.waiting (p.waitingAt index) := by
  have hi : p.code.instrs.toList[index]? = some i := by rwa [Array.getElem?_toList]
  unfold waitingAt
  rw [List.take_add_one, hi, Option.toList_some, List.foldl_concat]

/-- Below a frame a `prepareCall` waits first. -/
theorem isBarrier_of_waitingBelow (returns : List Nat) :
    ∀ q ∈ (p.waitingBelow returns).head?, q.isBarrier := by
  cases returns with
  | nil => exact nofun
  | cons r rest =>
    rintro q ⟨⟩
    rfl

/-- A frame more has at most `n` operators more. -/
theorem Tidy.length_le (hp : p.Tidy n) {returns : List Nat}
    (hreturns : ∀ r ∈ returns, (p.waitingAt r).length < n) (index : Nat) :
    (p.waitingAt index ++ p.waitingBelow returns).length ≤ (returns.length + 1) * n := by
  have hbelow : (p.waitingBelow returns).length ≤ returns.length * n := by
    induction returns with
    | nil => exact Nat.zero_le _
    | cons r rest ih =>
      have hr := hreturns r List.mem_cons_self
      have hrest := ih fun r' hr' => hreturns r' (List.mem_cons_of_mem r hr')
      have hcons : p.waitingBelow (r :: rest) =
          (.prepareCall :: p.waitingAt r) ++ p.waitingBelow rest := List.flatMap_cons
      rw [hcons, List.length_append, List.length_cons, List.length_cons, Nat.succ_mul]
      omega
  have hindex := hp.bound index
  rw [List.length_append, Nat.succ_mul]
  omega

end Program

/-! ## What one instruction does -/

namespace Operator

/-- Where a test ends inside a list or right below it, what stands below does not matter. -/
theorem dropWhile_append_below {test : Operator → Bool} {ops below : List Operator}
    (h : ops.dropWhile test ≠ [] ∨ ∀ q ∈ below.head?, test q = false) :
    (ops ++ below).dropWhile test = ops.dropWhile test ++ below := by
  rw [List.dropWhile_append]
  split
  · rename_i hempty
    have hnil := List.isEmpty_iff.mp hempty
    have hbelow := h.resolve_left fun hne => hne hnil
    rw [hnil, List.nil_append]
    cases below with
    | nil => rfl
    | cons q rest =>
      exact List.dropWhile_cons_of_neg (by rw [hbelow q rfl]; exact Bool.false_ne_true)
  · rfl

/-- What waits in the frames below does not matter to an operator that is in place. -/
theorem taken_append {op : Operator} {ops below : List Operator} {rests : Nat → Prop}
    (h : (Instr.operator op).Suits rests ops) (hbelow : ∀ q ∈ below.head?, q.isBarrier) :
    op.taken (ops ++ below) = op.taken ops ++ below := by
  have hsettle : (ops ++ below).dropWhile (Exec.yieldsTo op) =
      ops.dropWhile (Exec.yieldsTo op) ++ below :=
    dropWhile_append_below (.inr fun q hq => by simp [Exec.yieldsTo, hbelow q hq])
  cases op with
  | closeParen =>
    have hopen : (ops.dropWhile (!·.isBarrier)).head? = some .openParen := h
    have hne : ops.dropWhile (!·.isBarrier) ≠ [] := by
      intro hnil
      rw [hnil] at hopen
      cases hopen
    show ((ops ++ below).dropWhile (!·.isBarrier)).tail =
      (ops.dropWhile (!·.isBarrier)).tail ++ below
    rw [dropWhile_append_below (.inl hne), List.tail_append_of_ne_nil hne]
  | openParen | prepareCall | not | neg | pos => rfl
  | endOfExpression => exact hsettle
  | _ => exact congrArg (List.cons _) hsettle

end Operator

namespace Exec

open Machine

variable {α : Type} {l : Limits} {p : Program} {m m' : Machine} {i : Instr} {op : Operator}

/-- What follows in any case holds whatever comes before. -/
theorem Post.bind_any {β : Type} {x : Exec α} {f : α → Exec β} {Q : β → Machine → Prop}
    (hf : ∀ a m', Post AnyCause (f a) m' Q) : Post AnyCause (x >>= f) m Q := by
  refine Post.bind (R := fun _ _ => True) ?_ fun a m' _ => hf a m'
  unfold Post
  cases x m <;> trivial

theorem operators_applyWhile (test : Operator → Bool) {ops : List Operator}
    (hm : m.operators = ops) :
    Post AnyCause (applyWhile (reduce l) test ops) m fun _ m' =>
      m'.operators = ops.dropWhile test := by
  induction ops generalizing m with
  | nil => exact hm
  | cons op rest ih =>
    unfold applyWhile
    by_cases hop : test op = true
    · rw [if_pos hop, List.dropWhile_cons_of_pos hop]
      have hreduce : Post AnyCause (reduce l op) { m with operators := rest } fun _ m' =>
          m'.operators = rest := Leaves.post (leaves_reduce apart_operators op) _
      exact hreduce.bind fun _ m' hm' => ih hm'
    · rw [if_neg hop, List.dropWhile_cons_of_neg hop]
      exact hm

/-- An operator changes which operators wait. -/
theorem operators_operator (op : Operator) (m : Machine) :
    Post AnyCause (operator l op) m fun _ m' => m'.operators = op.taken m.operators := by
  have hsettle : Post AnyCause (settle (reduce l) op) m fun _ m' =>
      m'.operators = m.operators.dropWhile (yieldsTo op) := operators_applyWhile _ rfl
  have hclose : Post AnyCause (closeGroup (reduce l)) m fun _ m' =>
      m'.operators = (m.operators.dropWhile (!·.isBarrier)).tail := by
    refine Post.bind_get ((operators_applyWhile _ rfl).bind fun _ m₁ hm₁ => Post.bind_get ?_)
    rw [hm₁]
    show Post AnyCause (if _ then _ else _) _ _
    split
    · rfl
    · trivial
  cases op with
  | closeParen => exact hclose
  | openParen | prepareCall | not | neg | pos => rfl
  | endOfExpression => exact hsettle
  | _ => exact hsettle.bind fun _ m₁ hm₁ => congrArg (List.cons _) hm₁

/-- Operators that are applied in vain leave those below them. -/
theorem operators_of_applyWhile_error {test : Operator → Bool} {ops : List Operator} {c : Cause}
    (h : applyWhile (reduce l) test ops m = .error c m') : m'.operators <:+ ops := by
  induction ops generalizing m with
  | nil => cases h
  | cons op rest ih =>
    by_cases hop : test op = true
    · rw [applyWhile_next hop] at h
      cases hreduce : reduce l op { m with operators := rest } with
      | error c₁ m₁ =>
        rw [bind_error hreduce] at h
        cases h
        have hkept : m'.operators = rest := (leaves_reduce apart_operators op).error hreduce
        rw [hkept]
        exact List.suffix_cons op rest
      | ok u m₁ =>
        rw [bind_ok hreduce] at h
        exact (ih h).trans (List.suffix_cons op rest)
    · rw [applyWhile, if_neg hop] at h
      cases h

theorem operators_of_removeParen_error {c : Cause} (h : removeParen m = .error c m') :
    m'.operators = m.operators.tail := by
  unfold removeParen at h
  rw [bind_get, bind_setOperators] at h
  split at h <;> cases h
  rfl

theorem operators_of_closeGroup_error {c : Cause} (h : closeGroup (reduce l) m = .error c m') :
    m'.operators <:+ m.operators := by
  rw [closeGroup, bind_get] at h
  cases hreduce : applyWhile (reduce l) (!·.isBarrier) m.operators m with
  | error c₁ m₁ =>
    rw [bind_error hreduce] at h
    cases h
    exact operators_of_applyWhile_error hreduce
  | ok u m₁ =>
    have hkept : m₁.operators = m.operators.dropWhile (!·.isBarrier) :=
      (operators_applyWhile _ rfl).ok hreduce
    rw [bind_ok hreduce] at h
    rw [operators_of_removeParen_error h, hkept]
    exact (List.tail_suffix _).trans (List.dropWhile_suffix _)

theorem operators_of_operator_error {c : Cause} (h : operator l op m = .error c m') :
    m'.operators <:+ m.operators := by
  have hbinary (h : (do settle (reduce l) op; await op) m = .error c m') :
      m'.operators <:+ m.operators := by
    cases hsettle : settle (reduce l) op m with
    | error c₁ m₁ =>
      rw [bind_error hsettle] at h
      cases h
      exact operators_of_applyWhile_error hsettle
    | ok u m₁ =>
      rw [bind_ok hsettle] at h
      cases h
  cases op with
  | openParen | prepareCall | not | neg | pos => cases h
  | closeParen => exact operators_of_closeGroup_error h
  | endOfExpression => exact operators_of_applyWhile_error h
  | _ => exact hbinary h

/-- A return below a `prepareCall` unwinds a frame, and any other ends the program. -/
theorem ret_cases (l : Limits) (params locals : Nat) (m : Machine) :
    (∃ rest, m.operators = .prepareCall :: rest ∧ ret l params locals m =
        (do unwind l params locals; return none) { m with operators := rest }) ∨
      ret l params locals m = (do return some (← finish)) m := by
  unfold ret
  rw [bind_get]
  cases hops : m.operators with
  | nil => exact .inr rfl
  | cons q rest =>
    cases q with
    | prepareCall => exact .inl ⟨rest, rfl, rfl⟩
    | _ => exact .inr rfl

theorem leaves_unwind_none (params locals : Nat) :
    Leaves (·.operators) (do unwind l params locals; return (none : Option Value)) :=
  (leaves_unwind apart_operators (fun _ _ => rfl) params locals).bind fun _ => .pure none

theorem leaves_some_finish : Leaves (·.operators) (do return some (← finish)) :=
  (leaves_finish apart_operators).bind fun v => .pure (some v)

/-- A return leaves what waits, but for the `prepareCall` of the call that it ends. -/
theorem operators_of_ret_ok {params locals : Nat} {r : Option Value}
    (h : ret l params locals m = .ok r m') : m'.operators <:+ m.operators := by
  rcases ret_cases l params locals m with ⟨rest, hops, heq⟩ | heq
  · rw [heq] at h
    rw [(leaves_unwind_none params locals).ok h, hops]
    exact List.suffix_cons _ rest
  · rw [heq] at h
    exact ⟨[], leaves_some_finish.ok h⟩

theorem operators_of_ret_error {params locals : Nat} {c : Cause}
    (h : ret l params locals m = .error c m') : m'.operators <:+ m.operators := by
  rcases ret_cases l params locals m with ⟨rest, hops, heq⟩ | heq
  · rw [heq] at h
    rw [(leaves_unwind_none params locals).error h, hops]
    exact List.suffix_cons _ rest
  · rw [heq] at h
    exact ⟨[], leaves_some_finish.error h⟩

/-- **An instruction that fails leaves no operators that did not wait before it.** -/
theorem operators_of_step_error {c : Cause} (h : step l p i m = .error c m') :
    m'.operators <:+ m.operators := by
  by_cases hop : ∃ op, i = .operator op
  · obtain ⟨op, rfl⟩ := hop
    cases hoperator : operator l op m with
    | error c₁ m₁ =>
      change (do operator l op; return (none : Option Value)) m = _ at h
      rw [bind_error hoperator] at h
      cases h
      exact operators_of_operator_error hoperator
    | ok u m₁ =>
      change (do operator l op; return (none : Option Value)) m = _ at h
      rw [bind_ok hoperator] at h
      cases h
  by_cases hret : ∃ params locals, i = .ret params locals
  · obtain ⟨params, locals, rfl⟩ := hret
    exact operators_of_ret_error h
  have hleaves : Leaves (·.operators) (step l p i) :=
    leaves_operators_step (fun op h => hop ⟨op, h⟩) fun params locals h => hret ⟨params, locals, h⟩
  exact ⟨[], hleaves.error h⟩

theorem operators_finish (m : Machine) :
    Post AnyCause finish m fun _ m' => m'.operators = [] := by
  refine Post.bind_any fun v m₁ => Post.bind_get ?_
  by_cases hempty : (m₁.stack.isEmpty && m₁.operators.isEmpty) = true
  · rw [if_pos hempty]
    exact List.isEmpty_iff.mp (Bool.and_eq_true_iff.mp hempty).2
  · rw [if_neg hempty]
    trivial

/-- Nothing waits when a program ends. -/
theorem operators_of_step_value {v : Value} (h : step l p i m = .ok (some v) m') :
    m'.operators = [] := by
  have hpost : Post AnyCause (step l p i) m fun r m' => r.isSome → m'.operators = [] := by
    have andNone {x : Exec Unit} (m : Machine) : Post AnyCause (do x; return (none : Option Value)) m
        fun r m' => r.isSome → m'.operators = [] := Post.bind_any fun _ _ => Post.pure nofun
    cases i with
    | getGlobal slot => exact Post.bind_any fun _ m' => andNone m'
    | setGlobal slot => exact Post.bind_any fun _ m' => andNone m'
    | getLocal offset => exact Post.bind_any fun _ m' => andNone m'
    | setLocal offset => exact Post.bind_any fun _ m' => andNone m'
    | pop => exact Post.bind_any fun _ _ => Post.pure nofun
    | ret params locals =>
      refine Post.bind_get ?_
      split
      · exact Post.bind_any fun _ m' => andNone m'
      · exact (operators_finish m).bind fun _ _ hm' => Post.pure fun _ => hm'
    | _ => exact andNone m
  exact hpost.ok h rfl

end Exec

/-! ## What waits on a machine -/

namespace Machine

open Exec

variable {l : Limits} {p : Program} {m m' : Machine} {i : Instr} {n index ip : Nat}
  {returns : List Nat} {calls : Array String}

/-- What waits on a machine is what waits in its frames, and a frame that has called has room for the
`prepareCall` of its call. -/
structure Awaits (p : Program) (n : Nat) (m : Machine) : Prop where
  operators : m.operators = p.waitingAt m.ip ++ p.waitingBelow (returnsOn m.stack)
  callers : ∀ r ∈ returnsOn m.stack, (p.waitingAt r).length < n

theorem Marks.awaits (h : Marks ip returns calls m)
    (hops : m.operators = p.waitingAt ip ++ p.waitingBelow returns)
    (hcallers : ∀ r ∈ returns, (p.waitingAt r).length < n) : m.Awaits p n where
  operators := by rw [h.ip_eq, h.returns_eq, hops]
  callers := by rwa [h.returns_eq]

section Step

variable (hp : p.Tidy n) (hi : p.code.get? index = some i) (h : Marks (index + 1) returns calls m)
  (hops : m.operators = p.waitingAt index ++ p.waitingBelow returns)
  (hcallers : ∀ r ∈ returns, (p.waitingAt r).length < n)

include hp hi h hops hcallers

/-- An operator changes what waits in the current frame. -/
theorem awaits_operator {op : Operator} (hop : i = .operator op)
    (hstep : step l p i m = .ok none m') : m'.Awaits p n := by
  subst hop
  have hkeeps : Keeps Exec.AnyCause (Marks (index + 1) returns calls) (step l p (.operator op)) :=
    marks_step rfl nofun nofun
  have htaken : Post Exec.AnyCause (step l p (.operator op)) m fun _ m' =>
      m'.operators = op.taken m.operators :=
    (operators_operator op m).bind fun _ _ hm' => hm'
  refine ((hkeeps m h).ok hstep).awaits ?_ hcallers
  rw [htaken.ok hstep, hops, Operator.taken_append (hp.suits hi) (p.isBarrier_of_waitingBelow _),
    p.waitingAt_succ hi]
  rfl

/-- A call waits below its `prepareCall`. -/
theorem awaits_call {target : Nat} (hcall : i = .call target)
    (hstep : step l p i m = .ok none m') : m'.Awaits p n := by
  subst hcall
  have hhead : (p.waitingAt index).head? = some .prepareCall := hp.suits hi
  obtain ⟨rest, hrest⟩ : ∃ rest, p.waitingAt index = .prepareCall :: rest := by
    cases hw : p.waitingAt index with
    | nil => rw [hw] at hhead; cases hhead
    | cons q rest => rw [hw] at hhead; cases hhead; exact ⟨rest, rfl⟩
  have hnext : p.waitingAt (index + 1) = rest := by
    rw [p.waitingAt_succ hi, hrest]
    rfl
  have hbound := hp.bound index
  have hpost : Post Exec.AnyCause (step l p (.call target)) m fun _ m' => m'.Awaits p n := by
    refine (Post.call (Q := fun _ m' => m'.Awaits p n) trivial trivial fun _ _ => ?_).bind
      fun _ _ hm' => hm'
    have hreturns : returnsOn ((m.stack.push (.returnAddress m.ip)).push (.savedBase m.base)) =
        (index + 1) :: returns := by
      rw [returnsOn_push, returnsOn_push, h.ip_eq, h.returns_eq]
      rfl
    refine Marks.awaits ⟨rfl, hreturns, rfl⟩ ?_ ?_
    · have htarget : p.waitingAt target = [] := hp.calls hi
      show m.operators = _
      rw [hops, htarget, hrest, ← hnext]
      rfl
    · refine List.forall_mem_cons.mpr ⟨?_, hcallers⟩
      rw [hrest, List.length_cons] at hbound
      rw [hnext]
      exact hbound
  exact hpost.ok hstep

/-- A return takes the `prepareCall` of the call away, and what waits behind the call waits again. -/
theorem awaits_ret {params locals : Nat} (hret : i = .ret params locals)
    (hstep : step l p i m = .ok none m') : m'.Awaits p n := by
  subst hret
  have hnone : p.waitingAt index = [] := hp.suits hi
  rw [hnone, List.nil_append] at hops
  have hpost : Post Exec.AnyCause (ret l params locals) m fun r m' => r = none → m'.Awaits p n := by
    refine Post.bind_get ?_
    rw [hops]
    cases returns with
    | nil => exact ((leaves_finish apart_operators).post m).bind fun v _ _ => Post.pure nofun
    | cons r rest =>
      have hrest : Marks (index + 1) (r :: rest) calls
          { m with operators := p.waitingAt r ++ p.waitingBelow rest } := { h with }
      have hunwind := (marks_unwind (l := l) hrest params locals).and
        ((leaves_unwind apart_operators (fun _ _ => rfl) params locals).post _)
      refine hunwind.bind fun _ m' hm' => Post.pure fun _ => ?_
      obtain ⟨⟨r', rest', heq, hmarks⟩, hkept⟩ := hm'
      obtain ⟨rfl, rfl⟩ := List.cons.inj heq
      exact hmarks.awaits hkept (List.forall_mem_cons.mp hcallers).2
  exact hpost.ok hstep rfl

/-- **Every instruction of a tidy program that does not end the run leaves what waits in order.** -/
theorem awaits_step (hstep : step l p i m = .ok none m') : m'.Awaits p n := by
  -- an instruction that is no operator and does not return leaves all that waits
  have kept (hop : ∀ op, i ≠ .operator op) (hret : ∀ params locals, i ≠ .ret params locals) :
      m'.operators = p.waitingAt index ++ p.waitingBelow returns := by
    rw [← hops]
    exact (leaves_operators_step hop hret : Leaves (·.operators) (step l p i)).ok hstep
  have next (hop : ∀ op, i ≠ .operator op) (hcall : ∀ target, i ≠ .call target) :
      p.waitingAt (index + 1) = p.waitingAt index := by
    rw [p.waitingAt_succ hi]
    cases i with
    | operator op => exact absurd rfl (hop op)
    | call target => exact absurd rfl (hcall target)
    | _ => rfl
  have plain (hnone : i.jumpTarget? = none) (hop : ∀ op, i ≠ .operator op)
      (hcall : ∀ target, i ≠ .call target) (hret : ∀ params locals, i ≠ .ret params locals) :
      m'.Awaits p n := by
    have hkeeps : Keeps Exec.AnyCause (Marks (index + 1) returns calls) (step l p i) :=
      marks_step hnone hcall hret
    refine ((hkeeps m h).ok hstep).awaits ?_ hcallers
    rw [next hop hcall]
    exact kept hop hret
  cases i with
  | operator op => exact awaits_operator hp hi h hops hcallers rfl hstep
  | call target => exact awaits_call hp hi h hops hcallers rfl hstep
  | ret params locals => exact awaits_ret hp hi h hops hcallers rfl hstep
  | jump target =>
    obtain ⟨hnone, htarget⟩ : p.waitingAt index = [] ∧ p.Rests target := hp.suits hi
    have hops' := kept nofun nofun
    cases hstep
    refine Marks.awaits { h with ip_eq := rfl } ?_ hcallers
    rw [hops', hnone, htarget]
  | jumpIfFalse target =>
    obtain ⟨hnone, htarget⟩ : p.waitingAt index = [] ∧ p.Rests target := hp.suits hi
    have hpost : Post Exec.AnyCause (step l p (.jumpIfFalse target)) m fun _ m' =>
        Marks (index + 1) returns calls m' ∨ Marks target returns calls m' :=
      (marks_jumpIfFalse h target).bind fun _ _ hm' => hm'
    have hops' := kept nofun nofun
    rcases hpost.ok hstep with hmarks | hmarks
    · exact hmarks.awaits (by rw [hops', next nofun nofun]) hcallers
    · exact hmarks.awaits (by rw [hops', hnone, htarget]) hcallers
  | _ => exact plain rfl nofun nofun nofun

end Step

theorem Awaits.start (p : Program) (n : Nat) (m : Machine) : (m.start p).Awaits p n :=
  ⟨rfl, nofun⟩

theorem Awaits.tick (hp : p.Tidy n) (h : m.Awaits p n) (ht : tick l p m = .ok none m') :
    m'.Awaits p n := by
  obtain ⟨i, hi, hstep⟩ := tick_eq_ok ht
  have hm : Marks (m.ip + 1) (returnsOn m.stack) m.calls
      { m with ip := m.ip + 1, steps := m.steps + 1 } := ⟨rfl, rfl, rfl⟩
  exact awaits_step hp hi hm h.operators h.callers hstep

/-- **On the machines of a run of a tidy program wait the operators of their frames.** -/
theorem Awaits.after? (hp : p.Tidy n) {k : Nat} (h : after? l p k (m.start p) = some m') :
    m'.Awaits p n :=
  after?_induct (fun _ _ hm ht => hm.tick hp ht) (.start p n m) h

/-- No more than `n` operators wait for each frame. -/
theorem Awaits.length_operators (hp : p.Tidy n) (h : m.Awaits p n) :
    m.operators.length ≤ ((returnsOn m.stack).length + 1) * n := by
  rw [h.operators]
  exact hp.length_le h.callers m.ip

end Machine

end StackScript
