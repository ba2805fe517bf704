import StackScript.Proofs.Machine.Links
import StackScript.Proofs.Machine.Untouched
import StackScript.Proofs.Program.Regions

/-!
# Where a running program is

The active functions of a machine, the return addresses on its stack and its instruction pointer
tell one story: the machine is in the body of the innermost active function, the topmost return
address is in the body of the function that called it, and so on down to the top-level code
(`Trail`). That holds of programs in which control leaves a region by calls and returns only
(`Program.Contained`), as every instruction keeps it:

* `Machine.Traced.after?`: the machines of a run are traced;
* `Exec.calls_of_step_error`: an instruction that fails has changed nothing about the active
  functions, so the report of a failure names those of the machine before it.
-/

namespace StackScript

/-! ## Return addresses -/

/-- The address in a cell that holds one. -/
def Cell.address? : Cell → Option Nat
  | .returnAddress index => some index
  | _ => none

/-- The return addresses on a stack, the topmost first. -/
def returnsOn (stack : Array Cell) : List Nat := stack.toList.reverse.filterMap Cell.address?

theorem returnsOn_push (s : Array Cell) (c : Cell) :
    returnsOn (s.push c) = c.address?.toList ++ returnsOn s := by
  rw [returnsOn, Array.toList_push, List.reverse_append]
  cases c <;> rfl

/-- Values may change. -/
theorem returnsOn_set {s : Array Cell} {a : Nat} {w : Value} (h : s[a]? = some (.value w))
    (v : Value) : returnsOn (s.setIfInBounds a (.value v)) = returnsOn s := by
  rw [← Array.getElem?_toList] at h
  obtain ⟨hlt, hget⟩ := List.getElem?_eq_some_iff.mp h
  have hbefore : s.toList = s.toList.take a ++ .value w :: s.toList.drop (a + 1) := by
    rw [← hget, ← List.drop_eq_getElem_cons hlt, List.take_append_drop]
  have hafter : (s.setIfInBounds a (.value v)).toList =
      s.toList.take a ++ .value v :: s.toList.drop (a + 1) := by
    rw [Array.toList_setIfInBounds, List.set_eq_take_append_cons_drop, if_pos hlt]
  unfold returnsOn
  rw [hafter, List.filterMap_reverse, List.filterMap_reverse]
  conv_rhs => rw [hbefore]
  simp [List.filterMap_append, List.filterMap_cons, Cell.address?]

/-! ## Trails -/

/-- Control stays in a region, except that calls lead to the start of the function they name and
returns go back. -/
structure Program.Contained (p : Program) : Prop where
  start : p.TopLevel 0
  next : ∀ {region : Option Nat} {index : Nat} {i : Instr}, p.InRegion region index →
    p.code.get? index = some i → (∀ target, i ≠ .jump target) →
      (∀ params locals, i ≠ .ret params locals) → p.InRegion region (index + 1)
  jump : ∀ {region : Option Nat} {index target : Nat} {i : Instr}, p.InRegion region index →
    p.code.get? index = some i → i.jumpTarget? = some target → p.InRegion region target
  call : ∀ {index target : Nat}, p.code.get? index = some (.call target) →
    ∃ k f, p.functions[k]? = some f ∧ f.name = Exec.callName p target ∧ p.InBody k target

/-- The index lies in the body of the first active function, the first return address in that of the
second, and so on, the last one in top-level code. -/
inductive Trail (p : Program) : (active : List String) → (returns : List Nat) → (index : Nat) → Prop where
  | top {index : Nat} (h : p.TopLevel index) : Trail p [] [] index
  | call {active : List String} {returns : List Nat} {r k index : Nat} {f : FunctionEntry}
      (hf : p.functions[k]? = some f) (h : p.InBody k index) (below : Trail p active returns r) :
      Trail p (f.name :: active) (r :: returns) index

variable {p : Program} {active : List String} {returns : List Nat} {index index' : Nat}

/-- Moves inside a region leave the trail. -/
theorem Trail.move (h : Trail p active returns index)
    (hmove : ∀ region, p.InRegion region index → p.InRegion region index') :
    Trail p active returns index' := by
  cases h with
  | top h => exact .top (hmove none h)
  | call hf h below => exact .call hf (hmove (some _) h) below

/-- A return goes down the trail. -/
theorem Trail.back {r : Nat} (h : Trail p active (r :: returns) index) :
    Trail p active.tail returns r := by
  cases h with
  | call hf h below => exact below

/-- Each active function has a return address. -/
theorem Trail.length_eq (h : Trail p active returns index) : active.length = returns.length := by
  induction h with
  | top h => rfl
  | call hf h below ih => rw [List.length_cons, List.length_cons, ih]

namespace Machine

/-- The trail of a machine. -/
def Traced (p : Program) (m : Machine) : Prop :=
  Trail p m.calls.toList.reverse (returnsOn m.stack) m.ip

/-- The parts of a machine that its trail depends on. -/
structure Marks (ip : Nat) (returns : List Nat) (calls : Array String) (m : Machine) : Prop where
  ip_eq : m.ip = ip
  returns_eq : returnsOn m.stack = returns
  calls_eq : m.calls = calls

theorem Marks.traced {m : Machine} {ip : Nat} {calls : Array String} (h : Marks ip returns calls m)
    (ht : Trail p calls.toList.reverse returns ip) : m.Traced p := by
  rwa [Traced, h.ip_eq, h.returns_eq, h.calls_eq]

end Machine

/-! ## What one instruction keeps -/

namespace Exec

open Machine

variable {l : Limits} {m m' : Machine} {ip : Nat} {calls : Array String} {i : Instr}

/-- No cause is excluded. -/
abbrev AnyCause (_ : Cause) : Prop := True

theorem marks_push (v : Value) : Keeps AnyCause (Marks ip returns calls) (push l v) := fun m h =>
  Post.pushCell trivial fun _ => { h with returns_eq := (returnsOn_push m.stack _).trans h.returns_eq }

theorem marks_pop : Keeps AnyCause (Marks ip returns calls) pop := fun _ h =>
  Post.pop trivial (fun _ => trivial) fun s v hs =>
    { h with returns_eq := by rw [← h.returns_eq, hs, returnsOn_push]; rfl }

theorem marks_setLocal (offset : Int) (v : Value) :
    Keeps AnyCause (Marks ip returns calls) (setLocal offset v) := fun _ h =>
  Post.setLocal (fun _ => trivial) (fun _ => trivial) fun _ _ _ ha =>
    { h with returns_eq := (returnsOn_set ha v).trans h.returns_eq }

theorem marks_getLocal (offset : Int) :
    Keeps AnyCause (Marks ip returns calls) (getLocal offset) := fun _ h =>
  Post.getLocal (fun _ => trivial) (fun _ => trivial) fun _ => h

theorem marks_getGlobal (slot : Nat) : Keeps AnyCause (Marks ip returns calls) (getGlobal slot) :=
  fun _ h => Post.getGlobal (fun _ => trivial) fun _ => h

theorem marks_setGlobal (slot : Nat) (v : Value) :
    Keeps AnyCause (Marks ip returns calls) (setGlobal slot v) := fun _ h =>
  Post.setGlobal (fun _ => trivial) { h with }

theorem marks_operator (op : Operator) :
    Keeps AnyCause (Marks ip returns calls) (operator l op) :=
  Keeps.operator (Keeps.reduce marks_pop marks_push fun _ _ => trivial) (fun _ _ h => { h with })
    trivial op

theorem marks_jumpIfFalse (h : Marks ip returns calls m) (target : Nat) :
    Post AnyCause (jumpIfFalse target) m fun _ m' =>
      Marks ip returns calls m' ∨ Marks target returns calls m' := by
  unfold jumpIfFalse
  refine (marks_pop m h).bind fun v m' h' => ?_
  split
  · exact .inl h'
  · exact .inr { h' with ip_eq := rfl }
  · trivial

theorem marks_restoreBase : Keeps AnyCause (Marks ip returns calls) restoreBase := by
  intro m h
  refine Post.bind_popCell trivial fun s c hs => ?_
  cases c with
  | savedBase b => exact { h with returns_eq := by rw [← h.returns_eq, hs, returnsOn_push]; rfl }
  | value v => trivial
  | returnAddress r => trivial

/-- The topmost return address is where a return goes on. -/
theorem marks_restoreAddress (h : Marks ip returns calls m) :
    Post AnyCause restoreAddress m fun _ m' =>
      ∃ r rest, returns = r :: rest ∧ Marks r rest calls m' := by
  refine Post.bind_popCell trivial fun s c hs => ?_
  cases c with
  | returnAddress r =>
    refine ⟨r, returnsOn s, ?_, rfl, rfl, h.calls_eq⟩
    rw [← h.returns_eq, hs, returnsOn_push]
    rfl
  | value v => trivial
  | savedBase b => trivial

theorem marks_unwind (h : Marks ip returns calls m) (params locals : Nat) :
    Post AnyCause (unwind l params locals) m fun _ m' =>
      ∃ r rest, returns = r :: rest ∧ Marks r rest calls.pop m' := by
  unfold unwind
  refine (marks_pop m h).bind fun v m₁ h₁ => Post.bind_get ?_
  have htail : Post AnyCause
      (do drop locals; restoreBase; restoreAddress; drop params; leave; push l v) m₁ fun _ m' =>
        ∃ r rest, returns = r :: rest ∧ Marks r rest calls.pop m' := by
    refine (Keeps.drop marks_pop locals m₁ h₁).bind fun _ m₂ h₂ => ?_
    refine (marks_restoreBase m₂ h₂).bind fun _ m₃ h₃ => ?_
    refine (marks_restoreAddress h₃).bind fun _ m₄ ⟨r, rest, hr, h₄⟩ => ?_
    refine (Keeps.drop marks_pop params m₄ h₄).bind fun _ m₅ h₅ => ?_
    have hleave : Post AnyCause leave m₅ fun _ => Marks r rest calls.pop :=
      { h₅ with calls_eq := congrArg Array.pop h₅.calls_eq }
    exact hleave.bind fun _ m₆ h₆ => (marks_push v m₆ h₆).mono fun _ m₇ h₇ => ⟨r, rest, hr, h₇⟩
  by_cases hsize : m₁.stack.size ≠ m₁.base + locals
  · rw [if_pos hsize]
    trivial
  · rw [if_neg hsize]
    exact htail

/-- A return goes back to the caller. -/
theorem traced_ret (h : Marks ip returns calls m) (ht : Trail p calls.toList.reverse returns index)
    (params locals : Nat) :
    Post AnyCause (ret l params locals) m fun r m' => r = none → m'.Traced p := by
  unfold ret
  refine Post.bind_get ?_
  split
  · rename_i rest hops
    have h' : Marks ip returns calls { m with operators := rest } := { h with }
    refine (marks_unwind h' params locals).bind fun _ m' ⟨r, rest, hr, hm'⟩ => Post.pure fun _ => ?_
    subst hr
    refine hm'.traced ?_
    have hback := ht.back
    rwa [List.tail_reverse, ← Array.toList_pop] at hback
  · have hfinish : Keeps AnyCause (Marks ip returns calls) finish :=
      marks_pop.bind fun v => Keeps.get.bind fun m' => by
        split
        · exact .pure v
        · exact fun _ _ => trivial
    exact (hfinish m h).bind fun v _ _ => Post.pure nofun

/-- An instruction that neither jumps nor calls nor returns leaves the parts that a trail depends
on. -/
theorem marks_step (hjump : i.jumpTarget? = none) (hcall : ∀ target, i ≠ .call target)
    (hret : ∀ params locals, i ≠ .ret params locals) :
    Keeps AnyCause (Marks ip returns calls) (step l p i) := by
  have hpush (v : Value) : Keeps AnyCause (Marks ip returns calls) (do
      push l v; return (none : Option Value)) := (marks_push v).bind fun _ => .pure none
  cases i with
  | push v => exact hpush v
  | getGlobal slot => exact (marks_getGlobal slot).bind hpush
  | setGlobal slot =>
    exact marks_pop.bind fun v => (marks_setGlobal slot v).bind fun _ => .pure none
  | getLocal offset => exact (marks_getLocal offset).bind hpush
  | setLocal offset =>
    exact marks_pop.bind fun v => (marks_setLocal offset v).bind fun _ => .pure none
  | declareLocal => exact hpush .undefined
  | jump target | jumpIfFalse target => cases hjump
  | call target => exact absurd rfl (hcall target)
  | ret params locals => exact absurd rfl (hret params locals)
  | operator op => exact (marks_operator op).bind fun _ => .pure none
  | pop => exact marks_pop.bind fun _ => .pure none

/-- **Every instruction of a contained program leaves the machine traced.** -/
theorem traced_step (hp : p.Contained) (hi : p.code.get? index = some i)
    (h : Marks (index + 1) returns calls m) (ht : Trail p calls.toList.reverse returns index) :
    Post AnyCause (step l p i) m fun r m' => r = none → m'.Traced p := by
  have next (hjump : ∀ target, i ≠ .jump target) (hret : ∀ params locals, i ≠ .ret params locals) :
      Trail p calls.toList.reverse returns (index + 1) :=
    ht.move fun region hin => hp.next hin hi hjump hret
  have jumped {target : Nat} (htarget : i.jumpTarget? = some target) :
      Trail p calls.toList.reverse returns target :=
    ht.move fun region hin => hp.jump hin hi htarget
  have andNone {x : Exec Unit} {Q : Unit → Machine → Prop} (hx : Post AnyCause x m Q)
      (hQ : ∀ m', Q () m' → m'.Traced p) :
      Post AnyCause (do x; return (none : Option Value)) m fun r m' => r = none → m'.Traced p :=
    hx.bind fun _ m' h' => Post.pure fun _ => hQ m' h'
  have plain (hnone : i.jumpTarget? = none) (hjump : ∀ target, i ≠ .jump target)
      (hcall : ∀ target, i ≠ .call target) (hret : ∀ params locals, i ≠ .ret params locals) :
      Post AnyCause (step l p i) m fun r m' => r = none → m'.Traced p :=
    (marks_step hnone hcall hret m h).mono fun _ _ h' _ => h'.traced (next hjump hret)
  cases i with
  | jump target =>
    have hm : Marks target returns calls { m with ip := target } := { h with ip_eq := rfl }
    exact fun _ => hm.traced (jumped rfl)
  | jumpIfFalse target =>
    refine andNone (marks_jumpIfFalse h target) fun m' h' => ?_
    rcases h' with h' | h'
    · exact h'.traced (next nofun nofun)
    · exact h'.traced (jumped rfl)
  | call target =>
    obtain ⟨k, f, hf, hname, hin⟩ := hp.call hi
    refine andNone (Q := fun _ m' => m'.Traced p) (Post.call trivial trivial fun _ _ => ?_) fun _ => id
    have hcaller : Trail p m.calls.toList.reverse (returnsOn m.stack) m.ip := by
      rw [h.calls_eq, h.returns_eq, h.ip_eq]
      exact next nofun nofun
    have hcalled := Trail.call hf hin hcaller
    rw [hname] at hcalled
    simpa [Traced, returnsOn_push, Cell.address?] using hcalled
  | ret params locals => exact traced_ret h ht params locals
  | _ => exact plain rfl nofun nofun nofun

/-! ## What a failure leaves -/

/-- From a machine that an assertion holds of, a failure leaves the active functions. -/
def Spares {α : Type} (I : Machine → Prop) (x : Exec α) : Prop :=
  ∀ m, I m → ∀ c m', x m = .error c m' → m'.calls = m.calls

section Spares

variable {α β : Type} {I J : Machine → Prop} {x : Exec α}

theorem Leaves.spares (h : Leaves (·.calls) x) : Spares I x := fun _ _ _ _ hx => h.error hx

theorem Spares.bind {f : α → Exec β} (hleaves : Leaves (·.calls) x)
    (hpost : ∀ m, I m → Post AnyCause x m fun _ => J) (hf : ∀ a, Spares J (f a)) :
    Spares I (x >>= f) := by
  intro m hm c m' h
  cases hx : x m with
  | ok a m₁ =>
    rw [bind_ok hx] at h
    exact (hf a m₁ ((hpost m hm).ok hx) c m' h).trans (hleaves.ok hx)
  | error c₁ m₁ =>
    rw [bind_error hx] at h
    cases h
    exact hleaves.error hx

theorem Spares.bind_get {f : Machine → Exec α} (h : ∀ m, Spares I (f m)) :
    Spares I ((get : Exec Machine) >>= f) := .bind Leaves.get Keeps.get h

theorem Spares.andPure (h : Spares I x) (b : β) : Spares I (do let _ ← x; return b) := by
  intro m hm c m' hx
  cases hm₁ : x m with
  | ok a m₁ =>
    rw [bind_ok hm₁] at hx
    cases hx
  | error c₁ m₁ =>
    rw [bind_error hm₁] at hx
    cases hx
    exact h m hm c m' hm₁

end Spares

/-- One more cell fits on the stack. -/
def HasRoom (l : Limits) (m : Machine) : Prop := m.stack.size < l.maxStack

theorem hasRoom_popCell : Keeps AnyCause (HasRoom l) popCell := fun m h =>
  Post.popCell trivial fun s c hs => by
    unfold HasRoom at h ⊢
    rw [hs, Array.size_push] at h
    exact Nat.lt_of_succ_lt h

theorem hasRoom_pop : Keeps AnyCause (HasRoom l) pop :=
  hasRoom_popCell.bind fun c => by
    cases c with
    | value v => exact .pure v
    | returnAddress r => exact fun _ _ => trivial
    | savedBase b => exact fun _ _ => trivial

theorem hasRoom_restoreBase : Keeps AnyCause (HasRoom l) restoreBase :=
  hasRoom_popCell.bind fun c => by
    cases c with
    | savedBase b => exact fun _ h => h
    | value v => exact fun _ _ => trivial
    | returnAddress r => exact fun _ _ => trivial

theorem hasRoom_restoreAddress : Keeps AnyCause (HasRoom l) restoreAddress :=
  hasRoom_popCell.bind fun c => by
    cases c with
    | returnAddress r => exact fun _ h => h
    | value v => exact fun _ _ => trivial
    | savedBase b => exact fun _ _ => trivial

/-- Where there is room, the result of a function can be left when the function is. -/
theorem spares_leave (v : Value) : Spares (HasRoom l) (do leave; push l v) := by
  intro m hroom c m' h
  have hpush : (do leave; push l v) m =
      .ok () { m with calls := m.calls.pop, stack := m.stack.push (.value v) } := if_pos hroom
  rw [hpush] at h
  cases h

/-- The result of a function is taken from the stack first, so there is room for it. -/
theorem spares_unwind (params locals : Nat) :
    Spares (·.stack.size ≤ l.maxStack) (unwind l params locals) := by
  have htail (v : Value) : Spares (HasRoom l)
      (do drop locals; restoreBase; restoreAddress; drop params; leave; push l v) :=
    .bind (leaves_drop unconcerned_calls.apart locals) (Keeps.drop hasRoom_pop locals) fun _ =>
    .bind (leaves_restoreBase unconcerned_calls.apart) hasRoom_restoreBase fun _ =>
    .bind (leaves_restoreAddress unconcerned_calls.apart) hasRoom_restoreAddress fun _ =>
    .bind (leaves_drop unconcerned_calls.apart params) (Keeps.drop hasRoom_pop params) fun _ =>
      spares_leave v
  have hpop (m : Machine) (hsize : m.stack.size ≤ l.maxStack) :
      Post AnyCause pop m fun _ => HasRoom l :=
    Post.pop trivial (fun _ => trivial) fun s v hs => by
      rw [hs, Array.size_push] at hsize
      exact hsize
  refine .bind (leaves_pop unconcerned_calls.apart) hpop fun v => .bind_get fun m => ?_
  by_cases hsize : m.stack.size ≠ m.base + locals
  · rw [if_pos hsize]
    exact Leaves.spares (.throw _)
  · rw [if_neg hsize]
    exact htail v

theorem spares_ret (params locals : Nat) :
    Spares (·.stack.size ≤ l.maxStack) (ret l params locals) := by
  refine .bind_get fun m => ?_
  split
  · rename_i rest _
    have hset : Keeps AnyCause (·.stack.size ≤ l.maxStack) (setOperators rest) := fun _ h => h
    exact .bind (leaves_setOperators unconcerned_calls rest) hset fun _ =>
      (spares_unwind params locals).andPure none
  · exact ((leaves_finish unconcerned_calls.apart).bind fun v => .pure (some v)).spares

theorem spares_call (target : Nat) : Spares (·.stack.size ≤ l.maxStack) (call l p target) := by
  have hpushed (c : Cell) (m : Machine) (_ : True) : Post AnyCause (pushCell l c) m fun _ _ => True :=
    Post.pushCell trivial fun _ => trivial
  have hframe : Spares (fun _ => True) (do
      pushCell l (.returnAddress (← MonadState.get).ip)
      pushCell l (.savedBase (← MonadState.get).base)
      enter (callName p target) target) :=
    .bind_get fun _ => .bind (leaves_pushCell unconcerned_calls.apart _) (hpushed _) fun _ =>
    .bind_get fun _ => .bind (leaves_pushCell unconcerned_calls.apart _) (hpushed _) fun _ =>
      fun _ _ _ _ h => by cases h
  refine .bind_get fun m => ?_
  by_cases hdepth : l.maxDepth ≤ m.calls.size
  · rw [if_pos hdepth]
    exact Leaves.spares (.throw _)
  · rw [if_neg hdepth]
    exact fun m _ => hframe m trivial

/-- **An instruction that fails has changed nothing about the active functions.** -/
theorem calls_of_step_error {c : Cause} (hsize : m.stack.size ≤ l.maxStack)
    (h : step l p i m = .error c m') : m'.calls = m.calls := by
  have hspares : Spares (·.stack.size ≤ l.maxStack) (step l p i) := by
    by_cases hcall : ∃ target, i = .call target
    · obtain ⟨target, rfl⟩ := hcall
      exact (spares_call target).andPure none
    by_cases hret : ∃ params locals, i = .ret params locals
    · obtain ⟨params, locals, rfl⟩ := hret
      exact spares_ret params locals
    exact (leaves_step unconcerned_calls (fun target h => hcall ⟨target, h⟩)
      fun params locals h => hret ⟨params, locals, h⟩).spares
  exact hspares m hsize c m' h

end Exec

/-! ## Runs -/

namespace Machine

variable {l : Limits} {m m' : Machine}

theorem Traced.start (hp : p.Contained) (m : Machine) : (m.start p).Traced p := .top hp.start

theorem Traced.tick (hp : p.Contained) (h : m.Traced p) (ht : tick l p m = .ok none m') :
    m'.Traced p := by
  obtain ⟨i, hi, hstep⟩ := tick_eq_ok ht
  have hm : Marks (m.ip + 1) (returnsOn m.stack) m.calls
      { m with ip := m.ip + 1, steps := m.steps + 1 } := ⟨rfl, rfl, rfl⟩
  exact (Exec.traced_step hp hi hm h).ok hstep rfl

/-- **The machines of a run are traced.** -/
theorem Traced.after? (hp : p.Contained) {n : Nat} (h : after? l p n (m.start p) = some m') :
    m'.Traced p :=
  after?_induct (fun _ _ hm ht => hm.tick hp ht) (.start hp m) h

/-- The innermost active function of a traced machine is the one whose body it is in. -/
theorem Traced.topLevel (h : m.Traced p) (hcalls : m.calls.toList = []) : p.TopLevel m.ip := by
  unfold Traced at h
  rw [hcalls] at h
  generalize returnsOn m.stack = returns at h
  cases h with
  | top h => exact h

theorem Traced.inBody (h : m.Traced p) {name : String} (hcalls : m.calls.toList.getLast? = some name) :
    ∃ k f, p.functions[k]? = some f ∧ f.name = name ∧ p.InBody k m.ip := by
  unfold Traced at h
  rw [← List.head?_reverse] at hcalls
  generalize m.calls.toList.reverse = active at h hcalls
  generalize returnsOn m.stack = returns at h
  cases h with
  | top h => cases hcalls
  | @call active returns r k _ f hf hin below => exact ⟨k, f, hf, Option.some.inj hcalls, hin⟩

end Machine

end StackScript
