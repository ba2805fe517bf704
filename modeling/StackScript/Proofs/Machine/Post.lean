import StackScript.Proofs.Simulation.Run

/-!
# What the machine's computations leave behind

`Exec.Post E x m Q` says how a computation can end: with a result and a machine that `Q` describes,
or by a cause in `E`. It holds of a sequence if it holds of the parts (`Post.bind`), and a rule for
every operation on the stack says what the operation does when it does not fail. An assertion that
all parts of a computation keep is kept by the whole (`Exec.Keeps`).

A run is a sequence of ticks (`Machine.after?`): what every tick keeps holds in all machines of a
run (`Machine.after?_induct`), and a run that ends does so by a tick from one of them
(`Machine.runFor_eq_some`).
-/

namespace StackScript

namespace Exec

variable {α β : Type} {E : Cause → Prop} {l : Limits} {m : Machine}

/-- From a machine a computation ends in what `Q` describes or fails by a cause in `E`. -/
def Post (E : Cause → Prop) (x : Exec α) (m : Machine) (Q : α → Machine → Prop) : Prop :=
  match x m with
  | .ok a m' => Q a m'
  | .error c _ => E c

section Rules

variable {x : Exec α} {Q R : α → Machine → Prop}

theorem Post.ok {a : α} {m' : Machine} (h : Post E x m Q) (hx : x m = .ok a m') : Q a m' := by
  unfold Post at h
  rwa [hx] at h

theorem Post.error {c : Cause} {m' : Machine} (h : Post E x m Q) (hx : x m = .error c m') : E c := by
  unfold Post at h
  rwa [hx] at h

theorem Post.pure {a : α} (h : Q a m) : Post E (Pure.pure a) m Q := h

theorem Post.violate {d : Defect} (h : E (.defect d)) : Post E (violate d) m Q := h

theorem Post.mono (h : Post E x m R) (hQ : ∀ a m', R a m' → Q a m') : Post E x m Q := by
  unfold Post at h ⊢
  cases hx : x m with
  | ok a m' =>
    rw [hx] at h
    exact hQ a m' h
  | error c m' =>
    rw [hx] at h
    exact h

theorem Post.and (h : Post E x m Q) (h' : Post E x m R) :
    Post E x m fun a m' => Q a m' ∧ R a m' := by
  unfold Post at h h' ⊢
  cases hx : x m with
  | ok a m' =>
    rw [hx] at h h'
    exact ⟨h, h'⟩
  | error c m' =>
    rw [hx] at h
    exact h

/-- A sequence ends as its second part does from where the first ends. -/
theorem Post.bind {f : α → Exec β} {Q : β → Machine → Prop} (hx : Post E x m R)
    (hf : ∀ a m', R a m' → Post E (f a) m' Q) : Post E (x >>= f) m Q := by
  unfold Post at hx
  cases h : x m with
  | ok a m' =>
    rw [h] at hx
    have hrest := hf a m' hx
    have heq : (x >>= f) m = f a m' := bind_ok h
    unfold Post at hrest ⊢
    rwa [heq]
  | error c m' =>
    rw [h] at hx
    have heq : (x >>= f) m = .error c m' := bind_error h
    unfold Post
    rwa [heq]

theorem Post.bind_get {f : Machine → Exec α} (h : Post E (f m) m Q) :
    Post E ((get : Exec Machine) >>= f) m Q := h

end Rules

/-! ## Operations on the stack -/

section Stack

theorem Post.pushCell {c : Cell} {Q : Unit → Machine → Prop} (ho : E (.stackOverflow l.maxStack))
    (h : m.stack.size < l.maxStack → Q () { m with stack := m.stack.push c }) :
    Post E (pushCell l c) m Q := by
  unfold Post Exec.pushCell
  by_cases hroom : m.stack.size < l.maxStack
  · rw [if_pos hroom]
    exact h hroom
  · rw [if_neg hroom]
    exact ho

theorem Post.popCell {Q : Cell → Machine → Prop} (hu : E (.defect .stackUnderflow))
    (h : ∀ s c, m.stack = s.push c → Q c { m with stack := s }) : Post E popCell m Q := by
  unfold Post Exec.popCell
  cases hback : m.stack.back? with
  | none => exact hu
  | some c =>
    obtain ⟨s, hs⟩ := Array.back?_eq_some_iff.mp hback
    have hpop : m.stack.pop = s := by rw [hs, Array.pop_push]
    simp only [hpop]
    exact h s c hs

/-- What follows a cell that is popped starts without it. -/
theorem Post.bind_popCell {f : Cell → Exec α} {Q : α → Machine → Prop}
    (hu : E (.defect .stackUnderflow))
    (h : ∀ s c, m.stack = s.push c → Post E (f c) { m with stack := s } Q) :
    Post E (Exec.popCell >>= f) m Q := by
  refine (Post.popCell (Q := fun c m' => ∃ s, m.stack = s.push c ∧ m' = { m with stack := s }) hu
    fun s c hs => ⟨s, hs, rfl⟩).bind ?_
  rintro c m' ⟨s, hs, rfl⟩
  exact h s c hs

theorem Post.pop {Q : Value → Machine → Prop} (hu : E (.defect .stackUnderflow))
    (he : ∀ c, E (.defect (.expectedValue c)))
    (h : ∀ s v, m.stack = s.push (.value v) → Q v { m with stack := s }) : Post E pop m Q := by
  refine Post.bind_popCell hu fun s c hs => ?_
  cases c with
  | value v => exact Post.pure (h s v hs)
  | returnAddress index => exact Post.violate (he _)
  | savedBase base => exact Post.violate (he _)

theorem Post.getGlobal {slot : Nat} {Q : Value → Machine → Prop}
    (hn : m.globals.size ≤ slot → E (.defect (.noGlobalSlot slot))) (h : ∀ v, Q v m) :
    Post E (getGlobal slot) m Q := by
  unfold Exec.getGlobal
  refine Post.bind_get ?_
  cases hv : m.globals[slot]? with
  | none => exact Post.violate (hn (Array.getElem?_eq_none_iff.mp hv))
  | some v => exact Post.pure (h v)

theorem Post.setGlobal {slot : Nat} {v : Value} {Q : Unit → Machine → Prop}
    (hn : m.globals.size ≤ slot → E (.defect (.noGlobalSlot slot)))
    (h : Q () { m with globals := m.globals.setIfInBounds slot v }) :
    Post E (setGlobal slot v) m Q := by
  unfold Post Exec.setGlobal
  by_cases hslot : slot < m.globals.size
  · rw [if_pos hslot]
    exact h
  · rw [if_neg hslot]
    exact hn (Nat.le_of_not_lt hslot)

theorem Post.getLocal {offset : Int} {Q : Value → Machine → Prop}
    (ho : ∀ base, E (.defect (.localOutsideFrame offset base)))
    (hn : ∀ c, E (.defect (.localNotValue offset c))) (h : ∀ v, Q v m) :
    Post E (getLocal offset) m Q := by
  unfold Exec.getLocal
  refine Post.bind_get ?_
  split
  · exact Post.violate (ho _)
  · split
    · exact Post.pure (h _)
    · exact Post.violate (hn _)
    · exact Post.violate (ho _)

theorem Post.setLocal {offset : Int} {v : Value} {Q : Unit → Machine → Prop}
    (ho : ∀ base, E (.defect (.localOutsideFrame offset base)))
    (hn : ∀ c, E (.defect (.localNotValue offset c)))
    (h : ∀ a w, m.address? offset = some a → m.stack[a]? = some (.value w) →
      Q () { m with stack := m.stack.setIfInBounds a (.value v) }) :
    Post E (setLocal offset v) m Q := by
  unfold Post Exec.setLocal
  cases ha : m.address? offset with
  | none => exact ho _
  | some a =>
    simp only
    cases hc : m.stack[a]? with
    | none => exact ho _
    | some c =>
      cases c with
      | value w => exact h a w ha hc
      | returnAddress index => exact hn _
      | savedBase base => exact hn _

theorem Post.restoreBase {s : Array Cell} {b : Nat} {Q : Unit → Machine → Prop}
    (hs : m.stack = s.push (.savedBase b)) (h : Q () { m with stack := s, base := b }) :
    Post E restoreBase m Q := by
  have hpop : Exec.popCell m = .ok (.savedBase b) { m with stack := s } := by
    simp [Exec.popCell, hs]
  unfold Post Exec.restoreBase
  rw [bind_ok hpop]
  exact h

theorem Post.restoreAddress {s : Array Cell} {index : Nat} {Q : Unit → Machine → Prop}
    (hs : m.stack = s.push (.returnAddress index)) (h : Q () { m with stack := s, ip := index }) :
    Post E restoreAddress m Q := by
  have hpop : Exec.popCell m = .ok (.returnAddress index) { m with stack := s } := by
    simp [Exec.popCell, hs]
  unfold Post Exec.restoreAddress
  rw [bind_ok hpop]
  exact h

/-- A call leaves the links and enters the function, within the limits. -/
theorem Post.call {p : Program} {target : Nat} {Q : Unit → Machine → Prop}
    (hd : E (.callDepthExceeded l.maxDepth)) (ho : E (.stackOverflow l.maxStack))
    (h : m.calls.size < l.maxDepth → m.stack.size + 1 < l.maxStack →
      Q () { m with
        stack := (m.stack.push (.returnAddress m.ip)).push (.savedBase m.base)
        base := m.stack.size + 2
        ip := target
        calls := m.calls.push (callName p target) }) : Post E (call l p target) m Q := by
  unfold Exec.call
  refine Post.bind_get ?_
  by_cases hdepth : l.maxDepth ≤ m.calls.size
  · rw [if_pos hdepth]
    exact hd
  rw [if_neg hdepth]
  refine Post.bind_get (Post.bind (Post.pushCell (Q := fun _ m' =>
    m' = { m with stack := m.stack.push (.returnAddress m.ip) }) ho fun _ => rfl) ?_)
  rintro ⟨⟩ _ rfl
  refine Post.bind_get (Post.bind (Post.pushCell (Q := fun _ m' =>
    m.stack.size + 1 < l.maxStack ∧ m' = { m with
      stack := (m.stack.push (.returnAddress m.ip)).push (.savedBase m.base) }) ho
    fun hroom => ⟨by rwa [Array.size_push] at hroom, rfl⟩) ?_)
  rintro ⟨⟩ _ ⟨hroom, rfl⟩
  have hsize : m.stack.size + 2 =
      ((m.stack.push (.returnAddress m.ip)).push (.savedBase m.base)).size := by simp
  have hentered := h (Nat.lt_of_not_le hdepth) hroom
  rw [hsize] at hentered
  exact hentered

theorem Post.ofExcept {x : Except Cause α} {Q : α → Machine → Prop}
    (he : ∀ c, x = .error c → E c) (h : ∀ a, x = .ok a → Q a m) : Post E (ofExcept x) m Q := by
  cases x with
  | ok a => exact h a rfl
  | error c => exact he c rfl

end Stack

/-! ## Assertions that are kept -/

/-- An assertion that holds before a computation holds after it. -/
def Keeps (E : Cause → Prop) (I : Machine → Prop) (x : Exec α) : Prop :=
  ∀ m, I m → Post E x m fun _ => I

section Keeps

variable {I : Machine → Prop} {x : Exec α}

theorem Keeps.pure (a : α) : Keeps E I (Pure.pure a) := fun _ h => h

theorem Keeps.bind {f : α → Exec β} (hx : Keeps E I x) (hf : ∀ a, Keeps E I (f a)) :
    Keeps E I (x >>= f) :=
  fun m h => (hx m h).bind fun a m' h' => hf a m' h'

theorem Keeps.get : Keeps E I (MonadState.get : Exec Machine) := fun _ h => h

theorem Keeps.drop (hpop : Keeps E I Exec.pop) : ∀ count, Keeps E I (drop count)
  | 0 => Keeps.pure ()
  | count + 1 => hpop.bind fun _ => Keeps.drop hpop count

/-- What popping and pushing values keep is kept by every reduction, which fails as operators do. -/
theorem Keeps.reduce (hpop : Keeps E I Exec.pop) (hpush : ∀ v, Keeps E I (push l v))
    (hown : ∀ c : Cause, c.IsOwn → E c) (op : Operator) : Keeps E I (reduce l op) := by
  have hpushed {y : Except Cause Value} (hy : ∀ c, y = .error c → E c) :
      Keeps E I (do push l (← Exec.ofExcept y)) := fun m h =>
    (Post.ofExcept (Q := fun _ m' => I m') hy fun _ _ => h).bind fun v m' h' => hpush v m' h'
  unfold Exec.reduce
  by_cases hu : op.isUnary = true
  · rw [if_pos hu]
    exact hpop.bind fun v => hpushed fun c hc => hown c (Operator.applyUnary_error hc)
  · rw [if_neg hu]
    exact hpop.bind fun rhs => hpop.bind fun lhs => hpushed fun c hc =>
      hown c (Operator.applyBinary_error (Bool.eq_false_iff.mpr hu) hc)

theorem Keeps.applyWhile {apply : Operator → Exec Unit} (happly : ∀ op, Keeps E I (apply op))
    (hset : ∀ ops, Keeps E I (setOperators ops)) (test : Operator → Bool) (ops : List Operator) :
    Keeps E I (applyWhile apply test ops) := by
  induction ops with
  | nil => exact Keeps.pure ()
  | cons op rest ih =>
    unfold Exec.applyWhile
    split
    · exact (hset rest).bind fun _ => (happly op).bind fun _ => ih
    · exact Keeps.pure ()

/-- What reductions and changes of the pending operators keep is kept by every operator. -/
theorem Keeps.operator (hreduce : ∀ op, Keeps E I (Exec.reduce l op))
    (hset : ∀ ops, Keeps E I (setOperators ops)) (hparen : E (.defect .unmatchedParen))
    (op : Operator) : Keeps E I (operator l op) := by
  have hawait : Keeps E I (await op) := fun m h => hset (op :: m.operators) m h
  have hsettle : Keeps E I (settle (Exec.reduce l) op) := Keeps.get.bind fun m =>
    Keeps.applyWhile hreduce hset _ _
  have hremove : Keeps E I removeParen := Keeps.get.bind fun m => (hset _).bind fun _ => by
    split
    · exact Keeps.pure ()
    · exact fun m h => Post.violate hparen
  have hclose : Keeps E I (closeGroup (Exec.reduce l)) := Keeps.get.bind fun m =>
    (Keeps.applyWhile hreduce hset _ _).bind fun _ => hremove
  unfold Exec.operator operatorBy
  split
  all_goals first
    | exact hawait
    | exact hclose
    | exact hsettle
    | exact hsettle.bind fun _ => hawait

end Keeps

end Exec

/-! ## Runs as sequences of ticks -/

namespace Machine

section Ticks

variable (l : Limits) (p : Program)

/-- The machine after a number of ticks, if none of them ends the run. -/
def after? : (n : Nat) → Machine → Option Machine
  | 0, m => some m
  | n + 1, m =>
    match tick l p m with
    | .ok none m' => after? n m'
    | _ => none

end Ticks

variable {l : Limits} {p : Program} {m m' : Machine}

theorem after?_succ {n : Nat} (h : after? l p (n + 1) m = some m') :
    ∃ m₁, tick l p m = .ok none m₁ ∧ after? l p n m₁ = some m' := by
  unfold after? at h
  split at h
  · rename_i m₁ ht
    exact ⟨m₁, ht, h⟩
  · cases h

theorem after?_add (i j : Nat) (m : Machine) :
    after? l p (i + j) m = (after? l p i m).bind (after? l p j) := by
  induction i generalizing m with
  | zero => rw [Nat.zero_add]; rfl
  | succ i ih =>
    rw [Nat.add_right_comm, after?, after?]
    split
    · exact ih _
    · rfl

/-- The last tick of a sequence. -/
theorem after?_succ_last {n : Nat} (h : after? l p (n + 1) m = some m') :
    ∃ m₁, after? l p n m = some m₁ ∧ tick l p m₁ = .ok none m' := by
  rw [after?_add] at h
  obtain ⟨m₁, hm₁, hlast⟩ := Option.bind_eq_some_iff.mp h
  obtain ⟨m₂, ht, hend⟩ := after?_succ hlast
  cases hend
  exact ⟨m₁, hm₁, ht⟩

/-- What every tick keeps holds in all machines of a run. -/
theorem after?_induct {I : Machine → Prop} (htick : ∀ m m', I m → tick l p m = .ok none m' → I m')
    {n : Nat} (hm : I m) (h : after? l p n m = some m') : I m' := by
  induction n generalizing m with
  | zero =>
    cases h
    exact hm
  | succ n ih =>
    obtain ⟨m₁, ht, hrest⟩ := after?_succ h
    exact ih (htick m m₁ hm ht) hrest

/-- A run that ends does so by the tick from one of its machines. -/
theorem runFor_eq_some {fuel : Nat} {result : EStateM.Result Fault Machine Value}
    (h : runFor l p fuel m = some result) :
    ∃ n m₁, after? l p n m = some m₁ ∧ tick l p m₁ = lastTick result := by
  induction fuel generalizing m with
  | zero => cases h
  | succ fuel ih =>
    unfold runFor at h
    cases ht : tick l p m with
    | ok r m₁ =>
      cases r with
      | none =>
        rw [ht] at h
        obtain ⟨n, m₂, hn, hlast⟩ := ih h
        refine ⟨n + 1, m₂, ?_, hlast⟩
        rw [after?, ht]
        exact hn
      | some v =>
        rw [ht] at h
        cases h
        exact ⟨0, m, rfl, ht⟩
    | error f m₁ =>
      rw [ht] at h
      cases h
      exact ⟨0, m, rfl, ht⟩

/-- A tick that succeeds executes an instruction that is there. -/
theorem tick_eq_ok {r : Option Value} (h : tick l p m = .ok r m') :
    ∃ i, p.code.get? m.ip = some i ∧
      Exec.step l p i { m with ip := m.ip + 1, steps := m.steps + 1 } = .ok r m' := by
  unfold tick at h
  simp only at h
  split at h
  · cases h
  · split at h
    · cases h
    · rename_i i hi
      split at h
      · rename_i r' m₁ hs
        cases h
        exact ⟨i, hi, hs⟩
      · cases h

/-- A tick fails for want of steps, for want of an instruction, or as its instruction does, and names
the instruction. Without one, nothing but the count of steps has changed. -/
theorem tick_error_cases {f : Fault} (h : tick l p m = .error f m') :
    (∃ bound, l.maxSteps = some bound ∧ f = ⟨.stepLimitExceeded bound, some m.ip, []⟩ ∧
        m' = { m with steps := m.steps + 1 }) ∨
      (p.code.get? m.ip = none ∧ f = ⟨.defect .indexOutOfRange, none, []⟩ ∧
        m' = { m with steps := m.steps + 1 }) ∨
      ∃ i, p.code.get? m.ip = some i ∧ f = ⟨f.cause, some m.ip, []⟩ ∧
        Exec.step l p i { m with ip := m.ip + 1, steps := m.steps + 1 } = .error f.cause m' := by
  unfold tick at h
  simp only at h
  split at h
  · rename_i bound hbound
    cases h
    exact .inl ⟨bound, (Option.filter_eq_some_iff.mp hbound).1, rfl, rfl⟩
  · split at h
    · rename_i hi
      cases h
      exact .inr (.inl ⟨hi, rfl, rfl⟩)
    · rename_i i hi
      split at h
      · cases h
      · rename_i c m₁ hs
        cases h
        exact .inr (.inr ⟨i, hi, rfl, hs⟩)

theorem tick_eq_error {f : Fault} (h : tick l p m = .error f m') :
    (∃ bound, f.cause = .stepLimitExceeded bound) ∨
      (p.code.get? m.ip = none ∧ f.cause = .defect .indexOutOfRange) ∨
      ∃ i, p.code.get? m.ip = some i ∧
        Exec.step l p i { m with ip := m.ip + 1, steps := m.steps + 1 } = .error f.cause m' := by
  rcases tick_error_cases h with ⟨bound, -, rfl, -⟩ | ⟨hi, rfl, -⟩ | ⟨i, hi, -, hs⟩
  · exact .inl ⟨bound, rfl⟩
  · exact .inr (.inl ⟨hi, rfl⟩)
  · exact .inr (.inr ⟨i, hi, hs⟩)

end Machine

end StackScript
