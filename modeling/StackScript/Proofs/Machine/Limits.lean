import StackScript.Machine.Run

/-!
# Limits only cut runs short

A limit never changes what a tick does, it can only end the run with a cause of its own
(`Limits.Cuts`): `tick_below` compares a tick under two limits of which one is larger. What a tick
does when no limit stops it is therefore a notion of its own, `Machine.Next`, and a run can be
described by it without naming limits (`Machine.Steps`). The results bring such a description back
to a run under limits:

* `runFor_of_steps`: under any limits a run either takes the described steps or is cut;
* `runFor_of_steps_enough`: under all sufficiently large limits it takes them.
-/

namespace StackScript

/-- The causes by which limits end a run. -/
def Limits.Cuts (limits : Limits) : Cause → Prop
  | .stackOverflow n => n = limits.maxStack
  | .callDepthExceeded n => n = limits.maxDepth
  | .stepLimitExceeded n => limits.maxSteps = some n
  | _ => False

/-- The limits `l'` allow whatever `l` allow. -/
structure Limits.Below (l l' : Limits) : Prop where
  stack : l.maxStack ≤ l'.maxStack
  depth : l.maxDepth ≤ l'.maxDepth
  steps : l'.maxSteps = none ∨ l'.maxSteps = l.maxSteps

namespace Exec

variable {α β : Type} {l l' : Limits}

/-- `x` does what `y` does, unless `l` cuts it. -/
def CutBy (l : Limits) (x y : Exec α) : Prop :=
  ∀ m, x m = y m ∨ ∃ c m', x m = .error c m' ∧ l.Cuts c

theorem CutBy.refl (x : Exec α) : CutBy l x x := fun _ => Or.inl rfl

theorem CutBy.bind {x y : Exec α} {f g : α → Exec β} (hx : CutBy l x y)
    (hf : ∀ a, CutBy l (f a) (g a)) : CutBy l (x >>= f) (y >>= g) := by
  intro m
  show EStateM.bind x f m = EStateM.bind y g m ∨ ∃ c m', EStateM.bind x f m = .error c m' ∧ l.Cuts c
  unfold EStateM.bind
  rcases hx m with h | ⟨c, m', h, hc⟩
  · rw [h]
    cases y m with
    | ok a m₁ => exact hf a m₁
    | error c m₁ => exact Or.inl rfl
  · rw [h]
    exact Or.inr ⟨c, m', rfl, hc⟩

theorem cutBy_pushCell (h : l.Below l') (c : Cell) : CutBy l (pushCell l c) (pushCell l' c) := by
  intro m
  unfold pushCell
  by_cases hl : m.stack.size < l.maxStack
  · have hl' : m.stack.size < l'.maxStack := Nat.lt_of_lt_of_le hl h.stack
    rw [if_pos hl, if_pos hl']
    exact Or.inl rfl
  · rw [if_neg hl]
    exact Or.inr ⟨_, _, rfl, rfl⟩

theorem cutBy_push (h : l.Below l') (v : Value) : CutBy l (push l v) (push l' v) :=
  cutBy_pushCell h _

theorem cutBy_reduce (h : l.Below l') (op : Operator) : CutBy l (reduce l op) (reduce l' op) := by
  unfold reduce
  split
  · exact (CutBy.refl _).bind fun v => (CutBy.refl _).bind fun w => cutBy_push h w
  · exact (CutBy.refl _).bind fun b => (CutBy.refl _).bind fun a =>
      (CutBy.refl _).bind fun w => cutBy_push h w

theorem cutBy_applyWhile (h : l.Below l') (test : Operator → Bool) (ops : List Operator) :
    CutBy l (applyWhile (reduce l) test ops) (applyWhile (reduce l') test ops) := by
  induction ops with
  | nil => exact CutBy.refl _
  | cons op rest ih =>
    unfold applyWhile
    split
    · exact (CutBy.refl _).bind fun _ => (cutBy_reduce h op).bind fun _ => ih
    · exact CutBy.refl _

theorem cutBy_settle (h : l.Below l') (op : Operator) :
    CutBy l (settle (reduce l) op) (settle (reduce l') op) :=
  (CutBy.refl _).bind fun _ => cutBy_applyWhile h _ _

theorem cutBy_closeGroup (h : l.Below l') :
    CutBy l (closeGroup (reduce l)) (closeGroup (reduce l')) :=
  (CutBy.refl _).bind fun _ => (cutBy_applyWhile h _ _).bind fun _ => CutBy.refl _

theorem cutBy_operator (h : l.Below l') (op : Operator) :
    CutBy l (operator l op) (operator l' op) := by
  unfold operator operatorBy
  split
  all_goals first
    | exact CutBy.refl _
    | exact cutBy_closeGroup h
    | exact cutBy_settle h _
    | exact (cutBy_settle h _).bind fun _ => CutBy.refl _

/-- Opening a frame, once the depth of calls has been checked. -/
theorem cutBy_frame (h : l.Below l') (p : Program) (target : Nat) :
    CutBy l
      (do
        pushCell l (.returnAddress (← get).ip)
        pushCell l (.savedBase (← get).base)
        enter (callName p target) target)
      (do
        pushCell l' (.returnAddress (← get).ip)
        pushCell l' (.savedBase (← get).base)
        enter (callName p target) target) :=
  (CutBy.refl _).bind fun _ => (cutBy_pushCell h _).bind fun _ =>
    (CutBy.refl _).bind fun _ => (cutBy_pushCell h _).bind fun _ => CutBy.refl _

theorem cutBy_call (h : l.Below l') (p : Program) (target : Nat) :
    CutBy l (call l p target) (call l' p target) := by
  unfold call
  refine (CutBy.refl _).bind fun m => ?_
  by_cases hl : l.maxDepth ≤ m.calls.size
  · rw [if_pos hl]
    exact fun m' => Or.inr ⟨_, m', rfl, rfl⟩
  · have hl' : ¬ l'.maxDepth ≤ m.calls.size := fun h' => hl (Nat.le_trans h.depth h')
    rw [if_neg hl, if_neg hl']
    exact cutBy_frame h p target

theorem cutBy_unwind (h : l.Below l') (params locals : Nat) :
    CutBy l (unwind l params locals) (unwind l' params locals) := by
  unfold unwind
  refine (CutBy.refl _).bind fun result => (CutBy.refl _).bind fun m => ?_
  have tail : CutBy l
      (do drop locals; restoreBase; restoreAddress; drop params; leave; push l result)
      (do drop locals; restoreBase; restoreAddress; drop params; leave; push l' result) :=
    (CutBy.refl _).bind fun _ => (CutBy.refl _).bind fun _ => (CutBy.refl _).bind fun _ =>
      (CutBy.refl _).bind fun _ => (CutBy.refl _).bind fun _ => cutBy_push h result
  split
  · exact (CutBy.refl _).bind fun _ => tail
  · exact tail

theorem cutBy_ret (h : l.Below l') (params locals : Nat) :
    CutBy l (ret l params locals) (ret l' params locals) := by
  unfold ret
  refine (CutBy.refl _).bind fun m => ?_
  split
  · exact (CutBy.refl _).bind fun _ => (cutBy_unwind h params locals).bind fun _ => CutBy.refl _
  · exact CutBy.refl _

theorem cutBy_step (h : l.Below l') (p : Program) (i : Instr) :
    CutBy l (step l p i) (step l' p i) := by
  have andNone {x y : Exec Unit} (hx : CutBy l x y) :
      CutBy l (do x; return (none : Option Value)) (do y; return none) :=
    hx.bind fun _ => CutBy.refl _
  cases i with
  | push v => exact andNone (cutBy_push h v)
  | getGlobal slot => exact (CutBy.refl _).bind fun v => andNone (cutBy_push h v)
  | setGlobal slot => exact CutBy.refl _
  | getLocal offset => exact (CutBy.refl _).bind fun v => andNone (cutBy_push h v)
  | setLocal offset => exact CutBy.refl _
  | declareLocal => exact andNone (cutBy_push h _)
  | jump target => exact CutBy.refl _
  | jumpIfFalse target => exact CutBy.refl _
  | call target => exact andNone (cutBy_call h p target)
  | ret params locals => exact cutBy_ret h params locals
  | operator op => exact andNone (cutBy_operator h op)
  | pop => exact CutBy.refl _

end Exec

namespace Machine

variable {p : Program} {l l' : Limits}

/-- **A limit changes nothing but the end of a run**: under larger limits a tick does the same,
unless the smaller ones cut it. -/
theorem tick_below (h : l.Below l') (m : Machine) :
    tick l p m = tick l' p m ∨ ∃ f m', tick l p m = .error f m' ∧ l.Cuts f.cause := by
  unfold tick
  cases hl : exceeded? l (m.steps + 1) with
  | some bound =>
    obtain ⟨hb, -⟩ := Option.filter_eq_some_iff.mp hl
    simp only [hl]
    exact Or.inr ⟨_, _, rfl, hb⟩
  | none =>
    have hl' : exceeded? l' (m.steps + 1) = none := by
      rcases h.steps with h | h
      · simp [exceeded?, h]
      · rw [← hl, exceeded?, exceeded?, h]
    simp only [hl, hl']
    cases p.code.get? m.ip with
    | none => exact Or.inl rfl
    | some i =>
      simp only
      rcases Exec.cutBy_step h p i { m with steps := m.steps + 1, ip := m.ip + 1 } with
        he | ⟨c, m', he, hc⟩
      · rw [he]
        exact Or.inl rfl
      · rw [he]
        exact Or.inr ⟨_, _, rfl, hc⟩

/-! ## Ticks that no limit stops -/

/-- What the next tick gives when no limit stops it. -/
def Next (p : Program) (m : Machine) (r : EStateM.Result Fault Machine (Option Value)) : Prop :=
  ∃ l : Limits, l.maxSteps = none ∧ tick l p m = r ∧
    ∀ f m', r = .error f m' → ∀ l : Limits, ¬ l.Cuts f.cause

/-- Under sufficiently large limits the next tick is as described. -/
theorem Next.enough {m : Machine} {r : EStateM.Result Fault Machine (Option Value)}
    (h : Next p m r) :
    ∃ bound : Nat, ∀ l : Limits, bound ≤ l.maxStack → bound ≤ l.maxDepth → l.maxSteps = none →
      tick l p m = r := by
  obtain ⟨l₀, hs, ht, hcut⟩ := h
  refine ⟨max l₀.maxStack l₀.maxDepth, fun l hS hD hn => ?_⟩
  have hbelow : l₀.Below l := ⟨by omega, by omega, Or.inl hn⟩
  rcases tick_below (p := p) hbelow m with he | ⟨f, m', he, hc⟩
  · rw [← he, ht]
  · exact absurd hc (hcut f m' (ht.symm.trans he) l₀)

/-- Under any limits the next tick is as described or cut. -/
theorem Next.tick {m : Machine} {r : EStateM.Result Fault Machine (Option Value)}
    (h : Next p m r) (l : Limits) :
    tick l p m = r ∨ ∃ f m', tick l p m = .error f m' ∧ l.Cuts f.cause := by
  obtain ⟨bound, hb⟩ := h.enough
  have hbelow : l.Below ⟨max l.maxStack bound, max l.maxDepth bound, none⟩ :=
    ⟨Nat.le_max_left _ _, Nat.le_max_left _ _, Or.inl rfl⟩
  rcases tick_below (p := p) hbelow m with he | he
  · exact Or.inl (he.trans (hb _ (Nat.le_max_right _ _) (Nat.le_max_right _ _) rfl))
  · exact Or.inr he

/-- A number of ticks, none of which ends the run. -/
inductive Steps (p : Program) : Nat → Machine → Machine → Prop where
  | refl (m : Machine) : Steps p 0 m m
  | step {n : Nat} {m m₁ m₂ : Machine} (h : Next p m (.ok none m₁)) (hs : Steps p n m₁ m₂) :
      Steps p (n + 1) m m₂

theorem Steps.trans {i j : Nat} {m₁ m₂ m₃ : Machine} (h₁ : Steps p i m₁ m₂)
    (h₂ : Steps p j m₂ m₃) : Steps p (i + j) m₁ m₃ := by
  induction h₁ with
  | refl m => rwa [Nat.zero_add]
  | step h hs ih =>
    rw [Nat.add_right_comm]
    exact .step h (ih h₂)

/-- The first ticks of some ticks. -/
theorem Steps.first {i : Nat} :
    ∀ {j : Nat} {m m' : Machine}, Steps p j m m' → i ≤ j → ∃ m₁, Steps p i m m₁ := by
  induction i with
  | zero => exact fun _ _ => ⟨_, .refl _⟩
  | succ i ih =>
    intro j m m' h hij
    cases h with
    | refl => exact absurd hij (by omega)
    | step h hs =>
      obtain ⟨m₁, h₁⟩ := ih hs (by omega)
      exact ⟨m₁, .step h h₁⟩

/-- **Under any limits a run takes the described steps or is cut.** -/
theorem runFor_of_steps {n : Nat} {m m' : Machine} (h : Steps p n m m') (l : Limits) (fuel : Nat) :
    runFor l p (n + fuel) m = runFor l p fuel m' ∨
      ∃ f m'', runFor l p (n + fuel) m = some (.error f m'') ∧ l.Cuts f.cause := by
  induction h with
  | refl m => exact Or.inl (by rw [Nat.zero_add])
  | step h hs ih =>
    rw [Nat.add_right_comm, runFor]
    rcases h.tick l with ht | ⟨f, m'', ht, hc⟩
    · rw [ht]
      exact ih
    · rw [ht]
      exact Or.inr ⟨f, m'', rfl, hc⟩

/-- **Under sufficiently large limits a run takes the described steps.** -/
theorem runFor_of_steps_enough {n : Nat} {m m' : Machine} (h : Steps p n m m') :
    ∃ bound : Nat, ∀ l : Limits, bound ≤ l.maxStack → bound ≤ l.maxDepth → l.maxSteps = none →
      ∀ fuel, runFor l p (n + fuel) m = runFor l p fuel m' := by
  induction h with
  | refl m => exact ⟨0, fun l _ _ _ fuel => by rw [Nat.zero_add]⟩
  | step h hs ih =>
    obtain ⟨b₁, h₁⟩ := h.enough
    obtain ⟨b₂, h₂⟩ := ih
    refine ⟨max b₁ b₂, fun l hS hD hn fuel => ?_⟩
    have ht := h₁ l (by omega) (by omega) hn
    rw [Nat.add_right_comm, runFor, ht]
    exact h₂ l (by omega) (by omega) hn fuel

end Machine

end StackScript
