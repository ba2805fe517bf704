import StackScript.Proofs.Machine.Activation

/-!
# Machines that follow evaluations

`Follows` relates a machine to the outcome of an evaluation. If the evaluation gives a value, the
machine comes to a state that a postcondition describes; if it fails, the machine fails in the same
way and with the same globals; and if the fuel does not suffice, the machine goes on for at least a
given number of ticks. The rules follow the structure of evaluations (`Follows.pure`,
`Follows.bind`) and of runs (`Follows.next`, `Follows.tick`).
-/

namespace StackScript

namespace Eval

variable {α β : Type}

/-- How an evaluation goes on after another. -/
theorem bind_apply (x : Eval α) (f : α → Eval β) (s : Store) :
    (x >>= f) s = match x s with
      | none => none
      | some (.ok a, s') => f a s'
      | some (.error c, s') => some (.error c, s') := by
  show (x s).bind _ = _
  cases x s with
  | none => rfl
  | some r =>
    obtain ⟨r, s'⟩ := r
    cases r <;> rfl

theorem ofExcept_bind (x : Except Cause α) (f : α → Except Cause β) :
    ofExcept (x >>= f) = (do ofExcept (f (← ofExcept x))) := by
  funext s
  rw [bind_apply]
  cases x <;> rfl

end Eval

open Machine

/-- A machine follows the outcome of an evaluation: to a state that `Q` describes, to the same
failure, or for at least `n` ticks if there is no outcome. -/
def Follows {α : Type} (p : Program) (n : Nat) (m : Machine)
    (outcome : Option (Except Cause α × Store)) (Q : α → Store → Machine → Prop) : Prop :=
  match outcome with
  | none => ∃ m', Steps p n m m'
  | some (.ok x, s) => ∃ k m', Steps p k m m' ∧ Q x s m'
  | some (.error c, s) => ∃ k m', Steps p k m m' ∧ Fails p m' c s

namespace Follows

variable {α β : Type} {p : Program} {n : Nat} {m m' : Machine}
  {outcome : Option (Except Cause α × Store)} {Q R : α → Store → Machine → Prop}

theorem pure {x : α} {s : Store} (h : Q x s m) : Follows p n m ((Pure.pure x : Eval α) s) Q :=
  ⟨0, m, .refl m, h⟩

theorem mono (h : Follows p n m outcome Q) (hQ : ∀ x s m', Q x s m' → R x s m') :
    Follows p n m outcome R := by
  match outcome, h with
  | none, h => exact h
  | some (.ok x, s), ⟨k, m', hs, hq⟩ => exact ⟨k, m', hs, hQ x s m' hq⟩
  | some (.error c, s), h => exact h

/-- A tick before counts where there is no outcome. -/
theorem tick (ht : Next p m (.ok none m')) (h : Follows p n m' outcome Q) :
    Follows p (n + 1) m outcome Q := by
  match outcome, h with
  | none, ⟨m₂, hs⟩ => exact ⟨m₂, .step ht hs⟩
  | some (.ok x, s), ⟨k, m₂, hs, hq⟩ => exact ⟨k + 1, m₂, .step ht hs, hq⟩
  | some (.error c, s), ⟨k, m₂, hs, hf⟩ => exact ⟨k + 1, m₂, .step ht hs, hf⟩

theorem weaken {i : Nat} (h : Follows p n m outcome Q) (hi : i ≤ n) : Follows p i m outcome Q := by
  match outcome, h with
  | none, ⟨m', hs⟩ => exact hs.first hi
  | some (.ok x, s), h => exact h
  | some (.error c, s), h => exact h

theorem next (ht : Next p m (.ok none m')) (h : Follows p n m' outcome Q) :
    Follows p n m outcome Q :=
  (h.tick ht).weaken (Nat.le_succ n)

/-- Ticks before change nothing. -/
theorem steps {k : Nat} (hs : Steps p k m m') (h : Follows p n m' outcome Q) :
    Follows p n m outcome Q := by
  induction hs with
  | refl m => exact h
  | step ht _ ih => exact next ht (ih h)

/-- Ticks after an outcome belong to it. -/
theorem onwards (h : Follows p n m outcome Q)
    (hQ : ∀ x s m', Q x s m' → ∃ k m'', Steps p k m' m'' ∧ R x s m'') :
    Follows p n m outcome R := by
  match outcome, h with
  | none, h => exact h
  | some (.ok x, s), ⟨k, m', hs, hq⟩ =>
    obtain ⟨k', m'', hs', hr⟩ := hQ x s m' hq
    exact ⟨k + k', m'', hs.trans hs', hr⟩
  | some (.error c, s), h => exact h

/-- **A machine that follows an evaluation, and from there on what comes after it, follows both in
sequence.** -/
theorem bind {x : Eval α} {f : α → Eval β} {s : Store} {R : β → Store → Machine → Prop}
    (hx : Follows p n m (x s) Q)
    (hf : ∀ a s' m', Q a s' m' → Follows p n m' (f a s') R) :
    Follows p n m ((x >>= f) s) R := by
  rw [Eval.bind_apply]
  match x s, hx with
  | none, h => exact h
  | some (.ok a, s'), ⟨k, m', hs, hq⟩ => exact steps hs (hf a s' m' hq)
  | some (.error c, s'), h => exact h

/-- The next tick takes over the outcome of operators. -/
theorem closes {r : Except Cause Value} {after : Value → Machine} {s : Store}
    {Q : Value → Store → Machine → Prop} (h : Closes p m r after s) (hQ : ∀ v, Q v s (after v)) :
    Follows p n m (Eval.ofExcept r s) Q := by
  match r, h with
  | .ok v, h => exact ⟨1, after v, .step h (.refl _), hQ v⟩
  | .error c, h => exact ⟨0, m, .refl m, h⟩

end Follows

/-! ## Code in place -/

/-- The instructions of a list stand in a program, one after another from an index on. -/
def CodeAt (p : Program) (index : Nat) (code : List Instr) : Prop :=
  ∀ j i, code[j]? = some i → p.code.get? (index + j) = some i

namespace CodeAt

variable {p : Program} {index : Nat} {i : Instr} {c₁ c₂ : List Instr}

theorem left (h : CodeAt p index (c₁ ++ c₂)) : CodeAt p index c₁ := by
  intro j i hj
  refine h j i ?_
  rw [List.getElem?_append_left (List.getElem?_eq_some_iff.mp hj).1, hj]

theorem right (h : CodeAt p index (c₁ ++ c₂)) : CodeAt p (index + c₁.length) c₂ := by
  intro j i hj
  rw [Nat.add_assoc]
  refine h _ i ?_
  rw [List.getElem?_append_right (Nat.le_add_right _ _), Nat.add_sub_cancel_left, hj]

theorem head (h : CodeAt p index (i :: c₁)) : p.code.get? index = some i := h 0 i rfl

theorem tail (h : CodeAt p index (i :: c₁)) : CodeAt p (index + 1) c₁ := by
  have h' : CodeAt p index ([i] ++ c₁) := h
  exact h'.right

theorem ofList {code : List Instr} {globals : List String} {functions : List FunctionEntry} :
    CodeAt ⟨.ofList code, globals, functions⟩ 0 code := by
  intro j i hj
  simpa [Code.get?, Code.ofList] using hj

end CodeAt

end StackScript
