import StackScript.Compiler
import StackScript.Proofs.Program.Stream
import StackScript.Script.Codegen

/-!
# Drafts

Code in which operands are left open is a draft of the code that it will be. `Code.Pending` says
what is still to be done: at the indices of some fix-ups an instruction waits for its operands, and
all else is as it will be. A draft stays one while instructions are emitted behind it, open or not,
and while its jumps are set; where nothing is left to be done it is the final code
(`Pending.eq_ofList`).
-/

namespace StackScript

open Instr (Operands)

namespace Code

variable {code : Code} {final : List Instr} {index : Nat} {i : Instr} {o : Operands}

theorem patch_eq_ok {change : Instr → Option Instr}
    (h : ∀ i, change i = if o.fits i.kind then some (i.withOperands o) else none)
    (hi : code.get? index = some i) (hfits : o.fits i.kind) :
    code.patch o.patchable index change =
      .ok ⟨code.instrs.setIfInBounds index (i.withOperands o)⟩ := by
  simp only [patch, hi, h, if_pos hfits]

theorem patchJump_eq_ok {target : Nat} (hi : code.get? index = some i)
    (hfits : (Operands.target target).fits i.kind) :
    code.patchJump index target =
      .ok ⟨code.instrs.setIfInBounds index (i.withOperands (.target target))⟩ :=
  patch_eq_ok (fun i => by cases i <;> rfl) hi hfits

/-- Puts operands into the instruction at an index. -/
def patchOperands (code : Code) (index : Nat) : Operands → Except PatchError Code
  | .target target => code.patchJump index target
  | .offset offset => code.patchLocal index offset
  | .counts params locals => code.patchReturn index params locals

theorem patchOperands_eq_ok (hi : code.get? index = some i) (hfits : o.fits i.kind) :
    code.patchOperands index o =
      .ok ⟨code.instrs.setIfInBounds index (i.withOperands o)⟩ := by
  cases o with
  | target target => exact patchJump_eq_ok hi hfits
  | offset offset => exact patch_eq_ok (fun i => by cases i <;> rfl) hi hfits
  | counts params locals => exact patch_eq_ok (fun i => by cases i <;> rfl) hi hfits

/-- Code that will be `final` once the operands of the fix-ups are filled in. -/
structure Pending (fixups : List (Nat × Operands)) (code : Code) (final : List Instr) : Prop where
  size : code.size = final.length
  waits : ∀ x ∈ fixups, ∃ i, code.get? x.1 = some i ∧ x.2.fits i.kind ∧
    final[x.1]? = some (i.withOperands x.2)
  rest : ∀ index, (∀ x ∈ fixups, x.1 ≠ index) → code.get? index = final[index]?

namespace Pending

variable {fixups fixups' : List (Nat × Operands)}

theorem of_ofList (final : List Instr) : Pending [] (.ofList final) final where
  size := by simp [Code.size, ofList]
  waits := fun _ hx => by cases hx
  rest := fun index _ => by simp [get?, ofList]

theorem eq_ofList (h : Pending [] code final) : code = .ofList final := by
  have hget : ∀ index, code.get? index = final[index]? := fun index =>
    h.rest index fun _ hx => by cases hx
  obtain ⟨instrs⟩ := code
  refine congrArg Code.mk (Array.ext_getElem? fun index => ?_)
  exact (hget index).trans List.getElem?_toArray.symm

/-- What waits has been emitted. -/
theorem lt_size (h : Pending fixups code final) {x : Nat × Operands} (hx : x ∈ fixups) :
    x.1 < code.size := by
  obtain ⟨i, hi, -, -⟩ := h.waits x hx
  exact lt_size_of_get? hi

/-- An instruction is emitted, and with it perhaps a fix-up that makes it what it will be. -/
theorem push (h : Pending fixups code final) {added : List (Nat × Operands)} {j : Instr}
    (hadded : added = [] ∧ j = i ∨
      ∃ o, added = [(code.size, o)] ∧ o.fits i.kind ∧ j = i.withOperands o)
    (hmem : ∀ x, x ∈ fixups' ↔ x ∈ fixups ∨ x ∈ added) :
    Pending fixups' (code.push i).2 (final ++ [j]) := by
  refine ⟨by rw [size_push, h.size, List.length_append, List.length_singleton], fun x hx => ?_,
    fun index hindex => ?_⟩
  · rcases (hmem x).mp hx with hold | hnew
    · have hlt := h.lt_size hold
      obtain ⟨k, hk, hfits, hfinal⟩ := h.waits x hold
      refine ⟨k, (get?_push_of_lt i hlt).trans hk, hfits, ?_⟩
      rw [List.getElem?_append_left (h.size ▸ hlt), hfinal]
    · rcases hadded with ⟨rfl, -⟩ | ⟨o, rfl, hfits, rfl⟩
      · cases hnew
      · obtain rfl := List.mem_singleton.mp hnew
        refine ⟨i, get?_push_size code i, hfits, ?_⟩
        rw [h.size, List.getElem?_concat_length]
  · have hold : ∀ x ∈ fixups, x.1 ≠ index := fun x hx => hindex x ((hmem x).mpr (.inl hx))
    rcases Nat.lt_trichotomy index code.size with hlt | rfl | hgt
    · rw [get?_push_of_lt i hlt, h.rest index hold, List.getElem?_append_left (h.size ▸ hlt)]
    · rcases hadded with ⟨-, rfl⟩ | ⟨o, rfl, -, -⟩
      · rw [get?_push_size, h.size, List.getElem?_concat_length]
      · exact absurd rfl (hindex _ ((hmem _).mpr (.inr (List.mem_singleton_self _))))
    · have hleft : (code.push i).2.get? index = none :=
        Array.getElem?_eq_none (by change (code.push i).2.size ≤ index; rw [size_push]; omega)
      have hright : (final ++ [j]).length ≤ index := by
        rw [List.length_append, List.length_singleton, ← h.size]
        omega
      rw [hleft, List.getElem?_eq_none hright]

/-- Nothing waits at an index where the final instruction could not have waited. -/
theorem ne_of_not_fits (h : Pending fixups code final) (hi : final[index]? = some i)
    (hnot : ∀ x ∈ fixups, x.2.fits i.kind = false) : ∀ x ∈ fixups, x.1 ≠ index := by
  rintro x hx rfl
  obtain ⟨k, -, hfits, hfinal⟩ := h.waits x hx
  rw [hi] at hfinal
  cases hfinal
  have hno := hnot x hx
  rw [Instr.kind_withOperands, hfits] at hno
  cases hno

theorem get?_of_not_fits (h : Pending fixups code final) (hi : final[index]? = some i)
    (hnot : ∀ x ∈ fixups, x.2.fits i.kind = false) : code.get? index = some i :=
  (h.rest index (h.ne_of_not_fits hi hnot)).trans hi

theorem get?_set_self {j : Instr} (hlt : index < code.size) :
    (Code.mk (code.instrs.setIfInBounds index j)).get? index = some j :=
  Array.getElem?_setIfInBounds_self_of_lt hlt

theorem get?_set_ne {j : Instr} {index' : Nat} (hne : index ≠ index') :
    (Code.mk (code.instrs.setIfInBounds index j)).get? index' = code.get? index' :=
  Array.getElem?_setIfInBounds_ne hne

/-- An instruction for which nothing waits is changed in the draft and in the final code. -/
theorem set (h : Pending fixups code final) {j : Instr} (hi : final[index]? = some i)
    (hnot : ∀ x ∈ fixups, x.2.fits i.kind = false) :
    Pending fixups ⟨code.instrs.setIfInBounds index j⟩ (final.set index j) := by
  have hlt : index < code.size := lt_size_of_get? (h.get?_of_not_fits hi hnot)
  have hne : ∀ x ∈ fixups, index ≠ x.1 := fun x hx => (h.ne_of_not_fits hi hnot x hx).symm
  refine ⟨?_, fun x hx => ?_, fun index' hindex' => ?_⟩
  · rw [List.length_set, ← h.size]
    exact Array.size_setIfInBounds
  · obtain ⟨k, hk, hfits, hfinal⟩ := h.waits x hx
    refine ⟨k, (get?_set_ne (hne x hx)).trans hk, hfits, ?_⟩
    rw [List.getElem?_set_ne (hne x hx), hfinal]
  · by_cases hsame : index = index'
    · subst hsame
      rw [get?_set_self hlt, List.getElem?_set_self (h.size ▸ hlt)]
    · rw [get?_set_ne hsame, List.getElem?_set_ne hsame, h.rest index' hindex']

/-- The first fix-up is made. -/
theorem patch {x : Nat × Operands} (h : Pending (x :: fixups) code final) :
    ∃ code', code.patchOperands x.1 x.2 = .ok code' ∧ Pending fixups code' final := by
  obtain ⟨i, hi, hfits, hfinal⟩ := h.waits x List.mem_cons_self
  have hlt := lt_size_of_get? hi
  refine ⟨_, patchOperands_eq_ok hi hfits, ?_, fun y hy => ?_, fun index hindex => ?_⟩
  · rw [← h.size]
    exact Array.size_setIfInBounds
  · obtain ⟨k, hk, hkfits, hkfinal⟩ := h.waits y (List.mem_cons_of_mem _ hy)
    by_cases hsame : x.1 = y.1
    · -- a second fix-up at the same index finds what the first one has made, which it also makes
      rw [← hsame] at hk hkfinal ⊢
      cases hi.symm.trans hk
      refine ⟨_, get?_set_self hlt, by rwa [Instr.kind_withOperands], ?_⟩
      rw [Instr.withOperands_withOperands x.2 hkfits, hkfinal]
    · exact ⟨k, (get?_set_ne hsame).trans hk, hkfits, hkfinal⟩
  · by_cases hsame : x.1 = index
    · subst hsame
      rw [get?_set_self hlt, hfinal]
    · rw [get?_set_ne hsame]
      refine h.rest index fun y hy => ?_
      rcases List.mem_cons.mp hy with rfl | hy
      · exact hsame
      · exact hindex y hy

end Pending

end Code

end StackScript
