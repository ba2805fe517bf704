import StackScript.Code

/-!
# The history of an instruction stream

A stream is written by calls (`Code.Call`) that append an instruction or patch the operands of one
that is there. Whoever keeps the index of an instruction in order to patch it later relies on what
all the calls in between leave alone.

* `Code.Call.step_cases`: all that a call can do.
* `Code.run_keeps`: what is at an index has the operands of the last patch there that succeeded, and
  stays what it is in all else.
* **`Code.append_and_patch_only`**: so a stream is what was appended to it, in order, each
  instruction with the operands of its last patch.
-/

namespace StackScript

namespace Instr

/-- What an instruction is, whatever its operands. -/
inductive Kind where
  | push
  | getGlobal
  | setGlobal
  | getLocal
  | setLocal
  | declareLocal
  | jump
  | jumpIfFalse
  | call
  | ret
  | operator
  | pop
  deriving DecidableEq, Repr

/-- The kind of an instruction. -/
def kind : Instr → Kind
  | push _ => .push
  | getGlobal _ => .getGlobal
  | setGlobal _ => .setGlobal
  | getLocal _ => .getLocal
  | setLocal _ => .setLocal
  | declareLocal => .declareLocal
  | jump _ => .jump
  | jumpIfFalse _ => .jumpIfFalse
  | call _ => .call
  | ret _ _ => .ret
  | operator _ => .operator
  | pop => .pop

/-- Operands that can be patched. -/
inductive Operands where
  | target (index : Nat)
  | offset (offset : Int)
  | counts (params locals : Nat)
  deriving DecidableEq, Repr

/-- What a patch with such operands is meant for. -/
def Operands.patchable : Operands → Code.Patchable
  | target _ => .jump
  | offset _ => .localAccess
  | counts _ _ => .ret

/-- Whether instructions of a kind have such operands. -/
def Operands.fits : Operands → Kind → Bool
  | target _, .jump | target _, .jumpIfFalse => true
  | offset _, .getLocal | offset _, .setLocal => true
  | counts _ _, .ret => true
  | _, _ => false

/-- An instruction with other operands, if it has such operands. -/
def withOperands : Instr → Operands → Instr
  | jump _, .target index => jump index
  | jumpIfFalse _, .target index => jumpIfFalse index
  | getLocal _, .offset offset => getLocal offset
  | setLocal _, .offset offset => setLocal offset
  | ret _ _, .counts params locals => ret params locals
  | i, _ => i

/-- An instruction after its last patch, if there was one. -/
def patched (i : Instr) (last : Option Operands) : Instr := last.elim i i.withOperands

@[simp] theorem kind_withOperands (i : Instr) (o : Operands) :
    (i.withOperands o).kind = i.kind := by
  cases i <;> cases o <;> rfl

@[simp] theorem kind_patched (i : Instr) (last : Option Operands) :
    (i.patched last).kind = i.kind := by
  cases last with
  | none => rfl
  | some o => exact i.kind_withOperands o

/-- Of two patches that both succeed the later one counts. -/
theorem withOperands_withOperands {i : Instr} {o : Operands} (o' : Operands) (h : o.fits i.kind) :
    (i.withOperands o').withOperands o = i.withOperands o := by
  cases i <;> cases o <;> cases h <;> cases o' <;> rfl

theorem patched_patched {i : Instr} {first last : Option Operands}
    (h : ∀ o ∈ last, o.fits i.kind) :
    (i.patched first).patched last = i.patched (last.or first) := by
  cases last with
  | none => rfl
  | some o =>
    cases first with
    | none => rfl
    | some o' => exact withOperands_withOperands o' (h o rfl)

end Instr

namespace Code

open Instr (Operands)

/-! ## Calls -/

/-- What can be done with a stream. -/
inductive Call where
  | push (i : Instr)
  | pushValue (v : Value)
  | pushOperator (op : Operator)
  | endOfExpression
  | reserveJump
  | reserveJumpIfFalse
  | patchJump (index target : Nat)
  | patchJumpHere (index : Nat)
  | patchLocal (index : Nat) (offset : Int)
  | patchReturn (index params locals : Nat)

/-- What a call answers: the index of the new instruction, or how a patch ended. -/
inductive Answer where
  | index (n : Nat)
  | done
  | refused (e : PatchError)
  deriving DecidableEq

/-- The answer that gives the index of a new instruction. -/
def afterPush : Nat × Code → Answer × Code
  | (index, c) => (.index index, c)

/-- A stream after a patch, which it survives as it is if the patch is refused. -/
def afterPatch (c : Code) : Except PatchError Code → Answer × Code
  | .ok c' => (.done, c')
  | .error e => (.refused e, c)

namespace Call

/-- The answer to a call and the stream after it. -/
def run : Call → Code → Answer × Code
  | push i, c => afterPush (c.push i)
  | pushValue v, c => afterPush (c.pushValue v)
  | pushOperator op, c => afterPush (c.pushOperator op)
  | endOfExpression, c => afterPush c.endOfExpression
  | reserveJump, c => afterPush c.reserveJump
  | reserveJumpIfFalse, c => afterPush c.reserveJumpIfFalse
  | patchJump index target, c => c.afterPatch (c.patchJump index target)
  | patchJumpHere index, c => c.afterPatch (c.patchJumpHere index)
  | patchLocal index offset, c => c.afterPatch (c.patchLocal index offset)
  | patchReturn index params locals, c => c.afterPatch (c.patchReturn index params locals)

/-- The instruction that a call appends. -/
def appends? : Call → Option Instr
  | push i => some i
  | pushValue v => some (.push v)
  | pushOperator op => some (.operator op)
  | endOfExpression => some .endOfExpression
  | reserveJump => some (.jump Instr.unpatched)
  | reserveJumpIfFalse => some (.jumpIfFalse Instr.unpatched)
  | patchJump _ _ | patchJumpHere _ | patchLocal _ _ | patchReturn _ _ _ => none

/-- The index that a patch is addressed to and the operands it brings, in a stream of a size. -/
def patches? (size : Nat) : Call → Option (Nat × Operands)
  | patchJump index target => some (index, .target target)
  | patchJumpHere index => some (index, .target size)
  | patchLocal index offset => some (index, .offset offset)
  | patchReturn index params locals => some (index, .counts params locals)
  | push _ | pushValue _ | pushOperator _ | endOfExpression | reserveJump | reserveJumpIfFalse =>
    none

end Call

/-- A call with its answer and the streams around it. -/
structure Step where
  call : Call
  before : Code
  answer : Answer
  after : Code

/-- The step of a call on a stream. -/
def Call.step (call : Call) (c : Code) : Step := ⟨call, c, (call.run c).1, (call.run c).2⟩

/-- The steps of a sequence of calls. -/
def trace : List Call → Code → List Step
  | [], _ => []
  | call :: calls, c => call.step c :: trace calls (call.step c).after

/-- The stream after a sequence of calls. -/
def run (calls : List Call) (c : Code) : Code := calls.foldl (fun c call => (call.run c).2) c

/-- The operands that a step has given to the instruction at an index. -/
def Step.operands? (index : Nat) (s : Step) : Option Operands :=
  if s.answer = .done then
    (s.call.patches? s.before.size).bind fun p => if p.1 = index then some p.2 else none
  else none

/-- The operands by the last of the steps that has given any to the instruction at an index. -/
def lastOperands? (index : Nat) (steps : List Step) : Option Operands :=
  steps.reverse.findSome? (Step.operands? index)

/-! ## What a call can do -/

section Steps

variable {c : Code} {call : Call} {index : Nat} {i : Instr} {o : Operands}

@[simp] theorem size_push (c : Code) (i : Instr) : (c.push i).2.size = c.size + 1 :=
  Array.size_push _

theorem get?_push_size (c : Code) (i : Instr) : (c.push i).2.get? c.size = some i := by
  simp [get?, push, size]

theorem get?_push_of_lt (i : Instr) (h : index < c.size) :
    (c.push i).2.get? index = c.get? index := by
  simp only [get?, push, size] at *
  rw [Array.getElem?_push, if_neg (Nat.ne_of_lt h)]

theorem lt_size_of_get? (h : c.get? index = some i) : index < c.size :=
  (Array.getElem?_eq_some_iff.mp h).1

theorem Call.run_of_appends (h : call.appends? = some i) :
    call.run c = (.index c.size, (c.push i).2) := by
  have hgrown (j : Instr) : afterPush (c.push j) = (.index c.size, (c.push j).2) := by
    rw [push_eq]
    rfl
  cases call <;> cases h <;> exact hgrown _

/-- A patch succeeds if its operands fit what it finds. -/
theorem afterPatch_patch {change : Instr → Option Instr}
    (h : ∀ i, change i = if o.fits i.kind then some (i.withOperands o) else none) :
    (∃ i, c.get? index = some i ∧ o.fits i.kind ∧
        c.afterPatch (c.patch o.patchable index change) =
          (.done, ⟨c.instrs.setIfInBounds index (i.withOperands o)⟩)) ∨
      (c.get? index).any (o.fits ·.kind) = false ∧
        c.afterPatch (c.patch o.patchable index change) =
          (.refused ⟨index, o.patchable, c.get? index⟩, c) := by
  unfold patch
  cases hi : c.get? index with
  | none => exact .inr ⟨rfl, rfl⟩
  | some i =>
    simp only [h]
    cases hfits : o.fits i.kind with
    | true => exact .inl ⟨i, rfl, hfits, rfl⟩
    | false => exact .inr ⟨hfits, rfl⟩

theorem Call.run_of_patches (h : call.patches? c.size = some (index, o)) :
    (∃ i, c.get? index = some i ∧ o.fits i.kind ∧
        call.run c = (.done, ⟨c.instrs.setIfInBounds index (i.withOperands o)⟩)) ∨
      (c.get? index).any (o.fits ·.kind) = false ∧
        call.run c = (.refused ⟨index, o.patchable, c.get? index⟩, c) := by
  cases call <;> cases h <;> exact afterPatch_patch fun i => by cases i <;> rfl

/-- Every call either appends an instruction or is a patch. -/
theorem Call.appends_or_patches (call : Call) (size : Nat) :
    (∃ i, call.appends? = some i ∧ call.patches? size = none) ∨
      ∃ index o, call.patches? size = some (index, o) ∧ call.appends? = none := by
  cases call with
  | push | pushValue | pushOperator | endOfExpression | reserveJump | reserveJumpIfFalse =>
    exact .inl ⟨_, rfl, rfl⟩
  | patchJump | patchJumpHere | patchLocal | patchReturn => exact .inr ⟨_, _, rfl, rfl⟩

/-- A step is as it should be: an instruction is appended under the index that was free, a patch
succeeds just if its operands fit what it finds, and a refused one changes nothing. -/
structure Step.Regular (s : Step) : Prop where
  appends : ∀ i, s.call.appends? = some i →
    s.answer = .index s.before.size ∧ s.after = ⟨s.before.instrs.push i⟩
  patches : ∀ index o, s.call.patches? s.before.size = some (index, o) →
    s.answer = if (s.before.get? index).any (o.fits ·.kind) then .done
      else .refused ⟨index, o.patchable, s.before.get? index⟩
  unchanged : ∀ e, s.answer = .refused e → s.after = s.before

theorem Call.step_regular (call : Call) (c : Code) : (call.step c).Regular := by
  rcases call.appends_or_patches c.size with ⟨i, happends, hnone⟩ | ⟨index, o, hpatches, hnone⟩
  · have hrun := run_of_appends (c := c) happends
    refine ⟨fun j hj => ?_, fun index o h => ?_, fun e h => ?_⟩
    · cases happends.symm.trans hj
      exact ⟨congrArg (·.1) hrun, congrArg (·.2) hrun⟩
    · cases hnone.symm.trans h
    · cases (congrArg (·.1) hrun).symm.trans h
  · refine ⟨fun i h => (by cases hnone.symm.trans h), fun index' o' h => ?_, fun e h => ?_⟩
    · cases hpatches.symm.trans h
      rcases run_of_patches hpatches with ⟨i, hi, hfits, hrun⟩ | ⟨hfits, hrun⟩
      · simp [step, hrun, hi, hfits]
      · simp [step, hrun, hfits]
    · rcases run_of_patches hpatches with ⟨i, hi, hfits, hrun⟩ | ⟨hfits, hrun⟩
      · cases (congrArg (·.1) hrun).symm.trans h
      · exact congrArg (·.2) hrun

/-- All that a step can do to a stream: append, set operands that fit, or nothing. -/
theorem Call.step_cases (call : Call) (c : Code) :
    (∃ i, call.appends? = some i ∧ (call.step c).after = (c.push i).2 ∧
        ∀ index, (call.step c).operands? index = none) ∨
      call.appends? = none ∧
        ((∃ k i o, c.get? k = some i ∧ o.fits i.kind ∧
            (call.step c).after = ⟨c.instrs.setIfInBounds k (i.withOperands o)⟩ ∧
            ∀ index, (call.step c).operands? index = if k = index then some o else none) ∨
          (call.step c).after = c ∧ ∀ index, (call.step c).operands? index = none) := by
  rcases call.appends_or_patches c.size with ⟨i, happends, -⟩ | ⟨k, o, hpatches, hnone⟩
  · have hrun := run_of_appends (c := c) happends
    exact .inl ⟨i, happends, congrArg (·.2) hrun, fun _ => by simp [step, Step.operands?, hrun]⟩
  · refine .inr ⟨hnone, ?_⟩
    rcases run_of_patches hpatches with ⟨i, hi, hfits, hrun⟩ | ⟨-, hrun⟩
    · exact .inl ⟨k, i, o, hi, hfits, congrArg (·.2) hrun,
        fun _ => by simp [step, Step.operands?, hrun, hpatches]⟩
    · exact .inr ⟨congrArg (·.2) hrun, fun _ => by simp [step, Step.operands?, hrun]⟩

/-- A step leaves what is at an index as it is, but for the operands that it brings. -/
theorem Call.step_keeps (call : Call) (h : c.get? index = some i) :
    (call.step c).after.get? index = some (i.patched ((call.step c).operands? index)) ∧
      ∀ o ∈ (call.step c).operands? index, o.fits i.kind := by
  have hlt := lt_size_of_get? h
  rcases call.step_cases c with ⟨j, -, hafter, hops⟩ | ⟨-, hset | ⟨hafter, hops⟩⟩
  · rw [hafter, hops, get?_push_of_lt j hlt]
    exact ⟨h, fun o ho => by cases ho⟩
  · obtain ⟨k, j, o, hj, hfits, hafter, hops⟩ := hset
    rw [hafter, hops]
    by_cases hk : k = index
    · subst hk
      cases h.symm.trans hj
      rw [if_pos rfl]
      refine ⟨Array.getElem?_setIfInBounds_self_of_lt hlt, ?_⟩
      rintro _ ⟨⟩
      exact hfits
    · rw [if_neg hk]
      exact ⟨(Array.getElem?_setIfInBounds_ne hk).trans h, fun o ho => by cases ho⟩
  · rw [hafter, hops]
    exact ⟨h, fun o ho => by cases ho⟩

/-- A step makes a stream longer by what it appends. -/
theorem Call.size_step (call : Call) (c : Code) :
    (call.step c).after.size = c.size + call.appends?.toList.length := by
  rcases call.step_cases c with ⟨j, happends, hafter, -⟩ | ⟨hnone, hset | ⟨hafter, -⟩⟩
  · rw [hafter, happends, size_push]
    rfl
  · obtain ⟨k, j, o, -, -, hafter, -⟩ := hset
    rw [hafter, hnone]
    exact Array.size_setIfInBounds
  · rw [hafter, hnone]
    rfl

/-- No patch succeeds where nothing is. -/
theorem Call.operands?_of_size_le (call : Call) (h : c.size ≤ index) :
    (call.step c).operands? index = none := by
  rcases call.step_cases c with ⟨j, -, -, hops⟩ | ⟨-, hset | ⟨-, hops⟩⟩
  · exact hops index
  · obtain ⟨k, j, o, hj, -, -, hops⟩ := hset
    rw [hops, if_neg (Nat.ne_of_lt (Nat.lt_of_lt_of_le (lt_size_of_get? hj) h))]
  · exact hops index

end Steps

/-! ## Histories -/

section Histories

variable {c : Code} {index : Nat} {i : Instr}

theorem lastOperands?_cons (index : Nat) (s : Step) (steps : List Step) :
    lastOperands? index (s :: steps) = (lastOperands? index steps).or (s.operands? index) := by
  rw [lastOperands?, List.reverse_cons, List.findSome?_append, List.findSome?_singleton,
    lastOperands?]

theorem run_cons (call : Call) (calls : List Call) (c : Code) :
    run (call :: calls) c = run calls (call.step c).after := rfl

theorem run_append (past future : List Call) (c : Code) :
    run (past ++ future) c = run future (run past c) := List.foldl_append

theorem trace_regular (calls : List Call) (c : Code) : ∀ s ∈ trace calls c, s.Regular := by
  induction calls generalizing c with
  | nil => exact List.forall_mem_nil _
  | cons call calls ih => exact List.forall_mem_cons.mpr ⟨call.step_regular c, ih _⟩

/-- **What is emitted keeps its kind**, and has the operands of the last patch that succeeded. -/
theorem run_keeps (calls : List Call) (h : c.get? index = some i) :
    (run calls c).get? index = some (i.patched (lastOperands? index (trace calls c))) ∧
      ∀ o ∈ lastOperands? index (trace calls c), o.fits i.kind := by
  induction calls generalizing c i with
  | nil => exact ⟨h, fun o ho => by cases ho⟩
  | cons call calls ih =>
    -- that operands fit is carried along, since only then a patch undoes all earlier ones
    obtain ⟨hstep, hfits⟩ := call.step_keeps h
    obtain ⟨hrun, hlast⟩ := ih hstep
    simp only [Instr.kind_patched] at hlast
    rw [run_cons, hrun, trace, lastOperands?_cons, Instr.patched_patched hlast]
    refine ⟨rfl, fun o ho => ?_⟩
    rcases Option.or_eq_some_iff.mp ho with ho | ⟨-, ho⟩
    · exact hlast o ho
    · exact hfits o ho

/-- The length of a stream counts what was appended. -/
theorem size_run (calls : List Call) (c : Code) :
    (run calls c).size = c.size + (calls.filterMap Call.appends?).length := by
  induction calls generalizing c with
  | nil => rfl
  | cons call calls ih =>
    rw [run_cons, ih, call.size_step]
    cases happends : call.appends? with
    | none =>
      rw [List.filterMap_cons_none happends, Option.toList_none, List.length_nil, Nat.add_zero]
    | some i =>
      rw [List.filterMap_cons_some happends, Option.toList_some, List.length_singleton,
        List.length_cons, Nat.add_assoc, Nat.add_comm 1]

/-- What is appended gets the indices behind the stream, in order. -/
theorem run_appended (calls : List Call) (c : Code) (k : Nat) :
    (run calls c).get? (c.size + k) =
      ((calls.filterMap Call.appends?)[k]?).map fun i =>
        i.patched (lastOperands? (c.size + k) (trace calls c)) := by
  induction calls generalizing c k with
  | nil => simp [run, get?, size]
  | cons call calls ih =>
    -- where nothing is yet no patch succeeds, so this step does not count for the index
    have hnone := call.operands?_of_size_le (Nat.le_add_right c.size k)
    rw [run_cons, trace, lastOperands?_cons, hnone, Option.or_none]
    rcases call.step_cases c with ⟨i, happends, hafter, -⟩ | ⟨happends, -⟩
    · rw [List.filterMap_cons_some happends]
      cases k with
      | zero =>
        have hi : (call.step c).after.get? c.size = some i := hafter ▸ get?_push_size c i
        exact (run_keeps calls hi).1
      | succ k =>
        have hsize : c.size + (k + 1) = (call.step c).after.size + k := by
          rw [hafter, size_push, Nat.add_assoc, Nat.add_comm 1 k]
        rw [hsize, ih, List.getElem?_cons_succ]
    · have hsize : (call.step c).after.size = c.size := by rw [call.size_step, happends]; rfl
      rw [List.filterMap_cons_none happends, ← hsize, ih]

/-- A stream is what was in it and what was appended, each instruction after its last patch. -/
theorem get?_run (calls : List Call) (c : Code) (index : Nat) :
    (run calls c).get? index =
      ((c.instrs.toList ++ calls.filterMap Call.appends?)[index]?).map fun i =>
        i.patched (lastOperands? index (trace calls c)) := by
  by_cases h : index < c.size
  · have hi : c.get? index = some c.instrs[index] := Array.getElem?_eq_getElem h
    have hlist : c.instrs.toList[index]? = some c.instrs[index] := Array.getElem?_toList.trans hi
    rw [(run_keeps calls hi).1, List.getElem?_append_left h, hlist, Option.map_some]
  · obtain ⟨k, rfl⟩ := Nat.exists_eq_add_of_le (Nat.le_of_not_lt h)
    have hlist : (c.instrs.toList ++ calls.filterMap Call.appends?)[c.size + k]? =
        (calls.filterMap Call.appends?)[k]? :=
      (List.getElem?_append_right (Nat.le_add_right c.size k)).trans
        (congrArg _ (Nat.add_sub_cancel_left c.size k))
    rw [run_appended, hlist]

/-- **Instructions are only appended and patched.** In every sequence of calls, each call that
appends answers the length before it, a patch succeeds just where its operands fit, and one that is
refused leaves the whole stream as it was. A stream consists of what was appended to it, in order,
each instruction with the operands of the last patch addressed to it that succeeded. From any moment
on it does not get shorter, and what is at an index keeps its kind and has other operands only by
the last such patch since. -/
theorem append_and_patch_only (c : Code) (past future : List Call) :
    (∀ s ∈ trace (past ++ future) c, s.Regular) ∧
      (∀ index, (run past c).get? index =
        ((c.instrs.toList ++ past.filterMap Call.appends?)[index]?).map fun i =>
          i.patched (lastOperands? index (trace past c))) ∧
      (run past c).size ≤ (run (past ++ future) c).size ∧
      ∀ index i, (run past c).get? index = some i →
        ∃ j, (run (past ++ future) c).get? index = some j ∧ j.kind = i.kind ∧
          j = i.patched (lastOperands? index (trace future (run past c))) := by
  refine ⟨trace_regular (past ++ future) c, get?_run past c, ?_, fun index i hi => ?_⟩
  · rw [run_append, size_run future]
    exact Nat.le_add_right _ _
  · refine ⟨_, ?_, i.kind_patched _, rfl⟩
    rw [run_append, (run_keeps future hi).1]

example :
    run [.reserveJumpIfFalse, .patchLocal 0 3, .pushValue (.int 1), .patchJump 0 7, .push .pop,
      .patchJumpHere 0, .patchReturn 9 0 0] ∅ =
      ofList [.jumpIfFalse 3, .push (.int 1), .pop] := by rfl

end Histories

end Code

end StackScript
