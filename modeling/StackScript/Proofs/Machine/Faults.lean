import Mathlib.Data.List.Basic
import StackScript.Proofs.Machine.Post

/-!
# How programs fail

A program that passes the check may still be anything: its operators need not fit their operands and
its stack need not hold what they look for. It can fail by what it computes, by a limit or by a
violation of the stack discipline (`Limits.Admits`), and in no other way. In particular it never
looks into a value of the wrong type, since operators are typed before they are applied, and nothing
else takes a value apart but a conditional jump, which has a cause of its own.

* `Exec.within_step`: every instruction, from any machine, fails by an admitted cause;
* **`typing_decides`**: typing and evaluation agree on all operators and values, and no run of a
  checked program fails by a type mismatch.
-/

namespace StackScript

/-- The causes by which a machine can fail, whatever it runs: what the program computes, a limit or
a violation of the stack discipline. -/
def Limits.Admits (l : Limits) (c : Cause) : Prop :=
  c.IsOwn ∨ l.Cuts c ∨ ∃ d, c = .defect d

theorem Limits.Admits.ne_typeMismatch {l : Limits} {c : Cause} (h : l.Admits c)
    (expected found : ValueType) : c ≠ .typeMismatch expected found := by
  rintro rfl
  rcases h with hown | hcut | ⟨d, hd⟩
  · exact hown
  · exact hcut
  · cases hd

namespace Exec

variable {α : Type} {l : Limits} {p : Program}

/-- From any machine a computation fails only by causes that are admitted. -/
abbrev FailsWithin (l : Limits) (x : Exec α) : Prop := Keeps l.Admits (fun _ => True) x

theorem admits_defect (d : Defect) : l.Admits (.defect d) := .inr (.inr ⟨d, rfl⟩)

theorem admits_stackOverflow : l.Admits (.stackOverflow l.maxStack) := .inr (.inl rfl)

theorem within_violate (d : Defect) : FailsWithin l (violate d : Exec α) :=
  fun _ _ => admits_defect d

theorem within_push (v : Value) : FailsWithin l (push l v) :=
  fun _ _ => Post.pushCell admits_stackOverflow fun _ => trivial

theorem within_popCell : FailsWithin l popCell :=
  fun _ _ => Post.popCell (admits_defect _) fun _ _ _ => trivial

theorem within_pop : FailsWithin l pop :=
  fun _ _ => Post.pop (admits_defect _) (fun _ => admits_defect _) fun _ _ _ => trivial

theorem within_getGlobal (slot : Nat) : FailsWithin l (getGlobal slot) :=
  fun _ _ => Post.getGlobal (fun _ => admits_defect _) fun _ => trivial

theorem within_setGlobal (slot : Nat) (v : Value) : FailsWithin l (setGlobal slot v) :=
  fun _ _ => Post.setGlobal (fun _ => admits_defect _) trivial

theorem within_getLocal (offset : Int) : FailsWithin l (getLocal offset) :=
  fun _ _ => Post.getLocal (fun _ => admits_defect _) (fun _ => admits_defect _) fun _ => trivial

theorem within_setLocal (offset : Int) (v : Value) : FailsWithin l (setLocal offset v) :=
  fun _ _ => Post.setLocal (fun _ => admits_defect _) (fun _ => admits_defect _)
    fun _ _ _ _ => trivial

theorem within_operator (op : Operator) : FailsWithin l (operator l op) :=
  Keeps.operator (Keeps.reduce within_pop within_push fun _ hown => .inl hown)
    (fun _ _ _ => trivial) (admits_defect _) op

theorem within_jumpIfFalse (target : Nat) : FailsWithin l (jumpIfFalse target) := by
  refine within_pop.bind fun v => ?_
  split
  · exact .pure ()
  · exact fun _ _ => trivial
  · exact fun _ _ => .inl trivial

theorem within_call (target : Nat) : FailsWithin l (call l p target) :=
  fun _ _ => Post.call (.inr (.inl rfl)) admits_stackOverflow fun _ _ => trivial

theorem within_restoreBase : FailsWithin l restoreBase := by
  refine within_popCell.bind fun c => ?_
  cases c with
  | savedBase base => exact fun _ _ => trivial
  | value v => exact within_violate _
  | returnAddress index => exact within_violate _

theorem within_restoreAddress : FailsWithin l restoreAddress := by
  refine within_popCell.bind fun c => ?_
  cases c with
  | returnAddress index => exact fun _ _ => trivial
  | value v => exact within_violate _
  | savedBase base => exact within_violate _

theorem within_unwind (params locals : Nat) : FailsWithin l (unwind l params locals) := by
  refine within_pop.bind fun result => Keeps.get.bind fun m => ?_
  have hleave : FailsWithin l leave := fun _ _ => trivial
  have hrest : FailsWithin l
      (do drop locals; restoreBase; restoreAddress; drop params; leave; push l result) :=
    (Keeps.drop within_pop locals).bind fun _ => within_restoreBase.bind fun _ =>
      within_restoreAddress.bind fun _ => (Keeps.drop within_pop params).bind fun _ =>
        hleave.bind fun _ => within_push result
  split
  · exact (within_violate _).bind fun _ => hrest
  · exact hrest

theorem within_finish : FailsWithin l finish := by
  refine within_pop.bind fun result => Keeps.get.bind fun m => ?_
  split
  · exact .pure result
  · exact within_violate _

theorem within_ret (params locals : Nat) : FailsWithin l (ret l params locals) := by
  refine Keeps.get.bind fun m => ?_
  split
  · have hset (ops : List Operator) : FailsWithin l (setOperators ops) := fun _ _ => trivial
    exact (hset _).bind fun _ => (within_unwind params locals).bind fun _ => .pure none
  · exact within_finish.bind fun v => .pure (some v)

/-- **Every instruction fails by an admitted cause**, whatever program it is part of. -/
theorem within_step (i : Instr) : FailsWithin l (step l p i) := by
  cases i with
  | push v => exact (within_push v).bind fun _ => .pure none
  | getGlobal slot =>
    exact (within_getGlobal slot).bind fun v => (within_push v).bind fun _ => .pure none
  | setGlobal slot =>
    exact within_pop.bind fun v => (within_setGlobal slot v).bind fun _ => .pure none
  | getLocal offset =>
    exact (within_getLocal offset).bind fun v => (within_push v).bind fun _ => .pure none
  | setLocal offset =>
    exact within_pop.bind fun v => (within_setLocal offset v).bind fun _ => .pure none
  | declareLocal => exact (within_push .undefined).bind fun _ => .pure none
  | jump target => exact fun _ _ => trivial
  | jumpIfFalse target => exact (within_jumpIfFalse target).bind fun _ => .pure none
  | call target => exact (within_call target).bind fun _ => .pure none
  | ret params locals => exact within_ret params locals
  | operator op => exact (within_operator op).bind fun _ => .pure none
  | pop => exact within_pop.bind fun _ => .pure none

end Exec

namespace Machine

variable {l : Limits} {p : Program} {m m' : Machine} {f : Fault}

theorem admits_of_tick_error (h : tick l p m = .error f m') : l.Admits f.cause := by
  rcases tick_error_cases h with ⟨bound, hbound, rfl, -⟩ | ⟨-, rfl, -⟩ | ⟨i, -, -, hstep⟩
  · exact .inr (.inl hbound)
  · exact Exec.admits_defect _
  · exact (Exec.within_step i _ trivial).error hstep

/-- A checked program fails by an admitted cause. -/
theorem admits_of_run?_error (hp : p.check = .ok ()) {fuel : Nat}
    (h : m.run? l p fuel = some (.error f, m')) : l.Admits f.cause := by
  rw [run?_eq hp] at h
  obtain ⟨result, hrun, hended⟩ := Option.map_eq_some_iff.mp h
  obtain ⟨n, m₁, -, hlast⟩ := runFor_eq_some hrun
  cases result with
  | ok v m₂ => cases hended
  | error g m₂ =>
    obtain rfl : g.within m₂.calls.toList = f := Except.error.inj (congrArg Prod.fst hended)
    rw [cause_within]
    exact admits_of_tick_error hlast

end Machine

/-- **Typing and evaluation agree.** If the typing rules give no type for an operator and its
operands, applying it fails and names the operator and the types. If they give one, applying it
gives a value of that type or fails for a zero divisor or an overflow of that operator, and for
nothing else. Hence no run of a program that passes the check ever fails because a value has the
wrong type. -/
theorem typing_decides :
    (∀ op : Operator, op.isUnary = false → ∀ lhs rhs : Value,
      op.Outcome (lhs.type.name ++ " " ++ rhs.type.name) (op.resultType? lhs.type (some rhs.type))
        (op.applyBinary lhs rhs)) ∧
    (∀ op : Operator, op.isUnary = true → ∀ v : Value,
      op.Outcome v.type.name (op.resultType? v.type none) (op.applyUnary v)) ∧
    ∀ (limits : Limits) (p : Program) (m m' : Machine) (fuel : Nat) (f : Fault),
      p.check = .ok () → m.run? limits p fuel = some (.error f, m') →
        ∀ expected found, f.cause ≠ .typeMismatch expected found := by
  refine ⟨fun op hop lhs rhs => Operator.applyBinary_outcome hop lhs rhs,
    fun op _ v => Operator.applyUnary_outcome op v, fun limits p m m' fuel f hp hrun => ?_⟩
  exact (Machine.admits_of_run?_error hp hrun).ne_typeMismatch

/-- A conjunction of a string and a bool, in parentheses. -/
def Program.mistyped : Program where
  code := ⟨#[.operator .openParen, .push (.string "a"), .operator .and, .push (.bool true),
    .operator .closeParen, .ret 0 0]⟩
  globals := []
  functions := []

/-- A remainder that overflows, a prefix operator on the wrong type, and a program that passes the
check and fails by its types. -/
theorem typing_decides_mistyped :
    Operator.mod.Outcome "int int" (some .int)
        (Operator.mod.applyBinary (.int Int64.minValue) (.int (-1))) ∧
      Operator.not.Outcome "string" none (Operator.not.applyUnary (.string "a")) ∧
      Program.mistyped.check = .ok () ∧
      ∃ f m', Machine.idle.run? .standard Program.mistyped 5 = some (.error f, m') ∧
        f.cause = .incompatibleTypes .and "string bool" ∧
        ∀ expected found, f.cause ≠ .typeMismatch expected found := by
  have hcheck : Program.mistyped.check = .ok () := by decide
  have hrun : Machine.idle.run? .standard Program.mistyped 5 =
      some (.error ⟨.incompatibleTypes .and "string bool", some 4, []⟩,
        ⟨#[], [.openParen], #[], 5, 0, #[], 5⟩) := by decide +kernel
  obtain ⟨hbinary, hunary, hmismatch⟩ := typing_decides
  exact ⟨hbinary .mod rfl (.int Int64.minValue) (.int (-1)), hunary .not rfl (.string "a"), hcheck,
    _, _, hrun, rfl, hmismatch _ _ _ _ _ _ hcheck hrun⟩

end StackScript
