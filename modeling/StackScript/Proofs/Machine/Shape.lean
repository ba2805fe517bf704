import StackScript.Machine.Step
import StackScript.Program

/-!
# Shapes of frames

What code leaves on the stacks can be read off the instructions: `Shape` counts the locals and the
temporaries of a frame and lists the operators that wait in it, and `Shape.next?` says how an
instruction changes that, as long as it takes nothing from outside the frame. A piece of code is
scanned instruction by instruction (`Shape.scan?`), jumps apart: they may only be made between
statements, where a frame holds its locals and nothing else.

A `Region` is code that runs in one frame, with the shapes in which its indices are reached. It is
sound if every instruction takes every shape to one of the next index (`Region.Sound`).
-/

namespace StackScript

/-- Whose code it is. -/
inductive Body where
  /-- That of a call inside an expression, from its `prepareCall` on. -/
  | call
  /-- That of a function with so many parameters and locals. -/
  | function (params locals : Nat)
  deriving DecidableEq

/-- The variables of a frame that an offset may name once so many locals are declared. -/
def Body.Owns (declared : Nat) (offset : Int) : Body → Prop
  | .call => False
  | .function params _ =>
    (2 ≤ offset ∧ offset ≤ params + 1) ∨ (-(declared : Int) ≤ offset ∧ offset ≤ -1)

instance (declared : Nat) (offset : Int) : (body : Body) → Decidable (body.Owns declared offset)
  | .call => inferInstanceAs (Decidable False)
  | .function params _ => inferInstanceAs (Decidable
      ((2 ≤ offset ∧ offset ≤ params + 1) ∨ (-(declared : Int) ≤ offset ∧ offset ≤ -1)))

/-- The number of operators that take two operands. -/
def binaries (ops : List Operator) : Nat := ops.countP (!·.isUnary)

/-- What the code of a frame has on the stacks. -/
structure Shape where
  locals : Nat
  temps : Nat
  /-- The operators that wait, the last one first. -/
  ops : List Operator
  deriving DecidableEq

namespace Shape

/-- Nothing. -/
def zero : Shape := ⟨0, 0, []⟩

/-- A temporary is taken. -/
def drop? (X : Shape) : Option Shape :=
  if 0 < X.temps then some { X with temps := X.temps - 1 } else none

/-- The operators `popped` are applied and `rest` go on waiting. -/
def reduce? (X : Shape) (popped rest : List Operator) : Option Shape :=
  if binaries popped < X.temps then some ⟨X.locals, X.temps - binaries popped, rest⟩ else none

section Next

variable (arity : Nat → Option Nat) (body : Body)

/-- What has to be is applied before an operator. Below a call any operator may wait, so there it
must not come to that. -/
def settle? (op : Operator) (X : Shape) : Option Shape :=
  let rest := X.ops.dropWhile (Exec.yieldsTo op)
  if body = .call ∧ rest = [] then none
  else X.reduce? (X.ops.takeWhile (Exec.yieldsTo op)) rest

/-- A group is closed. -/
def closeGroup? (X : Shape) : Option Shape :=
  match X.ops.dropWhile (!·.isBarrier) with
  | .openParen :: rest => X.reduce? (X.ops.takeWhile (!·.isBarrier)) rest
  | _ => none

/-- An operator comes in. -/
def operator? (op : Operator) (X : Shape) : Option Shape :=
  match op with
  | .openParen | .prepareCall | .not | .neg | .pos => some { X with ops := op :: X.ops }
  | .closeParen => X.closeGroup?
  | .endOfExpression => X.settle? body op
  | _ => (X.settle? body op).map fun Y => { Y with ops := op :: Y.ops }

/-- A call takes its arguments and gives a result. -/
def call? (target : Nat) (X : Shape) : Option Shape :=
  match X.ops, arity target with
  | .prepareCall :: rest, some n =>
    if n ≤ X.temps then some ⟨X.locals, X.temps - n + 1, rest⟩ else none
  | _, _ => none

/-- One temporary is taken, after which a function is between two of its statements. -/
def rest? (X : Shape) : Option Shape :=
  match body with
  | .call => none
  | .function _ locals => if X = ⟨locals, 1, []⟩ then some ⟨locals, 0, []⟩ else none

/-- The shape after an instruction. -/
def next? (X : Shape) : Instr → Option Shape
  | .push _ | .getGlobal _ | .getLocal _ => some { X with temps := X.temps + 1 }
  | .setGlobal _ | .pop => X.drop?
  | .setLocal offset => if body.Owns X.locals offset then X.drop? else none
  | .declareLocal =>
    if body ≠ .call ∧ X.temps = 0 then some { X with locals := X.locals + 1 } else none
  | .jump _ => { X with temps := X.temps + 1 }.rest? body
  | .jumpIfFalse _ => X.rest? body
  | .call target => X.call? arity target
  | .ret params locals => if body = .function params locals then X.rest? body else none
  | .operator op => X.operator? body op

/-- The shape after a piece of code that is executed from its beginning to its end. -/
def scan? (X : Shape) (code : List Instr) : Option Shape := code.foldlM (next? arity body) X

variable {arity : Nat → Option Nat} {body : Body} {X Y : Shape} {c₁ c₂ : List Instr} {i : Instr}

theorem drop?_eq_some (h : X.drop? = some Y) : X = { Y with temps := Y.temps + 1 } := by
  unfold drop? at h
  split at h
  · rename_i hpos
    cases h
    simp only [Nat.sub_add_cancel hpos]
  · cases h

theorem ops_of_reduce? {popped rest : List Operator} (h : X.reduce? popped rest = some Y) :
    Y.ops = rest := by
  obtain ⟨-, h⟩ := Option.ite_none_right_eq_some.mp h
  rw [← Option.some.inj h]

theorem rest?_eq_some (h : X.rest? body = some Y) :
    ∃ params locals, body = .function params locals ∧ X = ⟨locals, 1, []⟩ ∧ Y = ⟨locals, 0, []⟩ := by
  unfold rest? at h
  split at h
  · cases h
  · rename_i params locals
    split at h
    · rename_i hX
      exact ⟨params, locals, rfl, hX, (Option.some.inj h).symm⟩
    · cases h

theorem scan?_append :
    X.scan? arity body (c₁ ++ c₂) = (X.scan? arity body c₁).bind (scan? arity body · c₂) :=
  List.foldlM_append

theorem scan?_cons :
    X.scan? arity body (i :: c₁) = (X.next? arity body i).bind (scan? arity body · c₁) :=
  List.foldlM_cons

theorem scan?_snoc :
    X.scan? arity body (c₁ ++ [i]) = (X.scan? arity body c₁).bind (next? arity body · i) := by
  rw [scan?_append]
  refine congrArg _ (funext fun Y => ?_)
  rw [scan?_cons]
  exact Option.bind_fun_some _

/-- The shape at an index of code that can be scanned. -/
theorem exists_scan?_take (h : X.scan? arity body c₁ = some Y) (j : Nat) :
    ∃ Z, X.scan? arity body (c₁.take j) = some Z ∧ Z.scan? arity body (c₁.drop j) = some Y := by
  rw [← List.take_append_drop j c₁, scan?_append] at h
  exact Option.bind_eq_some_iff.mp h

/-- The instruction at an index leads from its shape to that of the next index. -/
theorem next?_of_scan?_take {Z : Shape} {j : Nat} (h : X.scan? arity body c₁ = some Y)
    (hj : c₁[j]? = some i) (hZ : X.scan? arity body (c₁.take j) = some Z) :
    ∃ Z', Z.next? arity body i = some Z' ∧ X.scan? arity body (c₁.take (j + 1)) = some Z' := by
  obtain ⟨Z', hZ', -⟩ := exists_scan?_take h (j + 1)
  refine ⟨Z', ?_, hZ'⟩
  rw [List.take_add_one, hj, Option.toList_some, scan?_snoc, hZ] at hZ'
  exact hZ'

end Next

end Shape

/-! ## Regions -/

/-- Code that runs in one frame: whose it is, and the shapes in which its indices are reached. -/
structure Region where
  body : Body
  shapes : Nat → Shape → Prop

/-- Every instruction of a region takes the shapes of its index to those of the index that follows.
Behind a call nothing is asked: it ends where its `prepareCall` is gone. -/
def Region.Sound (p : Program) (arity : Nat → Option Nat) (R : Region) : Prop :=
  ∀ i X, R.shapes i X → (R.body = .call → X.ops ≠ []) →
    ∃ instr Y, p.code.get? i = some instr ∧ X.next? arity R.body instr = some Y ∧
      ((∀ target, instr ≠ .jump target) → (∀ params locals, instr ≠ .ret params locals) →
        R.shapes (i + 1) Y) ∧
      ∀ target, instr.jumpTarget? = some target → R.shapes target Y

/-- What is known of the functions of a program: how many parameters one takes that starts at an
index, and a sound region that begins there. -/
structure Plan (p : Program) where
  arity : Nat → Option Nat
  region : Nat → Region
  sound : ∀ {target n : Nat}, arity target = some n → (region target).Sound p arity
  body : ∀ {target n : Nat}, arity target = some n → ∃ locals, (region target).body = .function n locals
  entry : ∀ {target n : Nat}, arity target = some n → (region target).shapes target .zero

end StackScript
