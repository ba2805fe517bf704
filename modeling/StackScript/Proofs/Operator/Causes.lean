import StackScript.Operator.Apply

/-!
# How operators fail

Typing decides before evaluation, so an operator that is applied at all finds payloads of the types
it needs. Where the typing rules give no type, it fails for its operands; where they give one, it
gives a value of that type or fails for a zero divisor or an overflow, and in no other way
(`applyUnary_outcome`, `applyBinary_outcome`). Either way it fails only by what the script computes
(`applyUnary_error`, `applyBinary_error`).
-/

namespace StackScript

/-- The causes that a script brings about by what it computes, whatever the limits. -/
def Cause.IsOwn : Cause → Prop
  | .incompatibleTypes _ _ | .divisionByZero | .integerOverflow _ | .conditionNotBool _ => True
  | _ => False

namespace Operator

/-- What can come of an operator on operands of given names, by the type that the typing rules give
for the result. -/
inductive Outcome (op : Operator) (operands : String) :
    (type? : Option ValueType) → Except Cause Value → Prop where
  | refused : Outcome op operands none (.error (.incompatibleTypes op operands))
  | value (v : Value) : Outcome op operands (some v.type) (.ok v)
  | zeroDivisor (t : ValueType) : Outcome op operands (some t) (.error .divisionByZero)
  | overflow (t : ValueType) : Outcome op operands (some t) (.error (.integerOverflow op))

variable {op : Operator} {operands : String} {c : Cause}

theorem Outcome.isOwn {type? : Option ValueType} (h : Outcome op operands type? (.error c)) :
    c.IsOwn := by
  cases h <;> trivial

theorem exactInt_outcome (op : Operator) (operands : String) (n : Int) :
    Outcome op operands (some .int) ((op.exactInt n).map .int) := by
  unfold exactInt
  split
  · exact .value (.int _)
  · exact .overflow .int

/-- **Typing a prefix operator and applying it agree.** -/
theorem applyUnary_outcome (op : Operator) (v : Value) :
    Outcome op v.type.name (op.resultType? v.type none) (op.applyUnary v) := by
  cases op with
  | neg =>
    cases v with
    | int n => exact exactInt_outcome .neg _ _
    | double x => exact .value (.double (-x))
    | undefined | string s | bool b => exact .refused
  | pos =>
    cases v with
    | int n => exact .value (.int n)
    | double x => exact .value (.double x)
    | undefined | string s | bool b => exact .refused
  | not =>
    cases v with
    | bool b => exact .value (.bool !b)
    | undefined | int n | double x | string s => exact .refused
  | _ => exact .refused

theorem applyUnary_error {v : Value} (h : op.applyUnary v = .error c) : c.IsOwn :=
  (h ▸ applyUnary_outcome op v).isOwn

/-! ## Comparisons -/

theorem holdsFor_ok (hop : op.isComparison) (o : Ordering) : ∃ b, op.holdsFor o = .ok b := by
  cases op <;> first | exact ⟨_, rfl⟩ | cases hop

theorem holdsOnDoubles_ok (hop : op.isComparison) (a b : Double) :
    ∃ r, op.holdsOnDoubles a b = .ok r := by
  cases op <;> first | exact ⟨_, rfl⟩ | cases hop

/-- A comparison gives a bool, and operands that can be compared have one type after promotion. -/
theorem comparable_of_binaryType? {lhs rhs t : ValueType} (hop : op.isComparison)
    (ht : op.binaryType? lhs rhs = some t) :
    t = .bool ∧ (ValueType.promote lhs rhs).1 = (ValueType.promote lhs rhs).2 ∧
      lhs ≠ .undefined ∧ rhs ≠ .undefined := by
  have hnot : op ∉ [add, sub, mul, div] ∧ op ≠ mod ∧ op ∉ [and, or] ∧ op ≠ add := by
    cases op <;> first | decide | cases hop
  obtain ⟨harith, hmod, hlogic, hadd⟩ := hnot
  simp only [binaryType?, hop, hadd, harith, hmod, hlogic, and_true, and_false, false_and,
    if_false] at ht
  split at ht
  · cases ht
  · rename_i hundef
    split at ht
    · rename_i heq
      cases ht
      exact ⟨rfl, heq, fun h => hundef (Or.inl h), fun h => hundef (Or.inr h)⟩
    · cases ht

theorem onOrder_ok {lhs rhs : Value} {t : ValueType} (hop : op.isComparison)
    (ht : op.binaryType? lhs.type rhs.type = some t) : ∃ b, op.onOrder lhs rhs = .ok b := by
  obtain ⟨-, heq, hl, hr⟩ := comparable_of_binaryType? hop ht
  cases lhs with
  | undefined => exact absurd rfl hl
  | int a =>
    cases rhs with
    | int b => exact holdsFor_ok hop _
    | double y => exact holdsOnDoubles_ok hop _ _
    | undefined | string s | bool b => cases heq
  | double x =>
    cases rhs with
    | int b => exact holdsOnDoubles_ok hop _ _
    | double y => exact holdsOnDoubles_ok hop _ _
    | undefined | string s | bool b => cases heq
  | string s =>
    cases rhs with
    | string s' => exact holdsFor_ok hop _
    | undefined | int b | double y | bool b => cases heq
  | bool a =>
    cases rhs with
    | bool b => exact holdsFor_ok hop _
    | undefined | int b | double y | string s => cases heq

/-! ## Arithmetic, concatenation and logic -/

/-- What a binary operator other than a comparison accepts. -/
inductive Accepts : Operator → ValueType → ValueType → ValueType → Prop where
  | ints {op : Operator} (h : op ∈ [add, sub, mul, div, mod]) : Accepts op .int .int .int
  | doubles {op : Operator} {lhs rhs : ValueType} (h : op ∈ [add, sub, mul, div])
      (hl : lhs.isNumeric) (hr : rhs.isNumeric) : Accepts op lhs rhs .double
  | strings : Accepts add .string .string .string
  | bools {op : Operator} (h : op ∈ [and, or]) : Accepts op .bool .bool .bool

theorem accepts_of_binaryType? {lhs rhs t : ValueType} (hop : op.isComparison = false)
    (ht : op.binaryType? lhs rhs = some t) : Accepts op lhs rhs t := by
  simp only [binaryType?, hop, Bool.false_eq_true, and_false, if_false] at ht
  split at ht
  · cases ht
  · rename_i hundef
    split at ht
    · rename_i hadd
      obtain ⟨heq, rfl, hbool⟩ := hadd
      cases ht
      cases lhs <;> cases rhs <;>
        first
          | exact absurd heq (by decide)
          | exact absurd (Or.inl rfl) hundef
          | exact absurd rfl hbool
          | exact .ints (by decide)
          | exact .doubles (by decide) rfl rfl
          | exact .strings
    · split at ht
      · rename_i harith
        obtain ⟨hl, hr, hmem⟩ := harith
        cases ht
        split
        · exact .doubles hmem hl hr
        · rename_i hd
          obtain ⟨rfl, rfl⟩ : lhs = .int ∧ rhs = .int := by
            cases lhs <;> cases rhs <;> simp_all [ValueType.isNumeric]
          exact .ints (List.mem_append_left [mod] hmem)
      · split at ht
        · rename_i hmod
          obtain ⟨rfl, rfl, rfl⟩ := hmod
          cases ht
          exact .ints (by decide)
        · split at ht
          · rename_i hlogic
            obtain ⟨rfl, rfl, hmem⟩ := hlogic
            cases ht
            exact .bools hmem
          · cases ht

theorem onInts_outcome (operands : String) (hop : op ∈ [add, sub, mul, div, mod]) (a b : Int64) :
    Outcome op operands (some .int) ((op.onInts a b).map .int) := by
  simp only [List.mem_cons, List.not_mem_nil, or_false] at hop
  rcases hop with rfl | rfl | rfl | rfl | rfl
  · exact exactInt_outcome _ _ _
  · exact exactInt_outcome _ _ _
  · exact exactInt_outcome _ _ _
  · simp only [onInts]
    split
    · exact .zeroDivisor .int
    · exact exactInt_outcome _ _ _
  · simp only [onInts]
    split
    · exact .zeroDivisor .int
    · -- the remainder is looked at only if the quotient fits
      cases hquotient : exactInt mod (a.toInt.tdiv b.toInt) with
      | ok i => exact exactInt_outcome _ _ _
      | error c =>
        have houtcome := exactInt_outcome mod operands (a.toInt.tdiv b.toInt)
        rwa [hquotient] at houtcome

theorem onDoubles_ok (hop : op ∈ [add, sub, mul, div]) (a b : Double) :
    ∃ x, op.onDoubles a b = .ok x := by
  simp only [List.mem_cons, List.not_mem_nil, or_false] at hop
  rcases hop with rfl | rfl | rfl | rfl <;> exact ⟨_, rfl⟩

theorem toDouble_ok {v : Value} (h : v.type.isNumeric) : ∃ x, v.toDouble = .ok x := by
  cases v with
  | int n => exact ⟨_, rfl⟩
  | double x => exact ⟨_, rfl⟩
  | undefined | string s | bool b => cases h

theorem applyTyped_outcome {lhs rhs : Value} {t : ValueType} (operands : String)
    (hacc : Accepts op lhs.type rhs.type t) :
    Outcome op operands (some t) (op.applyTyped t lhs rhs) := by
  generalize hl : lhs.type = tl at hacc
  generalize hr : rhs.type = tr at hacc
  cases hacc with
  | ints hop =>
    obtain ⟨a, rfl⟩ : ∃ a, lhs = .int a := by cases lhs <;> first | exact ⟨_, rfl⟩ | cases hl
    obtain ⟨b, rfl⟩ : ∃ b, rhs = .int b := by cases rhs <;> first | exact ⟨_, rfl⟩ | cases hr
    have happ : op.applyTyped .int (.int a) (.int b) = (op.onInts a b).map .int := by
      simp only [List.mem_cons, List.not_mem_nil, or_false] at hop
      rcases hop with rfl | rfl | rfl | rfl | rfl <;> rfl
    rw [happ]
    exact onInts_outcome operands hop a b
  | doubles hop hnl hnr =>
    obtain ⟨x, hx⟩ := toDouble_ok (hl ▸ hnl)
    obtain ⟨y, hy⟩ := toDouble_ok (hr ▸ hnr)
    obtain ⟨z, hz⟩ := onDoubles_ok hop x y
    have happ : op.applyTyped .double lhs rhs = .ok (.double z) := by
      simp only [List.mem_cons, List.not_mem_nil, or_false] at hop
      rcases hop with rfl | rfl | rfl | rfl <;>
        simp only [applyTyped, hx, hy, bind, Except.bind, hz, pure, Except.pure]
    rw [happ]
    exact .value (.double z)
  | strings =>
    obtain ⟨a, rfl⟩ : ∃ a, lhs = .string a := by cases lhs <;> first | exact ⟨_, rfl⟩ | cases hl
    obtain ⟨b, rfl⟩ : ∃ b, rhs = .string b := by cases rhs <;> first | exact ⟨_, rfl⟩ | cases hr
    exact .value (.string (a ++ b))
  | bools hop =>
    obtain ⟨a, rfl⟩ : ∃ a, lhs = .bool a := by cases lhs <;> first | exact ⟨_, rfl⟩ | cases hl
    obtain ⟨b, rfl⟩ : ∃ b, rhs = .bool b := by cases rhs <;> first | exact ⟨_, rfl⟩ | cases hr
    simp only [List.mem_cons, List.not_mem_nil, or_false] at hop
    rcases hop with rfl | rfl <;> cases a <;> exact .value (.bool _)

/-- **Typing a binary operator and applying it agree.** -/
theorem applyBinary_outcome (hu : op.isUnary = false) (lhs rhs : Value) :
    Outcome op (lhs.type.name ++ " " ++ rhs.type.name) (op.resultType? lhs.type (some rhs.type))
      (op.applyBinary lhs rhs) := by
  have htype : op.resultType? lhs.type (some rhs.type) = op.binaryType? lhs.type rhs.type := by
    unfold resultType?
    rw [hu, if_neg Bool.false_ne_true, Option.bind_some]
  unfold applyBinary
  rw [htype]
  cases ht : op.binaryType? lhs.type rhs.type with
  | none => exact .refused
  | some t =>
    cases hop : op.isComparison with
    | true =>
      obtain ⟨b, hb⟩ := onOrder_ok hop ht
      obtain ⟨rfl, -⟩ := comparable_of_binaryType? hop ht
      simp only [hb, if_true]
      exact .value (.bool b)
    | false =>
      simp only [Bool.false_eq_true, if_false]
      exact applyTyped_outcome _ (accepts_of_binaryType? hop ht)

/-- **A binary operator fails only for its operands**: their types, a zero or an overflow. -/
theorem applyBinary_error {lhs rhs : Value} (hu : op.isUnary = false)
    (h : op.applyBinary lhs rhs = .error c) : c.IsOwn :=
  (h ▸ applyBinary_outcome hu lhs rhs).isOwn

end Operator

end StackScript
