import StackScript.Interpreter
import StackScript.Proofs.Compile.ReadBack
import StackScript.Proofs.Machine.Precedence
import StackScript.Proofs.Operator.Exact
import StackScript.Proofs.Text.Legible
import StackScript.Value.Text

/-!
# Evaluating the texts of integers

The text of an integer is an expression: digits, behind a minus sign for a negative one. The sign is
an operator and no part of the literal. So the digits are refused where they stand for a number
outside the range of integers, although the negative of that number may be in it.

* `compileExpression_signed`, `compileExpression_tooLarge`: what becomes of any digits, with a sign
  or without;
* `Expr.OpenRun.run?`: a program gives the value that the code of its expression computes;
* **`integer_text_evaluates`**: every integer but one is the value of its text.
-/

namespace StackScript

open Lexeme Literal

/-! ## The text of an integer -/

/-- Digits behind a minus sign or alone. -/
def signed (negative : Bool) (digits : List Char) : List Char :=
  if negative then '-' :: digits else digits

theorem Literal.areDigits_toDigits (n : Nat) : AreDigits (Nat.toDigits 10 n) :=
  Text.isDigit_of_mem_toDigits n

theorem Literal.decimal_toDigits (n : Nat) : decimal (Nat.toDigits 10 n) = n := by
  rw [← digitsValue_eq_decimal, digitsValue, ← Nat.ofDigitChars_eq_foldl,
    Nat.ofDigitChars_ten_toDigits]

theorem Value.text_int (n : Int64) :
    (Value.int n).text =
      String.ofList (signed (decide (n.toInt < 0)) (Nat.toDigits 10 n.toInt.natAbs)) := by
  rw [Value.text, ← String.toList_inj, String.toList_ofList, Text.toList_toString_int, signed]
  by_cases hneg : n.toInt < 0
  · rw [if_pos hneg, if_pos (decide_eq_true hneg), List.singleton_append]
  · rw [if_neg hneg, if_neg (by simpa using hneg), List.nil_append]

/-! ## Reading it -/

/-- The tokens of digits with a sign or without. -/
def signedTokens (negative : Bool) (digits : List Char) : List Token :=
  if negative then [.mark '-', .number digits] else [.number digits]

/-- The expression that digits with a sign or without are read as. -/
def Expr.signed (negative : Bool) (v : Value) : Expr :=
  if negative then .unary .neg (.literal v) else .literal v

namespace Reader

variable {α β : Type} {x : Reader α} {f : α → Reader β} {a : α} {e : Expr} {ts ts' : List Token}
  {P P' : Scope → Prop} {c : Complaint} {settings : Settings}

/-- Where `ts` remain, in a scope with `P`, the reader complains. -/
def Complains (x : Reader α) (ts : List Token) (P : Scope → Prop) (c : Complaint) : Prop :=
  ∀ r : Reading, Remain ts r.rest → P r.scope → ∃ rest r', x r = .error ⟨c, rest⟩ r'

theorem Complains.bind (h : Complains x ts P c) (f : α → Reader β) :
    Complains (x >>= f) ts P c := by
  intro r hat hP
  obtain ⟨rest, r', hx⟩ := h r hat hP
  refine ⟨rest, r', ?_⟩
  show EStateM.bind x f r = _
  rw [EStateM.bind, hx]

theorem Yields.bind_complains (hx : Yields x ts P a ts' P') (hf : Complains (f a) ts' P' c) :
    Complains (x >>= f) ts P c := by
  intro r hat hP
  obtain ⟨r₁, hx₁, hat₁, hP₁, -⟩ := hx r hat hP
  obtain ⟨rest, r₂, hf₂⟩ := hf r₁ hat₁ hP₁
  refine ⟨rest, r₂, ?_⟩
  show EStateM.bind x f r = _
  rw [EStateM.bind, hx₁]
  exact hf₂

/-! ### Digits -/

section Digits

variable {inner : Reader Expr} {digits : List Char} (hne : digits ≠ []) (hdigits : AreDigits digits)

include hne hdigits

theorem begins_digits : Begins (fun c => c.isDigit) [.number digits] := by
  obtain ⟨c, rest, rfl⟩ := List.exists_cons_of_ne_nil hne
  exact ⟨c, rest, rfl, hdigits c List.mem_cons_self⟩

theorem solid_digits : Solid [.number digits] := by
  obtain ⟨c, rest, htext, hdigit⟩ := begins_digits hne hdigits
  have hnot : ∀ c, isBlank c → ¬ c.isDigit := forall_isBlank.mpr (by decide)
  refine Token.Starts.solid ⟨c, rest, htext, ?_, ?_, fun hword => by cases hword⟩ []
  · exact Bool.eq_false_iff.mpr fun hblank => hnot c hblank hdigit
  · rintro rfl
    exact absurd hdigit (by decide)

theorem remain_signed (negative : Bool) :
    Remain (signedTokens negative digits) (signed negative digits) := by
  have htext : digits = [] ++ ((Token.number digits).text ++ []) := (List.append_nil _).symm
  cases negative with
  | true =>
    have hrenders : Renders [.mark '-', .number digits] ('-' :: digits) :=
      ⟨[], digits, rfl, .nil, [], [], htext, isSeparator_nil (.inl rfl), .nil⟩
    exact hrenders.remain (solid_mark (by decide) _)
  | false =>
    have hrenders : Renders [.number digits] digits := ⟨[], [], htext, .nil, .nil⟩
    exact hrenders.remain (solid_digits hne hdigits)

/-- Digits without a sign begin with none. -/
theorem noSign_digits : Begins (Operator.ofSign? · = none) [.number digits] := by
  refine (begins_digits hne hdigits).mono fun c hdigit => ofSign?_of_isWordChar ?_
  simp [isWordChar, Char.isAlphanum, hdigit]

/-- Digits for a number in the range are a literal. -/
theorem Yields.primary_digits (hfits : decimal digits < 2 ^ 63) :
    Yields (Reader.primary inner) [.number digits] P
      (.literal (.int (Int64.ofNat (decimal digits)))) [] P := by
  have hfirst := begins_digits hne hdigits
  refine (not_symbol (hfirst.ne (by decide))).bind ?_
  refine (no_string ((hfirst.ne (by decide)).and (hfirst.ne (by decide)))).bind ?_
  have hvalue := (value?_digits digits).trans (if_pos hfits)
  have hnumber : Yields (scan .number) [.number digits] P (some (.int _)) [] P :=
    number (written_digits hne hdigits) hvalue trivial trivial
  exact hnumber.bind (pure _)

/-- Digits for a number outside the range are refused. -/
theorem Complains.primary_digits (hlarge : 2 ^ 63 ≤ decimal digits) :
    Complains (Reader.primary inner) [.number digits] P
      (.invalidNumber (String.ofList digits)) := by
  have hfirst := begins_digits hne hdigits
  refine (Yields.not_symbol (hfirst.ne (by decide))).bind_complains ?_
  refine (Yields.no_string ((hfirst.ne (by decide)).and (hfirst.ne (by decide)))).bind_complains ?_
  refine bind (fun r hremain _ => ?_) _
  obtain ⟨rest, htext, hlaid⟩ := hremain.opens
  have hat : NumberAt (dropBlanks r.rest) digits rest := numberAt_iff.mpr
    ⟨_, written_digits hne hdigits, htext, hlaid.endsNumber trivial⟩
  refine ⟨dropBlanks r.rest, { r with rest := dropBlanks r.rest }, ?_⟩
  simp only [scan, Scanner.number_tooLarge hat hdigits hlarge]

theorem Yields.operand_signed (negative : Bool) (hfits : decimal digits < 2 ^ 63) :
    Yields (Reader.operand inner) (signedTokens negative digits) P
      (.signed negative (.int (Int64.ofNat (decimal digits)))) [] P := by
  cases negative with
  | true =>
    refine (unaryOperator rfl (solid_digits hne hdigits)).bind ?_
    exact (primary_digits hne hdigits hfits).bind (pure _)
  | false =>
    refine (no_unaryOperator (noSign_digits hne hdigits)).bind ?_
    exact primary_digits hne hdigits hfits

theorem Complains.operand_signed (negative : Bool) (hlarge : 2 ^ 63 ≤ decimal digits) :
    Complains (Reader.operand inner) (signedTokens negative digits) P
      (.invalidNumber (String.ofList digits)) := by
  cases negative with
  | true =>
    refine (Yields.unaryOperator rfl (solid_digits hne hdigits)).bind_complains ?_
    exact (primary_digits hne hdigits hlarge).bind _
  | false =>
    refine (Yields.no_unaryOperator (noSign_digits hne hdigits)).bind_complains ?_
    exact primary_digits hne hdigits hlarge

end Digits

/-! ### Whole expressions -/

/-- An operand alone is a whole expression. -/
theorem Yields.wholeExpression (hlevels : 0 < settings.maxNesting)
    (h : ∀ inner, Yields (Reader.operand inner) ts P e [] P) :
    Yields (Reader.wholeExpression settings) ts P e [] P := by
  obtain ⟨levels, hmax⟩ := Nat.exists_eq_succ_of_ne_zero (Nat.ne_of_gt hlevels)
  have hstop (inner : Reader Expr) : Yields (Reader.continuation inner) [] P none [] P := by
    have hnone : Yields (scan .binaryOperator) [] P none [] P := no_binaryOperator trivial
    exact hnone.bind (pure none)
  have hexpression : Yields (Reader.expression settings (levels + 1)) ts P e [] P :=
    (h _).bind ((loop_none (hstop _)).bind (pure _))
  rw [Reader.wholeExpression, hmax]
  exact hexpression.bind (atEnd.bind (pure e))

theorem Complains.wholeExpression (hlevels : 0 < settings.maxNesting)
    (h : ∀ inner, Complains (Reader.operand inner) ts P c) :
    Complains (Reader.wholeExpression settings) ts P c := by
  obtain ⟨levels, hmax⟩ := Nat.exists_eq_succ_of_ne_zero (Nat.ne_of_gt hlevels)
  have hexpression : Complains (Reader.expression settings (levels + 1)) ts P c := (h _).bind _
  rw [Reader.wholeExpression, hmax]
  exact hexpression.bind _

end Reader

section Signed

variable (settings : Settings) (hlevels : 0 < settings.maxNesting) (negative : Bool)
  {digits : List Char} (hne : digits ≠ []) (hdigits : AreDigits digits)

include hlevels hne hdigits

/-- Digits are compiled with a sign or without, if they stand for an integer alone. -/
theorem compileExpression_signed (hfits : decimal digits < 2 ^ 63) :
    compileExpression settings (String.ofList (signed negative digits)) =
      .ok (Expr.signed negative (.int (Int64.ofNat (decimal digits)))).program := by
  have hyields : Reader.Yields (Reader.wholeExpression settings) (signedTokens negative digits)
      (fun _ => True) (.signed negative (.int (Int64.ofNat (decimal digits)))) [] fun _ => True :=
    .wholeExpression hlevels fun _ => .operand_signed hne hdigits negative hfits
  obtain ⟨r, hread, -⟩ := hyields ⟨signed negative digits, ∅⟩
    (Reader.remain_signed hne hdigits negative) trivial
  rw [compileExpression_eq, Reader.run, String.toList_ofList, hread]
  rfl

/-- And else they are refused, with a sign or without. -/
theorem compileExpression_tooLarge (hlarge : 2 ^ 63 ≤ decimal digits) :
    ∃ d : Diagnostic, d.complaint = .invalidNumber (String.ofList digits) ∧
      compileExpression settings (String.ofList (signed negative digits)) = .error d := by
  have hcomplains : Reader.Complains (Reader.wholeExpression settings)
      (signedTokens negative digits) (fun _ => True) (.invalidNumber (String.ofList digits)) :=
    .wholeExpression hlevels fun _ => .operand_signed hne hdigits negative hlarge
  obtain ⟨rest, r, hread⟩ := hcomplains ⟨signed negative digits, ∅⟩
    (Reader.remain_signed hne hdigits negative) trivial
  rw [compileExpression_eq, Reader.run, String.toList_ofList, hread]
  exact ⟨_, rfl, rfl⟩

end Signed

/-! ## Running it -/

open Machine in
/-- The program of an expression gives the value that its code computes. -/
theorem Expr.OpenRun.run? {limits : Limits} {level fuel : Nat} {e : Expr} {r : Except Cause Open}
    {v : Value} (h : OpenRun limits e.program (.top []) level e r) (hv : r >>= Open.close = .ok v)
    (hcheck : e.program.check = .ok ()) (hroom : e.room ≤ limits.maxStack)
    (hbound : limits.maxSteps = none) (hfuel : (e.code (.top [])).length + 2 ≤ fuel) :
    e.program.run? limits fuel = some (.ok v) := by
  have hcode : CodeAt e.program 0 (e.code (.top []) ++ [.endOfExpression] ++ [.ret 0 0]) := .ofList
  have hsteps (n : Nat) : ∀ bound ∈ limits.maxSteps, n ≤ bound := by
    rw [hbound]
    exact fun _ hmem => by cases hmem
  have hallow (n : Nat) : Allows limits idle e.room n :=
    ⟨(Nat.zero_add e.room).symm ▸ hroom, hsteps _⟩
  have hopen := h.computes idle hcode.left.left (fun q hq => by cases hq) (hallow _)
  have hclosed := hopen.bind fun o ho => computes_end hcode.left.right.head (h.shape o ho).1
    ((hallow _).mono (h.shape o ho).2.1 (Nat.le_refl _))
    (fun q hq => ((h.shape o ho).2.2 q hq).imp fun _ hj => hj.2) fun q hq => by cases hq
  rw [hv] at hclosed
  -- the value is returned from the only cell
  have hret (k : Nat) (hk : e.program.code.get? (0 + k) = some (.ret 0 0)) :
      tick limits e.program (idle.ahead [v] [] k) =
        .ok (some v) ⟨#[], [], #[], 0 + k + 1, 0, #[], 0 + k + 1⟩ := tick_of_step (hsteps _) hk rfl
  have hlast : runFor limits e.program 1 (idle.ahead [v] [] ((e.code (.top [])).length + 1)) =
      some (.ok v _) := runFor_lastTick (hret _ (by simpa using hcode.right.head))
  have hrun := (runFor_of_after? hclosed 1).trans hlast
  obtain ⟨more, rfl⟩ := Nat.exists_eq_add_of_le hfuel
  rw [Program.run?, run?_eq hcheck]
  exact congrArg (fun result => (result.map ended).map (·.1)) (runFor_add _ _ _ more _ hrun)

theorem run?_signed {limits : Limits} {fuel : Nat} {negative : Bool} {v w : Value}
    (hw : (if negative then Operator.neg.applyUnary v else .ok v) = .ok w)
    (hcheck : (Expr.signed negative v).program.check = .ok ()) (hstack : 1 ≤ limits.maxStack)
    (hbound : limits.maxSteps = none) (hfuel : 4 ≤ fuel) :
    (Expr.signed negative v).program.run? limits fuel = some (.ok w) := by
  have hliteral (p : Program) : Expr.OpenRun limits p (.top []) 6 (.literal v) (.ok (.value v)) :=
    .literal v
  cases negative with
  | true => exact ((hliteral _).unary rfl).run? hw hcheck hstack hbound hfuel
  | false => exact (hliteral _).run? hw hcheck hstack hbound (Nat.le_of_succ_le hfuel)

section Printed

variable {n : Int64} (hn : n ≠ Int64.minValue)

include hn

theorem natAbs_lt_of_ne_minValue : n.toInt.natAbs < 2 ^ 63 := by
  have hlow := n.le_toInt
  have hhigh := n.toInt_lt
  have hleast : n.toInt ≠ -2 ^ 63 := fun h => hn (Int64.toInt_inj.mp h)
  omega

theorem toInt_ofNat_natAbs : (Int64.ofNat n.toInt.natAbs).toInt = n.toInt.natAbs :=
  Int64.toInt_ofNat_of_lt (natAbs_lt_of_ne_minValue hn)

/-- The sign of an integer and the number behind it give the integer. -/
theorem signed_natAbs :
    (if decide (n.toInt < 0) then Operator.neg.applyUnary (.int (Int64.ofNat n.toInt.natAbs))
      else .ok (.int (Int64.ofNat n.toInt.natAbs))) = .ok (.int n) := by
  have hk := toInt_ofNat_natAbs hn
  split
  · rename_i hneg
    have hopposite : -(Int64.ofNat n.toInt.natAbs).toInt = n.toInt := by
      rw [hk]
      have := of_decide_eq_true hneg
      omega
    obtain ⟨i, hi, hexact⟩ := Operator.exactInt_of_fits .neg (fitsInt64_toInt n)
    rw [Int64.toInt_inj.mp hi] at hexact
    show (Operator.neg.exactInt (-(Int64.ofNat n.toInt.natAbs).toInt)).map Value.int = _
    rw [hopposite, hexact]
    rfl
  · rename_i hpos
    have hsame : (Int64.ofNat n.toInt.natAbs).toInt = n.toInt := by
      rw [hk]
      have := of_decide_eq_false (Bool.eq_false_iff.mpr hpos)
      omega
    rw [Int64.toInt_inj.mp hsame]

theorem compileExpression_text :
    compileExpression .standard (Value.int n).text =
      .ok (Expr.signed (decide (n.toInt < 0)) (.int (Int64.ofNat n.toInt.natAbs))).program := by
  have hcompiled := compileExpression_signed .standard (by decide) (decide (n.toInt < 0))
    Nat.toDigits_ne_nil (areDigits_toDigits n.toInt.natAbs)
  rw [decimal_toDigits, ← Value.text_int] at hcompiled
  exact hcompiled (natAbs_lt_of_ne_minValue hn)

end Printed

/-- **Integers survive printing and evaluation, but for the least one.** The text of any other
integer is an expression with the integer for its value. A minus sign in it is the operator, behind
which the number stands as a literal; so the text of the least integer is refused, for the digits
of a number that is too large. -/
theorem integer_text_evaluates :
    (∀ n : Int64, n ≠ Int64.minValue →
      (∀ fuel, 4 ≤ fuel → evaluate? (Value.int n).text fuel = some (.ok (.int n))) ∧
      (0 ≤ n.toInt →
        compileExpression .standard (Value.int n).text = .ok (Expr.literal (.int n)).program) ∧
      (n.toInt < 0 → ∃ k : Int64, k.toInt = -n.toInt ∧
        compileExpression .standard (Value.int n).text =
          .ok (Expr.unary .neg (.literal (.int k))).program)) ∧
    ∃ d : Diagnostic, d.complaint = .invalidNumber "9223372036854775808" ∧
      ∀ fuel, evaluate? (Value.int Int64.minValue).text fuel = some (.error (.diagnostic d)) := by
  constructor
  · intro n hn
    have hcompiled := compileExpression_text hn
    have hvalue := signed_natAbs hn
    refine ⟨fun fuel hfuel => ?_, fun hpos => ?_, fun hneg => ?_⟩
    · have hrun : Program.run? .standard fuel _ = some (.ok (.int n)) :=
        run?_signed hvalue (check_compiled (.inr hcompiled)).1 (by decide) rfl hfuel
      rw [evaluate?, hcompiled]
      exact congrArg (Option.map (Except.mapError InterpretError.fault)) hrun
    · rw [decide_eq_false (Int.not_lt.mpr hpos)] at hcompiled hvalue
      have hsame : Int64.ofNat n.toInt.natAbs = n := Value.int.inj (Except.ok.inj hvalue)
      rwa [hsame] at hcompiled
    · rw [decide_eq_true hneg] at hcompiled
      exact ⟨_, by rw [toInt_ofNat_natAbs hn]; omega, hcompiled⟩
  · have htext : (Value.int Int64.minValue).text =
        String.ofList (signed true "9223372036854775808".toList) := by decide +kernel
    have hdigits : AreDigits "9223372036854775808".toList := List.all_eq_true.mp (by decide)
    obtain ⟨d, hcomplaint, hrefused⟩ := compileExpression_tooLarge .standard (by decide) true
      (by decide) hdigits (by decide)
    rw [← htext] at hrefused
    exact ⟨d, hcomplaint, fun fuel => by rw [evaluate?, hrefused]; rfl⟩

/-- The least integer whose text has a value. -/
theorem integer_text_evaluates_least :
    Int64.minValue + 1 ≠ Int64.minValue ∧
      evaluate? (Value.int (Int64.minValue + 1)).text 4 =
        some (.ok (.int (Int64.minValue + 1))) ∧
      ∃ k : Int64, k.toInt = -(Int64.minValue + 1).toInt ∧
        compileExpression .standard (Value.int (Int64.minValue + 1)).text =
          .ok (Expr.unary .neg (.literal (.int k))).program := by
  have hne : Int64.minValue + 1 ≠ Int64.minValue := by decide
  obtain ⟨hevaluates, -, hnegative⟩ := integer_text_evaluates.1 _ hne
  exact ⟨hne, hevaluates 4 (Nat.le_refl 4), hnegative (by decide)⟩

end StackScript
