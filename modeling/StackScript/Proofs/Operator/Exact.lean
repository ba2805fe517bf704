import Mathlib.Algebra.Ring.Int.Defs
import StackScript.Operator.Apply

/-!
# Exact integers

Integer arithmetic is that of the unbounded integers, as long as the result has 64 bits
(`Operator.Delivers`). Division rounds toward zero, and the remainder has the sign of the dividend;
which numbers these are is said without a division (`IsDivision`), and there is one such pair for
every divisor but zero (`isDivision_iff`). One quotient leaves the range, that of the least integer
by `-1`. Its remainder `0` would fit, but is refused with it.

* **`arithmetic_exact`**: what comes of `+ - * / %` and of a minus sign, for all operands; a wrapped
  result never does.
-/

namespace StackScript

/-- The integers of 64 bits. -/
def FitsInt64 (n : Int) : Prop := -2 ^ 63 ≤ n ∧ n < 2 ^ 63

theorem fitsInt64_toInt (i : Int64) : FitsInt64 i.toInt := ⟨i.le_toInt, i.toInt_lt⟩

/-! ## Division -/

/-- `q` is the quotient of `a` by `b` rounded toward zero, and `r` is the remainder: it is smaller
than the divisor and has the sign of the dividend. -/
structure IsDivision (a b q r : Int) : Prop where
  eq : a = q * b + r
  lt : r.natAbs < b.natAbs
  sign : r = 0 ∨ r.sign = a.sign

section Division

variable {a b q r : Int}

theorem IsDivision.divisor_ne_zero (h : IsDivision a b q r) : b ≠ 0 := by
  rintro rfl
  exact Nat.not_lt_zero _ h.lt

theorem isDivision_tdiv (hb : b ≠ 0) : IsDivision a b (a.tdiv b) (a.tmod b) where
  eq := (Int.tdiv_mul_add_tmod a b).symm
  lt := by
    rw [Int.natAbs_tmod]
    exact Nat.mod_lt _ (Int.natAbs_pos.mpr hb)
  sign := by
    rw [Int.sign_tmod]
    by_cases hdvd : b ∣ a
    · exact .inl (Int.tmod_eq_zero_of_dvd hdvd)
    · exact .inr (if_neg hdvd)

/-- A division by anything but zero has one quotient and one remainder. -/
theorem isDivision_iff (hb : b ≠ 0) : IsDivision a b q r ↔ q = a.tdiv b ∧ r = a.tmod b := by
  constructor
  · rintro ⟨heq, hlt, hsign⟩
    have hsum : r + b * q = a := by rw [heq, Int.mul_comm, Int.add_comm]
    -- on either side of zero the remainder lies in an interval that holds one of each class
    have hunique : a.tdiv b = q ∧ a.tmod b = r := by
      rcases Int.le_total 0 a with ha | ha
      · have hr : 0 ≤ r := by
          rcases hsign with rfl | hsign
          · exact Int.le_refl 0
          · exact Int.sign_nonneg_iff.mp (hsign ▸ Int.sign_nonneg_iff.mpr ha)
        exact (Int.tdiv_tmod_unique ha hb).mpr ⟨hsum, hr, by omega⟩
      · have hr : r ≤ 0 := by
          rcases hsign with rfl | hsign
          · exact Int.le_refl 0
          · exact Int.sign_nonpos_iff.mp (hsign ▸ Int.sign_nonpos_iff.mpr ha)
        exact (Int.tdiv_tmod_unique' ha hb).mpr ⟨hsum, by omega, hr⟩
    exact ⟨hunique.1.symm, hunique.2.symm⟩
  · rintro ⟨rfl, rfl⟩
    exact isDivision_tdiv hb

/-- The remainder of a division fits where the divisor does. -/
theorem IsDivision.fits_remainder (h : IsDivision a b q r) (hb : FitsInt64 b) : FitsInt64 r := by
  have hlt := h.lt
  obtain ⟨hlow, hhigh⟩ := hb
  constructor <;> omega

end Division

/-! ## Results -/

namespace Operator

/-- What comes of arithmetic whose exact result is `n`: this integer, if it has 64 bits, and else an
overflow. -/
def Delivers (op : Operator) (n : Int) (outcome : Except Cause Value) : Prop :=
  (FitsInt64 n → ∃ i : Int64, i.toInt = n ∧ outcome = .ok (.int i)) ∧
    (¬ FitsInt64 n → outcome = .error (.integerOverflow op))

/-- The results of arithmetic on unbounded integers. -/
inductive Computes : Operator → (a b result : Int) → Prop where
  | add (a b : Int) : Computes add a b (a + b)
  | sub (a b : Int) : Computes sub a b (a - b)
  | mul (a b : Int) : Computes mul a b (a * b)
  | div {a b q r : Int} (h : IsDivision a b q r) : Computes div a b q
  | mod {a b q r : Int} (h : IsDivision a b q r) : Computes mod a b r

variable {op : Operator} {n : Int} {a b : Int64}

theorem exactInt_of_fits (op : Operator) (h : FitsInt64 n) :
    ∃ i : Int64, i.toInt = n ∧ op.exactInt n = .ok i := by
  refine ⟨Int64.ofInt n, Int64.toInt_ofInt_of_le h.1 h.2, if_pos ?_⟩
  exact ⟨h.1, Int.le_sub_one_of_lt h.2⟩

theorem exactInt_of_not_fits (op : Operator) (h : ¬ FitsInt64 n) :
    op.exactInt n = .error (.integerOverflow op) := by
  refine if_neg fun hrange => h ⟨hrange.1, ?_⟩
  exact Int.lt_of_le_sub_one hrange.2

theorem delivers_exactInt (op : Operator) (n : Int) :
    op.Delivers n ((op.exactInt n).map .int) := by
  constructor
  · intro hfits
    obtain ⟨i, hi, hexact⟩ := exactInt_of_fits op hfits
    exact ⟨i, hi, by rw [hexact]; rfl⟩
  · intro hfits
    rw [exactInt_of_not_fits op hfits]
    rfl

/-- Whatever is delivered is exact. -/
theorem Delivers.exact {v : Value} (h : op.Delivers n (.ok v)) :
    ∃ i : Int64, v = .int i ∧ i.toInt = n := by
  by_cases hfits : FitsInt64 n
  · obtain ⟨i, hi, hv⟩ := h.1 hfits
    exact ⟨i, Except.ok.inj hv, hi⟩
  · cases h.2 hfits

/-! ## Quotients and remainders -/

theorem eq_div_or_mod (hop : op ∈ [div, mod]) : op = div ∨ op = mod := by simpa using hop

theorem applyBinary_by_zero (a : Int64) (hop : op ∈ [div, mod]) :
    op.applyBinary (.int a) (.int 0) = .error .divisionByZero := by
  rcases eq_div_or_mod hop with rfl | rfl <;> rfl

theorem applyBinary_div (hb : b ≠ 0) :
    div.applyBinary (.int a) (.int b) = (div.exactInt (a.toInt.tdiv b.toInt)).map .int := by
  have hints : div.onInts a b = div.exactInt (a.toInt.tdiv b.toInt) := if_neg hb
  rw [← hints]
  rfl

theorem applyBinary_mod (hb : b ≠ 0) :
    mod.applyBinary (.int a) (.int b) =
      (mod.exactInt (a.toInt.tdiv b.toInt) >>= fun _ => mod.exactInt (a.toInt.tmod b.toInt)).map
        .int := by
  have hints : mod.onInts a b =
      mod.exactInt (a.toInt.tdiv b.toInt) >>= fun _ => mod.exactInt (a.toInt.tmod b.toInt) :=
    if_neg hb
  rw [← hints]
  rfl

theorem toInt_ne_zero (hb : b ≠ 0) : b.toInt ≠ 0 := fun h => hb (Int64.toInt_inj.mp h)

section OfDivision

variable {q r : Int} (h : IsDivision a.toInt b.toInt q r)

include h

theorem division_of_fits (hq : FitsInt64 q) :
    ∃ i j : Int64, i.toInt = q ∧ j.toInt = r ∧
      div.applyBinary (.int a) (.int b) = .ok (.int i) ∧
      mod.applyBinary (.int a) (.int b) = .ok (.int j) := by
  have hb : b ≠ 0 := fun hb => h.divisor_ne_zero (hb ▸ rfl)
  have hr := h.fits_remainder (fitsInt64_toInt b)
  obtain ⟨rfl, rfl⟩ := (isDivision_iff h.divisor_ne_zero).mp h
  obtain ⟨i, hi, hdiv⟩ := exactInt_of_fits div hq
  obtain ⟨_, -, hquot⟩ := exactInt_of_fits mod hq
  obtain ⟨j, hj, hrem⟩ := exactInt_of_fits mod hr
  refine ⟨i, j, hi, hj, ?_, ?_⟩
  · rw [applyBinary_div hb, hdiv]
    rfl
  · rw [applyBinary_mod hb, hquot]
    exact congrArg (Except.map Value.int) hrem

theorem division_of_not_fits (hq : ¬ FitsInt64 q) (hop : op ∈ [div, mod]) :
    op.applyBinary (.int a) (.int b) = .error (.integerOverflow op) := by
  have hb : b ≠ 0 := fun hb => h.divisor_ne_zero (hb ▸ rfl)
  obtain ⟨rfl, -⟩ := (isDivision_iff h.divisor_ne_zero).mp h
  rcases eq_div_or_mod hop with rfl | rfl
  · rw [applyBinary_div hb, exactInt_of_not_fits div hq]
    rfl
  · rw [applyBinary_mod hb, exactInt_of_not_fits mod hq]
    rfl

end OfDivision

/-- A division ends in one of three ways: its divisor is zero, its quotient has more than 64 bits,
or it gives the number asked for. -/
theorem division_cases (a b : Int64) (hop : op ∈ [div, mod]) :
    (b = 0 ∧ op.applyBinary (.int a) (.int b) = .error .divisionByZero) ∨
    ((∃ q r, IsDivision a.toInt b.toInt q r ∧ ¬ FitsInt64 q) ∧
      op.applyBinary (.int a) (.int b) = .error (.integerOverflow op)) ∨
    (∃ i : Int64, op.Computes a.toInt b.toInt i.toInt ∧
      op.applyBinary (.int a) (.int b) = .ok (.int i)) := by
  by_cases hb : b = 0
  · subst hb
    exact .inl ⟨rfl, applyBinary_by_zero a hop⟩
  · have h := isDivision_tdiv (a := a.toInt) (toInt_ne_zero hb)
    by_cases hq : FitsInt64 (a.toInt.tdiv b.toInt)
    · obtain ⟨i, j, hi, hj, hdiv, hmod⟩ := division_of_fits h hq
      rw [← hi, ← hj] at h
      rcases eq_div_or_mod hop with rfl | rfl
      · exact .inr (.inr ⟨i, .div h, hdiv⟩)
      · exact .inr (.inr ⟨j, .mod h, hmod⟩)
    · exact .inr (.inl ⟨⟨_, _, h, hq⟩, division_of_not_fits h hq hop⟩)

theorem division_eq_divisionByZero_iff (hop : op ∈ [div, mod]) :
    op.applyBinary (.int a) (.int b) = .error .divisionByZero ↔ b = 0 := by
  constructor
  · intro h
    rcases division_cases a b hop with ⟨hb, -⟩ | ⟨-, hover⟩ | ⟨i, -, hok⟩
    · exact hb
    · cases h.symm.trans hover
    · cases h.symm.trans hok
  · rintro rfl
    exact applyBinary_by_zero a hop

theorem division_eq_integerOverflow_iff (hop : op ∈ [div, mod]) :
    op.applyBinary (.int a) (.int b) = .error (.integerOverflow op) ↔
      ∃ q r, IsDivision a.toInt b.toInt q r ∧ ¬ FitsInt64 q := by
  constructor
  · intro h
    rcases division_cases a b hop with ⟨-, hzero⟩ | ⟨hover, -⟩ | ⟨i, -, hok⟩
    · cases h.symm.trans hzero
    · exact hover
    · cases h.symm.trans hok
  · rintro ⟨q, r, hdivision, hq⟩
    exact division_of_not_fits hdivision hq hop

/-- What arithmetic on integers returns is what the unbounded integers have. -/
theorem computes_of_ok {v : Value} (hop : op ∈ [add, sub, mul, div, mod])
    (h : op.applyBinary (.int a) (.int b) = .ok v) :
    ∃ i : Int64, v = .int i ∧ op.Computes a.toInt b.toInt i.toInt := by
  have hdelivered {n : Int} (hn : op.Computes a.toInt b.toInt n)
      (heq : op.applyBinary (.int a) (.int b) = (op.exactInt n).map .int) :
      ∃ i : Int64, v = .int i ∧ op.Computes a.toInt b.toInt i.toInt := by
    obtain ⟨i, rfl, rfl⟩ := Delivers.exact (h ▸ heq ▸ delivers_exactInt op n)
    exact ⟨i, rfl, hn⟩
  simp only [List.mem_cons, List.not_mem_nil, or_false] at hop
  rcases hop with rfl | rfl | rfl | hdivision
  · exact hdelivered (.add _ _) rfl
  · exact hdelivered (.sub _ _) rfl
  · exact hdelivered (.mul _ _) rfl
  · have hop : op ∈ [div, mod] := by simpa using hdivision
    rcases division_cases a b hop with ⟨-, hzero⟩ | ⟨-, hover⟩ | ⟨i, hi, hok⟩
    · cases h.symm.trans hzero
    · cases h.symm.trans hover
    · exact ⟨i, Except.ok.inj (h.symm.trans hok), hi⟩

end Operator

open Operator in
/-- **Integer arithmetic is exact or refused.** A sum, difference, product or opposite is the exact
one if it has 64 bits, and an overflow of its operator if not. A division or remainder fails for a
divisor of zero and for a quotient of more than 64 bits, and else gives the one quotient or the one
remainder there is. So no result is ever a wrapped one. -/
theorem arithmetic_exact (a b : Int64) :
    add.Delivers (a.toInt + b.toInt) (add.applyBinary (.int a) (.int b)) ∧
    sub.Delivers (a.toInt - b.toInt) (sub.applyBinary (.int a) (.int b)) ∧
    mul.Delivers (a.toInt * b.toInt) (mul.applyBinary (.int a) (.int b)) ∧
    neg.Delivers (-a.toInt) (neg.applyUnary (.int a)) ∧
    (∀ op ∈ [div, mod],
      (op.applyBinary (.int a) (.int b) = .error .divisionByZero ↔ b = 0) ∧
      (op.applyBinary (.int a) (.int b) = .error (.integerOverflow op) ↔
        ∃ q r, IsDivision a.toInt b.toInt q r ∧ ¬ FitsInt64 q)) ∧
    (b ≠ 0 → ∃ q r, ∀ q' r', IsDivision a.toInt b.toInt q' r' ↔ q' = q ∧ r' = r) ∧
    (∀ q r, IsDivision a.toInt b.toInt q r → FitsInt64 q →
      ∃ i j : Int64, i.toInt = q ∧ j.toInt = r ∧
        div.applyBinary (.int a) (.int b) = .ok (.int i) ∧
        mod.applyBinary (.int a) (.int b) = .ok (.int j)) ∧
    (∀ op ∈ [add, sub, mul, div, mod], ∀ v, op.applyBinary (.int a) (.int b) = .ok v →
      ∃ i : Int64, v = .int i ∧ op.Computes a.toInt b.toInt i.toInt) := by
  refine ⟨delivers_exactInt _ _, delivers_exactInt _ _, delivers_exactInt _ _,
    delivers_exactInt _ _, fun op hop => ?_, fun hb => ?_,
    fun q r h hq => division_of_fits h hq, fun op hop v h => computes_of_ok hop h⟩
  · exact ⟨division_eq_divisionByZero_iff hop, division_eq_integerOverflow_iff hop⟩
  · exact ⟨_, _, fun q' r' => isDivision_iff (toInt_ne_zero hb)⟩

open Operator in
/-- The quotient of the least integer by `-1` is refused, and so is the remainder. Both are negative
for `-7` by `2`. -/
theorem arithmetic_exact_signs :
    IsDivision Int64.minValue.toInt (-1 : Int64).toInt (2 ^ 63) 0 ∧
    mod.applyBinary (.int Int64.minValue) (.int (-1)) = .error (.integerOverflow mod) ∧
    IsDivision (-7 : Int64).toInt (2 : Int64).toInt (-3) (-1) ∧
    ∃ i j : Int64, i.toInt = -3 ∧ j.toInt = -1 ∧
      div.applyBinary (.int (-7)) (.int 2) = .ok (.int i) ∧
      mod.applyBinary (.int (-7)) (.int 2) = .ok (.int j) := by
  have hleast : IsDivision Int64.minValue.toInt (-1 : Int64).toInt (2 ^ 63) 0 :=
    ⟨by decide, by decide, by decide⟩
  have hseven : IsDivision (-7 : Int64).toInt (2 : Int64).toInt (-3) (-1) :=
    ⟨by decide, by decide, by decide⟩
  obtain ⟨-, -, -, -, hfails, -⟩ := arithmetic_exact Int64.minValue (-1)
  obtain ⟨-, -, -, -, -, -, hgives, -⟩ := arithmetic_exact (-7) 2
  refine ⟨hleast, (hfails mod (by decide)).2.mpr ⟨_, _, hleast, ?_⟩, hseven, ?_⟩
  · exact fun hfits => absurd hfits.2 (by decide)
  · exact hgives (-3) (-1) hseven ⟨by decide, by decide⟩

end StackScript
