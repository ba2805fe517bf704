import Mathlib.Algebra.Ring.Nat
import Mathlib.Data.Bool.Basic
import Mathlib.Data.String.Basic
import StackScript.Proofs.Operator.Causes

/-!
# The order behind the comparisons

Integers, strings and Booleans have one order each (`Value.Before`), and all six comparisons are
read off it. That of strings is the lexicographic order of their UTF-8 bytes. Strings are compared
character by character, so this rests on a property of the encoding: a greater code point has the
greater bytes, whatever comes after them (`Utf8.encodeChar_below`). Sequences of one length are
compared digit by digit (`Utf8.sequence_below`), and a longer one has the greater first byte.

* **`comparisons_ordered`**: the comparisons of two values of one type other than `double` always
  succeed, and agree with the order of that type.
-/

namespace StackScript

/-! ## Texts as bytes and as code points -/

/-- The UTF-8 bytes of a text. -/
def utf8 (s : String) : List UInt8 := s.toUTF8.data.toList

/-- The code points of a text. -/
def codePoints (s : String) : List Nat := s.toList.map Char.toNat

theorem utf8_eq_flatMap (s : String) : utf8 s = s.toList.flatMap String.utf8EncodeChar := by
  rw [utf8, String.toUTF8, ← String.utf8Encode_toList, List.utf8Encode,
    List.toList_data_toByteArray]

theorem codePoints_eq_flatMap (s : String) :
    codePoints s = s.toList.flatMap fun c => [c.toNat] :=
  List.map_eq_flatMap

/-- `xs` comes before `ys`, whatever follows either. -/
def Below {α : Type} [LT α] (xs ys : List α) : Prop := ∀ us vs, xs ++ us < ys ++ vs

section Encoding

variable {α : Type} [LT α]

theorem below_of_head_lt {x y : α} (h : x < y) (xs ys : List α) : Below (x :: xs) (y :: ys) :=
  fun _ _ => .rel h

theorem Below.append {xs ys : List α} (h : Below xs ys) (us vs : List α) :
    Below (xs ++ us) (ys ++ vs) := by
  intro us' vs'
  rw [List.append_assoc, List.append_assoc]
  exact h _ _

theorem Below.append_left {xs ys : List α} (h : Below xs ys) (zs : List α) :
    Below (zs ++ xs) (zs ++ ys) := by
  intro us vs
  rw [List.append_assoc, List.append_assoc]
  exact List.append_left_lt (h us vs)

/-- An encoding that keeps the order of characters keeps that of texts. -/
theorem flatMap_lt_flatMap {enc : Char → List α} (hnil : ∀ c, enc c ≠ [])
    (henc : ∀ {c d}, c < d → Below (enc c) (enc d)) {l m : List Char} (h : l < m) :
    l.flatMap enc < m.flatMap enc := by
  induction h with
  | @nil c m =>
    obtain ⟨x, xs, hx⟩ := List.exists_cons_of_ne_nil (hnil c)
    rw [List.flatMap_cons, hx]
    exact .nil
  | rel hlt =>
    rw [List.flatMap_cons, List.flatMap_cons]
    exact henc hlt _ _
  | cons _ ih =>
    rw [List.flatMap_cons, List.flatMap_cons]
    exact List.append_left_lt ih

/-- Comparing texts by such an encoding is comparing them character by character. -/
theorem flatMap_lt_flatMap_iff [Std.Asymm fun x y : α => x < y] {enc : Char → List α}
    (hnil : ∀ c, enc c ≠ []) (henc : ∀ {c d}, c < d → Below (enc c) (enc d)) {s t : String} :
    s.toList.flatMap enc < t.toList.flatMap enc ↔ s < t := by
  constructor
  · intro h
    rcases lt_trichotomy s t with hlt | rfl | hgt
    · exact hlt
    · exact absurd h (List.lt_irrefl _)
    · exact absurd h (List.lt_asymm (flatMap_lt_flatMap hnil henc (String.lt_iff_toList_lt.mp hgt)))
  · intro h
    exact flatMap_lt_flatMap hnil henc (String.lt_iff_toList_lt.mp h)

end Encoding

namespace Utf8

/-- A first byte, marked by `offset`, and `k` bytes of six bits after it. -/
def sequence (offset : Nat) : (k n : Nat) → List UInt8
  | 0, n => [UInt8.ofNat (n + offset)]
  | k + 1, n => sequence offset k (n / 64) ++ [UInt8.ofNat (n % 64 + 128)]

/-- How many bytes follow the first one for a code point, and what marks the first one. -/
inductive Sized (n : Nat) : (k offset : Nat) → Prop where
  | one (hi : n < 0x80) : Sized n 0 0
  | two (lo : 0x80 ≤ n) (hi : n < 0x800) : Sized n 1 0xc0
  | three (lo : 0x800 ≤ n) (hi : n < 0x10000) : Sized n 2 0xe0
  | four (lo : 0x10000 ≤ n) (hi : n < 0x110000) : Sized n 3 0xf0

theorem encodeChar_eq_sequence (c : Char) :
    ∃ k offset, Sized c.toNat k offset ∧ String.utf8EncodeChar c = sequence offset k c.toNat := by
  have hmax : c.toNat < 0x110000 := by
    rcases c.valid with h | h
    · exact Nat.lt_trans h (by decide)
    · exact h.2
  have hval : c.val.toNat = c.toNat := rfl
  rw [String.utf8EncodeChar, hval]
  -- the first byte drops no bit of a code point of its class
  by_cases h₁ : c.toNat ≤ 0x7f
  · exact ⟨0, 0, .one (by omega), if_pos h₁⟩
  by_cases h₂ : c.toNat ≤ 0x7ff
  · refine ⟨1, 0xc0, .two (by omega) (by omega), ?_⟩
    rw [if_neg h₁, if_pos h₂, Nat.mod_eq_of_lt (by omega : c.toNat / 64 < 32)]
    rfl
  by_cases h₃ : c.toNat ≤ 0xffff
  · refine ⟨2, 0xe0, .three (by omega) (by omega), ?_⟩
    rw [if_neg h₁, if_neg h₂, if_pos h₃, Nat.mod_eq_of_lt (by omega : c.toNat / 4096 < 16)]
    simp only [sequence, Nat.div_div_eq_div_mul, List.cons_append, List.nil_append]
  · refine ⟨3, 0xf0, .four (by omega) hmax, ?_⟩
    rw [if_neg h₁, if_neg h₂, if_neg h₃, Nat.mod_eq_of_lt (by omega : c.toNat / 262144 < 8)]
    simp only [sequence, Nat.div_div_eq_div_mul, List.cons_append, List.nil_append]

theorem ofNat_lt_ofNat {m n : Nat} (h : m < n) (hn : n < 256) : UInt8.ofNat m < UInt8.ofNat n :=
  (UInt8.ofNat_lt_iff_lt (Nat.lt_trans h hn) hn).mpr h

/-- Sequences of one length are compared as the numbers are: the last digit decides where the others
agree. -/
theorem sequence_below {offset k m n : Nat} (h : m < n) (hn : n / 64 ^ k + offset < 256) :
    Below (sequence offset k m) (sequence offset k n) := by
  induction k generalizing m n with
  | zero =>
    rw [pow_zero, Nat.div_one] at hn
    exact below_of_head_lt (ofNat_lt_ofNat (Nat.add_lt_add_right h _) hn) _ _
  | succ k ih =>
    rw [pow_succ', ← Nat.div_div_eq_div_mul] at hn
    rcases Nat.lt_or_eq_of_le (Nat.div_le_div_right (c := 64) (Nat.le_of_lt h)) with hlt | heq
    · exact (ih hlt hn).append _ _
    · have hlast : m % 64 + 128 < n % 64 + 128 := by omega
      rw [sequence, sequence, heq]
      exact (below_of_head_lt (ofNat_lt_ofNat hlast (by omega)) [] []).append_left _

theorem sequence_eq_cons (offset k n : Nat) :
    ∃ rest, sequence offset k n = UInt8.ofNat (n / 64 ^ k + offset) :: rest := by
  induction k generalizing n with
  | zero => exact ⟨[], by rw [sequence, pow_zero, Nat.div_one]⟩
  | succ k ih =>
    obtain ⟨rest, hrest⟩ := ih (n / 64)
    exact ⟨_, by rw [sequence, hrest, pow_succ', Nat.div_div_eq_div_mul, List.cons_append]⟩

theorem Sized.first_lt {n k offset : Nat} (h : Sized n k offset) : n / 64 ^ k + offset < 256 := by
  cases h <;> omega

/-- The first bytes of different lengths lie in ranges of their own. -/
theorem Sized.eq_or_first_lt {m n k k' offset offset' : Nat} (hm : Sized m k offset)
    (hn : Sized n k' offset') (h : m < n) :
    (k = k' ∧ offset = offset') ∨ m / 64 ^ k + offset < n / 64 ^ k' + offset' := by
  cases hm <;> cases hn <;> omega

/-- The greater of two code points has the greater bytes. -/
theorem encodeChar_below {c d : Char} (h : c < d) :
    Below (String.utf8EncodeChar c) (String.utf8EncodeChar d) := by
  obtain ⟨k, offset, hc, hceq⟩ := encodeChar_eq_sequence c
  obtain ⟨k', offset', hd, hdeq⟩ := encodeChar_eq_sequence d
  rw [hceq, hdeq]
  rcases hc.eq_or_first_lt hd h with ⟨rfl, rfl⟩ | hfirst
  · exact sequence_below h hd.first_lt
  · obtain ⟨xs, hxs⟩ := sequence_eq_cons offset k c.toNat
    obtain ⟨ys, hys⟩ := sequence_eq_cons offset' k' d.toNat
    rw [hxs, hys]
    exact below_of_head_lt (ofNat_lt_ofNat hfirst hd.first_lt) xs ys

end Utf8

theorem utf8_lt_iff {s t : String} : utf8 s < utf8 t ↔ s < t := by
  rw [utf8_eq_flatMap, utf8_eq_flatMap]
  exact flatMap_lt_flatMap_iff (fun _ => String.utf8EncodeChar_ne_nil) Utf8.encodeChar_below

theorem codePoints_lt_iff {s t : String} : codePoints s < codePoints t ↔ s < t := by
  have hbelow {c d : Char} (h : c < d) : Below [c.toNat] [d.toNat] := by
    have hlt : c.toNat < d.toNat := h
    exact below_of_head_lt hlt [] []
  rw [codePoints_eq_flatMap, codePoints_eq_flatMap]
  exact flatMap_lt_flatMap_iff (fun _ => List.cons_ne_nil _ _) hbelow

/-! ## One order for each type -/

/-- The types whose values have an order. -/
def ValueType.isOrdered : ValueType → Bool
  | int | string | bool => true
  | undefined | double => false

/-- The order of values of one type: integers by size, strings by their bytes, false before true. -/
inductive Value.Before : Value → Value → Prop where
  | int {a b : Int64} (h : a.toInt < b.toInt) : Before (.int a) (.int b)
  | string {s t : String} (h : utf8 s < utf8 t) : Before (.string s) (.string t)
  | bool : Before (.bool false) (.bool true)

namespace Value

variable {l r x : Value}

theorem before_int {a b : Int64} : Before (.int a) (.int b) ↔ a.toInt < b.toInt :=
  ⟨fun h => by cases h; assumption, .int⟩

theorem before_string {s t : String} : Before (.string s) (.string t) ↔ s < t := by
  rw [← utf8_lt_iff]
  exact ⟨fun h => by cases h; assumption, .string⟩

theorem before_bool {c d : Bool} : Before (.bool c) (.bool d) ↔ c < d := by
  constructor
  · intro h
    cases h
    decide
  · intro h
    obtain ⟨rfl, rfl⟩ := Bool.lt_iff.mp h
    exact .bool

theorem Before.trans (h : Before l r) (h' : Before r x) : Before l x := by
  cases h with
  | int h =>
    cases h' with
    | int h' => exact .int (Int.lt_trans h h')
  | string h =>
    cases h' with
    | string h' => exact .string (List.lt_trans h h')
  | bool => cases h'

/-- What `order?` answers is the place of the left operand in the order of its type. -/
structure Placed (l r : Value) (o : Ordering) : Prop where
  lt_iff : o = .lt ↔ Before l r
  eq_iff : o = .eq ↔ l = r
  gt_iff : o = .gt ↔ Before r l

theorem order?_placed (hl : l.type.isOrdered) (hr : r.type = l.type) :
    ∃ o, l.order? r = some o ∧ Placed l r o := by
  cases l with
  | undefined | double x => cases hl
  | int a =>
    cases r with
    | int b =>
      refine ⟨_, rfl, ?_, ?_, ?_⟩
      · rw [Int.compare_eq_lt, before_int]
      · rw [Int.compare_eq_eq, Int64.toInt_inj, Value.int.injEq]
      · rw [Int.compare_eq_gt, before_int]
    | undefined | double y | string t | bool c => cases hr
  | string s =>
    cases r with
    | string t =>
      refine ⟨_, rfl, ?_, ?_, ?_⟩
      · rw [compare_lt_iff_lt, before_string]
      · rw [compare_eq_iff_eq, Value.string.injEq]
      · rw [compare_gt_iff_gt, before_string]
    | undefined | int b | double y | bool c => cases hr
  | bool c =>
    cases r with
    | bool d =>
      refine ⟨_, rfl, ?_, ?_, ?_⟩
      · rw [compare_lt_iff_lt, before_bool]
      · rw [compare_eq_iff_eq, Value.bool.injEq]
      · rw [compare_gt_iff_gt, before_bool]
    | undefined | int b | double y | string t => cases hr

/-- Two values of one ordered type are in order one way, the other way, or equal, and only one of
these. -/
theorem trichotomy (hl : l.type.isOrdered) (hr : r.type = l.type) :
    (Before l r ∧ l ≠ r ∧ ¬ Before r l) ∨ (¬ Before l r ∧ l = r ∧ ¬ Before r l) ∨
      (¬ Before l r ∧ l ≠ r ∧ Before r l) := by
  obtain ⟨o, -, hlt, heq, hgt⟩ := order?_placed hl hr
  rw [← hlt, Ne, ← heq, ← hgt]
  cases o <;> decide

theorem not_before_iff (hl : l.type.isOrdered) (hr : r.type = l.type) :
    ¬ Before r l ↔ Before l r ∨ l = r := by
  have := trichotomy hl hr
  tauto

end Value

/-! ## The comparisons -/

namespace Operator

variable {op : Operator} {l r : Value}

/-- A comparison succeeds and comes out true. -/
def Holds (op : Operator) (l r : Value) : Prop := op.applyBinary l r = .ok (.bool true)

/-- What a comparison says of the order. -/
def Relates (op : Operator) (l r : Value) : Prop :=
  match op with
  | eq => l = r
  | ne => l ≠ r
  | lt => l.Before r
  | le => ¬ r.Before l
  | gt => r.Before l
  | ge => ¬ l.Before r
  | _ => False

theorem resultType?_comparison {t : ValueType} (hop : op.isComparison) (ht : t.isOrdered) :
    op.resultType? t (some t) = some .bool := by
  have hbinary : op.isUnary = false := by cases op <;> first | rfl | cases hop
  have hpromote : ValueType.promote t t = (t, t) := by cases t <;> rfl
  have hdefined : t ≠ .undefined := by
    rintro rfl
    cases ht
  simp [resultType?, binaryType?, hbinary, hpromote, hdefined, hop]

theorem applyBinary_comparison {o : Ordering} (hop : op.isComparison) (hl : l.type.isOrdered)
    (hr : r.type = l.type) (ho : l.order? r = some o) :
    op.applyBinary l r = (op.holdsFor o).map .bool := by
  simp only [applyBinary, hr, resultType?_comparison hop hl, hop, if_true, onOrder, ho]

theorem holds_iff_relates (op : Operator) (hop : op.isComparison) (hl : l.type.isOrdered)
    (hr : r.type = l.type) : op.Holds l r ↔ op.Relates l r := by
  obtain ⟨o, ho, hlt, heq, hgt⟩ := Value.order?_placed hl hr
  rw [Holds, applyBinary_comparison hop hl hr ho]
  cases op with
  | eq => rw [Relates, ← heq]; cases o <;> decide
  | ne => rw [Relates, Ne, ← heq]; cases o <;> decide
  | lt => rw [Relates, ← hlt]; cases o <;> decide
  | le => rw [Relates, ← hgt]; cases o <;> decide
  | gt => rw [Relates, ← hgt]; cases o <;> decide
  | ge => rw [Relates, ← hlt]; cases o <;> decide
  | _ => cases hop

end Operator

open Operator in
/-- **Comparisons outside doubles form a total order.** On integers, strings and Booleans each of
the six succeeds and says of the order of that type what its sign says: one of `<`, `==` and `>`
holds, `>=`, `!=` and `<=` are their negations, equality is that of values, and `<` and `<=` are
transitive. The order of strings is that of their bytes and that of their code points. -/
theorem comparisons_ordered {l r : Value} (hl : l.type.isOrdered) (hr : r.type = l.type) :
    (∀ op : Operator, op.isComparison → ∃ b, op.applyBinary l r = .ok (.bool b)) ∧
    (lt.Holds l r ↔ l.Before r) ∧ (gt.Holds l r ↔ r.Before l) ∧ (eq.Holds l r ↔ l = r) ∧
    (le.Holds l r ↔ ¬ gt.Holds l r) ∧ (ge.Holds l r ↔ ¬ lt.Holds l r) ∧
    (ne.Holds l r ↔ ¬ eq.Holds l r) ∧
    ((lt.Holds l r ∧ ¬ eq.Holds l r ∧ ¬ gt.Holds l r) ∨
      (¬ lt.Holds l r ∧ eq.Holds l r ∧ ¬ gt.Holds l r) ∨
      (¬ lt.Holds l r ∧ ¬ eq.Holds l r ∧ gt.Holds l r)) ∧
    (∀ x : Value, x.type = l.type →
      (lt.Holds l r → lt.Holds r x → lt.Holds l x) ∧
      (le.Holds l r → le.Holds r x → le.Holds l x)) ∧
    ∀ s t : String, utf8 s < utf8 t ↔ codePoints s < codePoints t := by
  have hlt := holds_iff_relates lt rfl hl hr
  have hgt := holds_iff_relates gt rfl hl hr
  have heq := holds_iff_relates eq rfl hl hr
  rw [holds_iff_relates le rfl hl hr, holds_iff_relates ge rfl hl hr,
    holds_iff_relates ne rfl hl hr, hlt, hgt, heq]
  refine ⟨fun op hop => ?_, .rfl, .rfl, .rfl, .rfl, .rfl, .rfl, Value.trichotomy hl hr,
    fun x hx => ?_, fun s t => utf8_lt_iff.trans codePoints_lt_iff.symm⟩
  · obtain ⟨o, ho, -⟩ := Value.order?_placed hl hr
    obtain ⟨b, hb⟩ := holdsFor_ok hop o
    exact ⟨b, by rw [applyBinary_comparison hop hl hr ho, hb]; rfl⟩
  · have hrl : r.type.isOrdered := hr ▸ hl
    have hxr : x.type = r.type := hx.trans hr.symm
    rw [holds_iff_relates lt rfl hrl hxr, holds_iff_relates lt rfl hl hx,
      holds_iff_relates le rfl hrl hxr, holds_iff_relates le rfl hl hx]
    refine ⟨Value.Before.trans, ?_⟩
    simp only [Relates, Value.not_before_iff hl hr, Value.not_before_iff hrl hxr,
      Value.not_before_iff hl hx]
    rintro (h | rfl) (h' | rfl)
    · exact .inl (h.trans h')
    · exact .inl h
    · exact .inl h'
    · exact .inr rfl

open Operator in
/-- An emoji comes after U+FFFF, although a pair of surrogates would come before it; and a text
comes before those that it begins. -/
theorem comparisons_ordered_emoji :
    lt.Holds (.string "\uffff") (.string "😀") ∧ lt.Holds (.string "😀") (.string "😀a") ∧
      lt.Holds (.string "\uffff") (.string "😀a") ∧ ¬ ge.Holds (.string "\uffff") (.string "😀") := by
  obtain ⟨-, hiff, -, -, -, hge, -, -, htrans, htexts⟩ :=
    comparisons_ordered (l := .string "\uffff") (r := .string "😀") rfl rfl
  obtain ⟨-, hiff', -⟩ := comparisons_ordered (l := .string "😀") (r := .string "😀a") rfl rfl
  have hlt := hiff.mpr (.string ((htexts _ _).mpr (by decide)))
  have hlt' := hiff'.mpr (.string ((htexts _ _).mpr (by decide)))
  exact ⟨hlt, hlt', (htrans (.string "😀a") rfl).1 hlt hlt', fun h => hge.mp h hlt⟩

end StackScript
