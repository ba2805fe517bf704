import Mathlib.Computability.Language
import Mathlib.Data.List.TakeWhile
import Mathlib.Data.Nat.Digits.Defs
import StackScript.Proofs.Rendering.Literal
import StackScript.Proofs.Source.Bytes

/-!
# The grammar of numbers

`Grammar.number` is the language of number literals, put together from languages of single
characters: digits with or without a point among them, and an exponent that may be missing. A word
of it stands at the front of a text as a literal if no letter, digit, underscore or point follows
(`NumberAt`).

The scanner goes through a text in three stages and gives up in several places, and it reads exactly
these literals: `mem_number` ties the language to the parts of a number, `numeral?_eq_some_iff` says
when the parts are recognised, and **`Scanner.number_grammar`** what is made of them.
-/

namespace StackScript

open Lexeme
open scoped Computability

namespace Literal

/-! ## The language -/

namespace Grammar

/-- A single decimal digit. -/
def digit : Language Char := {w | ∃ c : Char, c.isDigit ∧ w = [c]}

/-- A single given character. -/
def mark (c : Char) : Language Char := {[c]}

/-- At least one digit. -/
def digits : Language Char := digit * digit∗

/-- Digits, with a point behind or among them or in front of them. -/
def mantissa : Language Char := digits + digits * mark '.' * digit∗ + mark '.' * digits

/-- A power of ten. -/
def exponent : Language Char := (mark 'e' + mark 'E') * (1 + mark '+' + mark '-') * digits

/-- The number literals. -/
def number : Language Char := mantissa * (1 + exponent)

variable {w : List Char}

theorem mem_mark {c : Char} : w ∈ mark c ↔ w = [c] := Iff.rfl

theorem mem_digit_star : w ∈ digit∗ ↔ AreDigits w := by
  constructor
  · intro h
    obtain ⟨pieces, rfl, hpieces⟩ := Language.mem_kstar.mp h
    intro c hc
    obtain ⟨piece, hpiece, hmem⟩ := List.mem_flatten.mp hc
    obtain ⟨d, hd, rfl⟩ := hpieces piece hpiece
    rwa [List.mem_singleton.mp hmem]
  · intro h
    refine Language.mem_kstar.mpr ⟨w.map fun c => [c], ?_, fun piece hpiece => ?_⟩
    · rw [← List.flatMap_def, List.flatMap_singleton']
    · obtain ⟨c, hc, rfl⟩ := List.mem_map.mp hpiece
      exact ⟨c, h c hc, rfl⟩

theorem mem_digits : w ∈ digits ↔ w ≠ [] ∧ AreDigits w := by
  constructor
  · intro h
    obtain ⟨_, ⟨c, hc, rfl⟩, rest, hrest, rfl⟩ := Language.mem_mul.mp h
    refine ⟨List.cons_ne_nil _ _, fun d hd => ?_⟩
    rcases List.mem_cons.mp hd with rfl | hd
    · exact hc
    · exact mem_digit_star.mp hrest d hd
  · rintro ⟨hne, h⟩
    obtain ⟨c, rest, rfl⟩ := List.exists_cons_of_ne_nil hne
    refine Language.mem_mul.mpr ⟨[c], ⟨c, h c List.mem_cons_self, rfl⟩, rest, ?_, rfl⟩
    exact mem_digit_star.mpr fun d hd => h d (List.mem_cons_of_mem _ hd)

/-- A mantissa is a whole part with the text of a fraction behind it; one of them has a digit. -/
theorem mem_mantissa : w ∈ mantissa ↔ ∃ whole f text, AreDigits whole ∧
    (whole ≠ [] ∨ f.getD [] ≠ []) ∧ FractionText f text ∧ w = whole ++ text := by
  simp only [mantissa, Language.mem_add, Language.mem_mul, mem_digits, mem_digit_star, mem_mark]
  constructor
  · rintro ((⟨hne, hw⟩ | ⟨_, ⟨whole, ⟨hne, hwhole⟩, _, rfl, rfl⟩, f, hf, rfl⟩) |
      ⟨_, rfl, f, ⟨hne, hf⟩, rfl⟩)
    · exact ⟨w, none, [], hw, .inl hne, .none, (List.append_nil w).symm⟩
    · exact ⟨whole, some f, _, hwhole, .inl hne, .some hf, List.append_assoc _ _ _⟩
    · exact ⟨[], some f, _, List.forall_mem_nil _, .inr hne, .some hf, rfl⟩
  · rintro ⟨whole, _, _, hwhole, hne, hf | hf, rfl⟩
    · rw [List.append_nil]
      exact .inl (.inl ⟨hne.resolve_right fun h => h rfl, hwhole⟩)
    · rename_i f
      by_cases hnil : whole = []
      · subst hnil
        exact .inr ⟨_, rfl, f, ⟨hne.resolve_left fun h => h rfl, hf⟩, rfl⟩
      · refine .inl (.inr ⟨whole ++ ['.'], ⟨whole, ⟨hnil, hwhole⟩, _, rfl, rfl⟩, f, hf, ?_⟩)
        exact List.append_assoc _ _ _

theorem mem_exponent : w ∈ 1 + exponent ↔ ∃ e, ExponentText e w := by
  simp only [exponent, Language.mem_add, Language.mem_one, Language.mem_mul, mem_digits, mem_mark]
  constructor
  · rintro (rfl | ⟨_, ⟨_, he, sign, hsign, rfl⟩, ds, ⟨hne, hds⟩, rfl⟩)
    · exact ⟨none, .none⟩
    · have hletter : ∃ c, (c = 'e' ∨ c = 'E') ∧ _ = [c] :=
        he.elim (fun h => ⟨'e', .inl rfl, h⟩) fun h => ⟨'E', .inr rfl, h⟩
      obtain ⟨c, hc, rfl⟩ := hletter
      rcases hsign with (rfl | rfl) | rfl
      · exact ⟨_, .some hc .none hne hds⟩
      · exact ⟨_, .some hc .plus hne hds⟩
      · exact ⟨_, .some hc .minus hne hds⟩
  · rintro ⟨_, _ | ⟨he, hsign, hne, hds⟩⟩
    · exact .inl rfl
    · rename_i c sign ds
      refine .inr ⟨c :: sign, ⟨[c], ?_, sign, ?_, rfl⟩, ds, ⟨hne, hds⟩, rfl⟩
      · rcases he with rfl | rfl
        · exact .inl rfl
        · exact .inr rfl
      · cases hsign with
        | none => exact .inl (.inl rfl)
        | plus => exact .inl (.inr rfl)
        | minus => exact .inr rfl

/-- **The literals are the texts of numbers.** -/
theorem mem_number : w ∈ number ↔ ∃ n : Numeral, n.Written w := by
  rw [number, Language.mem_mul]
  constructor
  · rintro ⟨_, hm, x, hx, rfl⟩
    obtain ⟨whole, f, text, hwhole, hne, hf, rfl⟩ := mem_mantissa.mp hm
    obtain ⟨e, he⟩ := mem_exponent.mp hx
    exact ⟨⟨whole, f, e⟩, hwhole, hne, text, x, hf, he, List.append_assoc _ _ _⟩
  · rintro ⟨n, hwhole, hne, text, x, hf, he, rfl⟩
    exact ⟨_, mem_mantissa.mpr ⟨_, _, text, hwhole, hne, hf, rfl⟩, x, mem_exponent.mpr ⟨_, he⟩,
      List.append_assoc _ _ _⟩

end Grammar

/-! ## Recognising numbers -/

/-- Behind the digits at the front of a text there is no digit. -/
theorem head?_dropWhile_isDigit (text : List Char) :
    ∀ c ∈ (text.dropWhile Char.isDigit).head?, c.isDigit = false := by
  intro c hc
  obtain ⟨rest, hrest⟩ := List.head?_eq_some_iff.mp hc
  have hfirst := List.dropWhile_get_zero_not Char.isDigit text (by rw [hrest]; exact Nat.succ_pos _)
  simpa [hrest] using hfirst

theorem areDigits_takeWhile (text : List Char) : AreDigits (text.takeWhile Char.isDigit) :=
  fun _ hc => List.mem_takeWhile_imp hc

/-- What is recognised as a fraction is the text of one. -/
theorem fractionText_fraction (text : List Char) (hfirst : ∀ c ∈ text.head?, c.isDigit = false) :
    ∃ piece, text = piece ++ (fraction text).2 ∧ FractionText (fraction text).1 piece ∧
      ∀ c ∈ (fraction text).2.head?, c.isDigit = false := by
  cases text with
  | nil => exact ⟨[], rfl, .none, hfirst⟩
  | cons c rest =>
    by_cases hc : c = '.'
    · subst hc
      refine ⟨'.' :: rest.takeWhile Char.isDigit, ?_, .some (areDigits_takeWhile rest),
        head?_dropWhile_isDigit rest⟩
      exact congrArg ('.' :: ·) List.takeWhile_append_dropWhile.symm
    · simp only [fraction, if_neg hc]
      exact ⟨[], rfl, .none, hfirst⟩

theorem signText_exponentSign (text : List Char) :
    ∃ sign, text = sign ++ (exponentSign text).2 ∧ SignText (exponentSign text).1 sign := by
  cases text with
  | nil => exact ⟨[], rfl, .none⟩
  | cons c rest =>
    by_cases hplus : c = '+'
    · subst hplus
      exact ⟨['+'], rfl, .plus⟩
    · by_cases hminus : c = '-'
      · subst hminus
        exact ⟨['-'], rfl, .minus⟩
      · have hc : ¬ (c = '+' ∨ c = '-') := not_or.mpr ⟨hplus, hminus⟩
        simp only [exponentSign, if_neg hc]
        exact ⟨[], rfl, .none⟩

/-- What is recognised as an exponent is the text of one. -/
theorem exponentText_exponent? {text rest : List Char} {e : Option (Bool × List Char)}
    (h : exponent? text = some (e, rest)) (hfirst : ∀ c ∈ text.head?, c.isDigit = false) :
    ∃ piece, text = piece ++ rest ∧ ExponentText e piece ∧
      ∀ c ∈ rest.head?, c.isDigit = false := by
  cases text with
  | nil =>
    cases h
    exact ⟨[], rfl, .none, hfirst⟩
  | cons c text =>
    by_cases hc : c = 'e' ∨ c = 'E'
    · obtain ⟨sign, hsign, hsignText⟩ := signText_exponentSign text
      simp only [exponent?, if_pos hc] at h
      split at h
      · cases h
      · rename_i hne
        cases h
        refine ⟨c :: (sign ++ (exponentSign text).2.takeWhile Char.isDigit), ?_,
          .some hc hsignText hne (areDigits_takeWhile _), head?_dropWhile_isDigit _⟩
        rw [List.cons_append, List.append_assoc, List.takeWhile_append_dropWhile, ← hsign]
    · simp only [exponent?, if_neg hc] at h
      cases h
      exact ⟨[], rfl, .none, hfirst⟩

/-- What is recognised as a number is the text of one, and ends it. -/
theorem written_of_numeral? {text rest : List Char} {n : Numeral}
    (h : numeral? text = some (n, rest)) :
    ∃ w, text = w ++ rest ∧ n.Written w ∧ EndsNumber rest := by
  obtain ⟨piece, hpiece, hfraction, hdigit⟩ :=
    fractionText_fraction _ (head?_dropWhile_isDigit text)
  simp only [numeral?] at h
  split at h
  · cases h
  · rename_i hsome
    split at h
    · cases h
    · rename_i hexp
      obtain ⟨power, hpower, hexponent, hends⟩ := exponentText_exponent? hexp hdigit
      split at h
      · cases h
      · rename_i hstop
        cases h
        refine ⟨text.takeWhile Char.isDigit ++ (piece ++ power), ?_,
          ⟨areDigits_takeWhile text, ?_, piece, power, hfraction, hexponent, rfl⟩, ?_⟩
        · rw [List.append_assoc, List.append_assoc, ← hpower, ← hpiece,
            List.takeWhile_append_dropWhile]
        · rw [Bool.and_eq_true, List.isEmpty_iff, List.isEmpty_iff] at hsome
          exact Decidable.not_and_iff_not_or_not.mp hsome
        · intro c hc
          have hmore : continuesNumber c = false := by
            rw [hc] at hstop
            simpa using hstop
          exact ⟨hmore, hends c hc⟩

/-- **A number is recognised where a text of it ends.** -/
theorem numeral?_eq_some_iff {text rest : List Char} {n : Numeral} :
    numeral? text = some (n, rest) ↔ ∃ w, text = w ++ rest ∧ n.Written w ∧ EndsNumber rest := by
  refine ⟨written_of_numeral?, ?_⟩
  rintro ⟨w, rfl, hw, hrest⟩
  exact numeral?_written hw hrest

theorem Grammar.mem_number_iff {w : List Char} :
    w ∈ number ↔ (numeral? w).any (·.2.isEmpty) := by
  rw [Option.any_eq_true]
  constructor
  · intro h
    obtain ⟨n, hn⟩ := mem_number.mp h
    refine ⟨(n, []), numeral?_eq_some_iff.mpr ⟨w, ?_, hn, fun _ hc => by cases hc⟩, rfl⟩
    rw [List.append_nil]
  · rintro ⟨⟨n, rest⟩, hfound, hrest⟩
    obtain rfl := List.isEmpty_iff.mp hrest
    obtain ⟨w', rfl, hw', -⟩ := numeral?_eq_some_iff.mp hfound
    rw [List.append_nil]
    exact mem_number.mpr ⟨n, hw'⟩

instance (w : List Char) : Decidable (w ∈ Grammar.number) :=
  decidable_of_iff _ Grammar.mem_number_iff.symm

/-! ## Values -/

/-- The number that digits stand for, by the powers of ten. -/
def decimal (digits : List Char) : Nat :=
  Nat.ofDigits 10 (digits.reverse.map fun c => c.toNat - '0'.toNat)

theorem digitsValue_eq_decimal (digits : List Char) : digitsValue digits = decimal digits := by
  induction digits using List.reverseRecOn with
  | nil => rfl
  | append_singleton digits c ih =>
    rw [digitsValue, List.foldl_append, ← digitsValue, ih, decimal, decimal, List.reverse_append,
      List.map_append]
    exact Nat.add_comm _ _

/-- A text of a number has digits only if there is neither a fraction nor an exponent. -/
theorem Numeral.Written.areDigits_iff {n : Numeral} {w : List Char} (h : n.Written w) :
    AreDigits w ↔ n = ⟨w, none, none⟩ := by
  obtain ⟨whole, f, e⟩ := n
  obtain ⟨hwhole, -, text, power, hf, he, hw⟩ := h
  constructor
  · intro hdigits
    subst hw
    have hnot : ∀ c : Char, c.isDigit = false → c ∉ whole ++ (text ++ power) := fun c hc hmem => by
      rw [hdigits c hmem] at hc
      cases hc
    cases hf with
    | some _ => exact absurd (by simp) (hnot '.' (by decide))
    | none =>
      cases he with
      | none => simp
      | @some _ c _ _ hc _ _ _ =>
        have hletter : c.isDigit = false := by rcases hc with rfl | rfl <;> decide
        exact absurd (by simp) (hnot c hletter)
  · intro hn
    cases hn
    exact hwhole

/-- Every other text is that of a double. -/
theorem Numeral.Written.value?_double {n : Numeral} {w : List Char} (h : n.Written w)
    (hw : ¬ AreDigits w) : ∃ d, n.value? = some (.double d) := by
  obtain ⟨whole, _ | f, _ | e⟩ := n
  · obtain ⟨hwhole, -, _, _, ⟨⟩, ⟨⟩, rfl⟩ := h
    rw [List.append_nil, List.append_nil] at hw
    exact absurd hwhole hw
  · exact ⟨_, rfl⟩
  · exact ⟨_, rfl⟩
  · exact ⟨_, rfl⟩

theorem toInt_ofNat_decimal {w : List Char} (h : decimal w < 2 ^ 63) :
    (Int64.ofNat (decimal w)).toInt = decimal w := Int64.toInt_ofNat_of_lt h

/-- A number that consists of digits is an integer, if it fits. -/
theorem value?_digits (w : List Char) : (Numeral.mk w none none).value? =
    if decimal w < 2 ^ 63 then some (.int (Int64.ofNat (decimal w))) else none := by
  rw [← digitsValue_eq_decimal]
  rfl

/-! ## Literals in a text -/

/-- The literal `w` stands at the front of a text, and `u` remains behind it: it is followed by
nothing or by no letter, digit, underscore or point. -/
structure NumberAt (text w u : List Char) : Prop where
  split : text = w ++ u
  literal : w ∈ Grammar.number
  ends : ∀ c ∈ u.head?, ¬ (c.isAlphanum ∨ c = '_' ∨ c = '.')

theorem endsNumber_iff {u : List Char} :
    EndsNumber u ↔ ∀ c ∈ u.head?, ¬ (c.isAlphanum ∨ c = '_' ∨ c = '.') := by
  refine forall₂_congr fun c _ => ?_
  simp only [continuesNumber, Char.isAlphanum, Bool.or_eq_false_iff, Bool.or_eq_true,
    decide_eq_false_iff_not]
  cases c.isAlpha <;> cases c.isDigit <;> simp

theorem numberAt_iff {text w u : List Char} :
    NumberAt text w u ↔ ∃ n : Numeral, n.Written w ∧ text = w ++ u ∧ EndsNumber u := by
  constructor
  · rintro ⟨hsplit, hliteral, hends⟩
    obtain ⟨n, hn⟩ := Grammar.mem_number.mp hliteral
    exact ⟨n, hn, hsplit, endsNumber_iff.mpr hends⟩
  · rintro ⟨n, hn, hsplit, hends⟩
    exact ⟨hsplit, Grammar.mem_number.mpr ⟨n, hn⟩, endsNumber_iff.mp hends⟩

/-- At most one literal stands at the front of a text. -/
theorem NumberAt.unique {text w u w' u' : List Char} (h : NumberAt text w u)
    (h' : NumberAt text w' u') : w' = w ∧ u' = u := by
  obtain ⟨n, hn, htext, hends⟩ := numberAt_iff.mp h
  obtain ⟨n', hn', htext', hends'⟩ := numberAt_iff.mp h'
  have hread := numeral?_eq_some_iff.mpr ⟨w, htext, hn, hends⟩
  have hread' := numeral?_eq_some_iff.mpr ⟨w', htext', hn', hends'⟩
  cases hread.symm.trans hread'
  exact ⟨List.append_cancel_right (htext'.symm.trans htext), rfl⟩

end Literal

namespace Cursor

open Literal

variable {source : String} {text : List Char}

/-! ## Numbers byte by byte -/

/-- The first byte of a longer character is none of the first 128. -/
theorem utf8EncodeChar_of_not_le {c : Char} (h : ¬ c.val.toNat ≤ 127) :
    ∃ b more, String.utf8EncodeChar c = b :: more ∧ 128 ≤ b.toNat := by
  rw [String.utf8EncodeChar]
  simp only [if_neg h]
  split
  · refine ⟨_, _, rfl, ?_⟩
    rw [UInt8.toNat_ofNat']
    omega
  · split
    · refine ⟨_, _, rfl, ?_⟩
      rw [UInt8.toNat_ofNat']
      omega
    · refine ⟨_, _, rfl, ?_⟩
      rw [UInt8.toNat_ofNat']
      omega

/-- For properties of one-byte characters it is enough to look at a byte. -/
theorem byteCharAt?_text {p : Char → Bool} (hp : ∀ c, p c → c.toNat < 128)
    (h : text <:+ source.toList) :
    (byteCharAt? source (positionOf source text)).any p = text.head?.any p := by
  have hbyte := byteAt?_text h 0
  rw [Nat.add_zero] at hbyte
  rw [byteCharAt?, hbyte]
  cases text with
  | nil => rfl
  | cons c text =>
    by_cases hc : c.val.toNat ≤ 127
    · have hsize : c.utf8Size = 1 := Char.utf8Size_eq_one_iff.mpr hc
      have hsame : Char.ofUInt8 c.val.toUInt8 = c := by
        apply Char.ext
        apply UInt32.toNat_inj.mp
        change c.val.toNat % 2 ^ 8 = c.val.toNat
        exact Nat.mod_eq_of_lt (Nat.lt_of_le_of_lt hc (by decide))
      rw [List.flatMap_cons, String.utf8EncodeChar_eq_singleton hsize]
      exact congrArg p hsame
    · obtain ⟨b, more, hencode, hb⟩ := utf8EncodeChar_of_not_le hc
      have hno : p (Char.ofUInt8 b) = false := by
        refine Bool.eq_false_iff.mpr fun hyes => ?_
        have hlt := hp _ hyes
        have hsame : (Char.ofUInt8 b).toNat = b.toNat := rfl
        omega
      have hnot : p c = false := by
        refine Bool.eq_false_iff.mpr fun hyes => ?_
        have hlt : c.val.toNat < 128 := hp _ hyes
        omega
      rw [List.flatMap_cons, hencode]
      exact hno.trans hnot.symm

theorem toNat_lt_of_isDigit (c : Char) (h : c.isDigit) : c.toNat < 128 := by
  rw [Char.isDigit, Bool.and_eq_true, decide_eq_true_iff, decide_eq_true_iff] at h
  exact Nat.lt_of_le_of_lt h.2 (by decide)

theorem toNat_lt_of_isAlpha (c : Char) (h : c.isAlpha) : c.toNat < 128 := by
  rcases Bool.or_eq_true_iff.mp h with hupper | hlower
  · have hbounds : 65 ≤ c.val ∧ c.val ≤ 90 := of_decide_eq_true hupper
    exact Nat.lt_of_le_of_lt hbounds.2 (by decide)
  · have hle : c.val ≤ 122 := of_decide_eq_true (Bool.and_eq_true_iff.mp hlower).2
    exact Nat.lt_of_le_of_lt hle (by decide)

theorem toNat_lt_of_continuesNumber (c : Char) (h : continuesNumber c) : c.toNat < 128 := by
  simp only [continuesNumber, Bool.or_eq_true, decide_eq_true_iff] at h
  rcases h with (h | rfl) | rfl
  · exact toNat_lt_of_isAlpha c h
  · decide
  · decide

theorem utf8Size_of_isDigit {c : Char} (h : c.isDigit) : c.utf8Size = 1 :=
  Char.utf8Size_eq_one_iff.mpr (Nat.le_of_lt_succ (toNat_lt_of_isDigit c h))

theorem utf8Length_takeWhile_isDigit (text : List Char) :
    utf8Length (text.takeWhile Char.isDigit) = (text.takeWhile Char.isDigit).length := by
  induction text with
  | nil => rfl
  | cons c text ih =>
    rw [List.takeWhile_cons]
    split
    · rename_i hc
      rw [utf8Length_cons, ih, utf8Size_of_isDigit hc, List.length_cons, Nat.add_comm]
    · rfl

theorem digitsEnd_text (h : text <:+ source.toList) :
    digitsEnd source (positionOf source text) =
      positionOf source (text.dropWhile Char.isDigit) := by
  induction text with
  | nil =>
    rw [digitsEnd, byteCharAt?_text toNat_lt_of_isDigit h]
    rfl
  | cons c text ih =>
    rw [digitsEnd, byteCharAt?_text toNat_lt_of_isDigit h, List.dropWhile_cons, List.head?_cons,
      Option.any_some]
    by_cases hc : c.isDigit
    · rw [if_pos hc, if_pos hc, ← utf8Size_of_isDigit hc, positionOf_cons h]
      exact ih ((List.suffix_cons _ _).trans h)
    · rw [if_neg hc, if_neg hc]

/-- As many bytes are stepped over as there are digits. -/
theorem digitsEnd_eq_add (h : text <:+ source.toList) :
    digitsEnd source (positionOf source text) =
      positionOf source text + (text.takeWhile Char.isDigit).length := by
  have hsplit := List.takeWhile_append_dropWhile (p := Char.isDigit) (l := text)
  have hadd := positionOf_add (hsplit.symm ▸ h)
  rw [hsplit] at hadd
  rw [digitsEnd_text h, ← hadd, utf8Length_takeWhile_isDigit]

/-- A mark of one byte stands at a boundary just if its byte does. -/
theorem positionOf_mark {p : Char → Bool} (hp : ∀ c, p c → c.toNat < 128) {c : Char} (hc : p c)
    (h : c :: text <:+ source.toList) :
    positionOf source (c :: text) + 1 = positionOf source text := by
  have hsize : c.utf8Size = 1 := Char.utf8Size_eq_one_iff.mpr (Nat.le_of_lt_succ (hp c hc))
  exact hsize ▸ positionOf_cons h

theorem toNat_lt_of_exponentMark (c : Char) (h : decide (c = 'e' ∨ c = 'E')) : c.toNat < 128 := by
  rcases of_decide_eq_true h with rfl | rfl <;> decide

theorem toNat_lt_of_sign (c : Char) (h : decide (c = '+' ∨ c = '-')) : c.toNat < 128 := by
  rcases of_decide_eq_true h with rfl | rfl <;> decide

theorem toNat_lt_of_point (c : Char) (h : decide (c = '.')) : c.toNat < 128 := by
  rcases of_decide_eq_true h with rfl
  decide

theorem exponentSign_text (h : text <:+ source.toList) :
    (if (byteCharAt? source (positionOf source text)).any fun c => c = '+' ∨ c = '-' then
      positionOf source text + 1 else positionOf source text) =
      positionOf source (exponentSign text).2 := by
  rw [byteCharAt?_text toNat_lt_of_sign h]
  cases text with
  | nil => rfl
  | cons c text =>
    rw [exponentSign, List.head?_cons, Option.any_some]
    by_cases hc : c = '+' ∨ c = '-'
    · rw [if_pos hc, if_pos (decide_eq_true hc)]
      exact positionOf_mark toNat_lt_of_sign (decide_eq_true hc) h
    · rw [if_neg hc, if_neg (by simpa using hc)]

theorem exponentSign_suffix (text : List Char) : (exponentSign text).2 <:+ text := by
  obtain ⟨sign, hsign, -⟩ := signText_exponentSign text
  exact ⟨sign, hsign.symm⟩

theorem exponentEnd?_text (h : text <:+ source.toList) :
    exponentEnd? source (positionOf source text) =
      (exponent? text).map fun found => positionOf source found.2 := by
  rw [exponentEnd?, byteCharAt?_text toNat_lt_of_exponentMark h]
  cases text with
  | nil => rfl
  | cons c text =>
    rw [exponent?, List.head?_cons, Option.any_some]
    by_cases hc : c = 'e' ∨ c = 'E'
    · have htext : text <:+ source.toList := (List.suffix_cons _ _).trans h
      have hdigits := (exponentSign_suffix text).trans htext
      have hmark := positionOf_mark toNat_lt_of_exponentMark (decide_eq_true hc) h
      rw [if_pos hc, if_pos (decide_eq_true hc), ← Nat.add_assoc _ 1 1, hmark]
      simp only [exponentSign_text htext, digitsEnd_eq_add hdigits, Nat.add_eq_left,
        List.length_eq_zero_iff]
      split
      · rename_i hnone
        rw [hnone]
        rfl
      · rename_i hsome
        rw [← digitsEnd_eq_add hdigits, digitsEnd_text hdigits]
        split
        · rename_i hnone
          exact absurd hnone hsome
        · rfl
    · rw [if_neg hc, if_neg (by simpa using hc)]
      rfl

/-- Only an exponent moves the end of a number. -/
theorem exponent?_suffix {rest : List Char} {e : Option (Bool × List Char)}
    (h : exponent? text = some (e, rest)) : rest <:+ text ∧ (rest = text ↔ e = none) := by
  cases text with
  | nil =>
    cases h
    exact ⟨List.suffix_rfl, iff_of_true rfl rfl⟩
  | cons c text =>
    by_cases hc : c = 'e' ∨ c = 'E'
    · simp only [exponent?, if_pos hc] at h
      split at h
      · cases h
      · cases h
        have hsuffix := (List.dropWhile_suffix Char.isDigit).trans (exponentSign_suffix text)
        refine ⟨hsuffix.trans (List.suffix_cons _ _), iff_of_false (fun hsame => ?_)
          (Option.some_ne_none _)⟩
        have hle := hsuffix.length_le
        rw [hsame] at hle
        exact Nat.not_succ_le_self _ hle
    · simp only [exponent?, if_neg hc] at h
      cases h
      exact ⟨List.suffix_rfl, iff_of_true rfl rfl⟩

theorem fraction_suffix (text : List Char) : (fraction text).2 <:+ text := by
  cases text with
  | nil => exact List.suffix_rfl
  | cons c text =>
    rw [fraction]
    split
    · exact (List.dropWhile_suffix _).trans (List.suffix_cons _ _)
    · exact List.suffix_rfl

theorem hasPoint_text (h : text <:+ source.toList) :
    (byteCharAt? source (positionOf source text)).any (· = '.') = (fraction text).1.isSome := by
  rw [byteCharAt?_text toNat_lt_of_point h]
  cases text with
  | nil => rfl
  | cons c text => by_cases hc : c = '.' <;> simp [fraction, hc]

/-- The end and the number of digits of a fraction. -/
theorem fraction_text (h : text <:+ source.toList) :
    (if (fraction text).1.isSome then digitsEnd source (positionOf source text + 1)
      else positionOf source text) = positionOf source (fraction text).2 ∧
    (if (fraction text).1.isSome then
      positionOf source (fraction text).2 - (positionOf source text + 1) else 0) =
        ((fraction text).1.getD []).length := by
  cases text with
  | nil => exact ⟨rfl, rfl⟩
  | cons c text =>
    rw [fraction]
    by_cases hc : c = '.'
    · have htext : text <:+ source.toList := (List.suffix_cons _ _).trans h
      have hmark := positionOf_mark toNat_lt_of_point (decide_eq_true hc) h
      rw [if_pos hc, hmark]
      refine ⟨digitsEnd_text htext, ?_⟩
      rw [← digitsEnd_text htext, digitsEnd_eq_add htext, Nat.add_sub_cancel_left]
      rfl
    · rw [if_neg hc]
      exact ⟨rfl, rfl⟩

theorem numberEnd?_text (h : text <:+ source.toList) :
    numberEnd? source (positionOf source text) = (numeral? text).map fun found =>
      (positionOf source found.2, found.1.fraction.isSome || found.1.exponent.isSome) := by
  have hwhole := (List.dropWhile_suffix Char.isDigit).trans h
  have hmantissa := (fraction_suffix _).trans hwhole
  have hdigits : positionOf source (text.dropWhile Char.isDigit) - positionOf source text =
      (text.takeWhile Char.isDigit).length := by
    rw [← digitsEnd_text h, digitsEnd_eq_add h, Nat.add_sub_cancel_left]
  rw [numberEnd?, numeral?]
  simp only [digitsEnd_text h, hdigits, hasPoint_text hwhole, (fraction_text hwhole).1,
    (fraction_text hwhole).2, exponentEnd?_text hmantissa, Nat.add_eq_zero_iff,
    List.length_eq_zero_iff, Bool.and_eq_true, List.isEmpty_iff]
  split
  · rfl
  · cases hexponent : exponent? (fraction (text.dropWhile Char.isDigit)).2 with
    | none => rfl
    | some found =>
      obtain ⟨e, rest⟩ := found
      obtain ⟨hsuffix, hsame⟩ := exponent?_suffix hexponent
      have hrest := hsuffix.trans hmantissa
      have hmoved : (!decide (positionOf source rest =
          positionOf source (fraction (text.dropWhile Char.isDigit)).2)) = e.isSome := by
        rw [Bool.eq_iff_iff, Bool.not_eq_true', decide_eq_false_iff_not, Option.isSome_iff_ne_none]
        exact not_congr (Iff.trans ⟨positionOf_inj hrest hmantissa, congrArg _⟩ hsame)
      simp only [Option.map_some, byteCharAt?_text toNat_lt_of_continuesNumber hrest, decide_not,
        hmoved]
      split <;> rfl

/-- What is cut out of a source as a number is read for what it was recognised as. -/
theorem parse_written {n : Numeral} {w : List Char} (hw : n.Written w) :
    (if n.fraction.isSome || n.exponent.isSome then parseDouble? w else parseInt? w) =
      n.value? := by
  have hread : numeral? w = some (n, []) :=
    numeral?_eq_some_iff.mpr ⟨w, (List.append_nil w).symm, hw, fun _ hc => by cases hc⟩
  obtain ⟨whole, _ | f, _ | e⟩ := n
  · obtain ⟨-, -, _, _, ⟨⟩, ⟨⟩, rfl⟩ := hw
    simp [Numeral.value?]
  all_goals simp [parseDouble?, hread, Numeral.value?]

theorem whole_of_value?_none {n : Numeral} {w : List Char} (hw : n.Written w)
    (h : n.value? = none) : n.whole = w := by
  by_cases hdigits : AreDigits w
  · rw [hw.areDigits_iff.mp hdigits]
  · obtain ⟨d, hd⟩ := hw.value?_double hdigits
    cases h.symm.trans hd

theorem follows_number : Follows number Scanner.number := by
  intro source text h
  have hstart := (dropBlanks_suffix text).trans h
  rw [number, bind_ok (skipBlanks_text text h), Scanner.number]
  generalize dropBlanks text = start at hstart
  rw [bind_get, bind_read, numberEnd?_text hstart]
  cases hfound : numeral? start with
  | none => rfl
  | some found =>
    obtain ⟨n, rest⟩ := found
    obtain ⟨w, rfl, hw, -⟩ := written_of_numeral? hfound
    refine (bind_ok (slice_text hstart)).trans ?_
    simp only [String.toList_ofList, parse_written hw]
    cases hvalue : n.value? with
    | some v => rfl
    | none =>
      rw [whole_of_value?_none hw hvalue]
      rfl

end Cursor

namespace Scanner

open Literal

variable {text w u : List Char}

/-- Without a literal nothing is taken. -/
theorem number_none (h : ¬ ∃ w u, NumberAt (dropBlanks text) w u) :
    number text = .ok none (dropBlanks text) := by
  have hnone : numeral? (dropBlanks text) = none := by
    refine Option.eq_none_iff_forall_ne_some.mpr fun found hfound => h ?_
    obtain ⟨w, hsplit, hw, hends⟩ := numeral?_eq_some_iff.mp hfound
    exact ⟨w, found.2, numberAt_iff.mpr ⟨found.1, hw, hsplit, hends⟩⟩
  simp only [number, hnone]

/-- A literal with a value is taken. -/
theorem number_of_value {n : Numeral} {v : Value} (hn : n.Written w) (hends : EndsNumber u)
    (hsplit : dropBlanks text = w ++ u) (hv : n.value? = some v) :
    number text = .ok (some v) u := by
  have hread := numeral?_eq_some_iff.mpr ⟨w, hsplit, hn, hends⟩
  simp only [number, hread, hv]

/-- Digits are read as the integer that they stand for. -/
theorem number_int (h : NumberAt (dropBlanks text) w u) (hw : AreDigits w)
    (hfits : decimal w < 2 ^ 63) : number text = .ok (some (.int (Int64.ofNat (decimal w)))) u := by
  obtain ⟨n, hn, hsplit, hends⟩ := numberAt_iff.mp h
  obtain rfl := hn.areDigits_iff.mp hw
  refine number_of_value hn hends hsplit ?_
  rw [value?_digits, if_pos hfits]

/-- Digits that stand for too large an integer are refused where they are. -/
theorem number_tooLarge (h : NumberAt (dropBlanks text) w u) (hw : AreDigits w)
    (hlarge : 2 ^ 63 ≤ decimal w) : number text =
      .error ⟨.invalidNumber (String.ofList w), dropBlanks text⟩ (dropBlanks text) := by
  obtain ⟨n, hn, hsplit, hends⟩ := numberAt_iff.mp h
  obtain rfl := hn.areDigits_iff.mp hw
  have hread := numeral?_eq_some_iff.mpr ⟨w, hsplit, hn, hends⟩
  have hvalue : (Numeral.mk w none none).value? = none := by
    rw [value?_digits, if_neg (Nat.not_lt.mpr hlarge)]
  simp only [number, hread, hvalue]

/-- Every other literal is read as a double. -/
theorem number_double (h : NumberAt (dropBlanks text) w u) (hw : ¬ AreDigits w) :
    ∃ d, number text = .ok (some (.double d)) u := by
  obtain ⟨n, hn, hsplit, hends⟩ := numberAt_iff.mp h
  obtain ⟨d, hd⟩ := hn.value?_double hw
  exact ⟨d, number_of_value hn hends hsplit hd⟩

/-- **Numbers are read by their grammar.** A number is recognised if and only if a literal stands
behind the blanks, and there is at most one. Digits are read as the integer that they stand for; if
it does not fit 64 bits they are refused as they are written, and only blanks have been passed. Any
other literal is read as a double. What is read leaves the text behind the literal. Going through
the bytes of a source comes to the same at each of its boundaries. -/
theorem number_grammar (text : List Char) :
    (∀ w u, NumberAt (dropBlanks text) w u →
      (AreDigits w → decimal w < 2 ^ 63 →
        ∃ i : Int64, i.toInt = decimal w ∧ number text = .ok (some (.int i)) u) ∧
      (AreDigits w → 2 ^ 63 ≤ decimal w →
        number text =
          .error ⟨.invalidNumber (String.ofList w), dropBlanks text⟩ (dropBlanks text)) ∧
      (¬ AreDigits w → ∃ d, number text = .ok (some (.double d)) u) ∧
      ∀ w' u', NumberAt (dropBlanks text) w' u' → w' = w ∧ u' = u) ∧
    (number text = .ok none (dropBlanks text) ↔ ¬ ∃ w u, NumberAt (dropBlanks text) w u) ∧
    Cursor.Follows Cursor.number number := by
  refine ⟨fun w u h => ⟨fun hw hfits => ?_, number_tooLarge h, number_double h,
    fun _ _ => h.unique⟩, ⟨fun hnone hfound => ?_, number_none⟩, Cursor.follows_number⟩
  · exact ⟨_, toInt_ofNat_decimal hfits, number_int h hw hfits⟩
  · obtain ⟨w, u, h⟩ := hfound
    by_cases hw : AreDigits w
    · rcases Nat.lt_or_ge (decimal w) (2 ^ 63) with hfits | hlarge
      · cases (number_int h hw hfits).symm.trans hnone
      · cases (number_tooLarge h hw hlarge).symm.trans hnone
    · obtain ⟨d, hd⟩ := number_double h hw
      cases hd.symm.trans hnone

end Scanner

end StackScript
