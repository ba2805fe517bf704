import StackScript.Proofs.Source.Lexeme

/-!
# How literals are written

The texts of numbers and strings, apart from how they are recognised. A number has many texts and a
string too: digits can have leading zeros, an exponent a sign or not, a character can be escaped or,
in most cases, stand for itself. Each text is recognised for what it was written for, with the text
behind it left over, as long as that text does not run on (`numeral?_written`,
`plainString_written`, `rawString_written`).
-/

namespace StackScript.Literal

/-! ## Numbers -/

/-- Decimal digits. -/
def AreDigits (digits : List Char) : Prop := ∀ c ∈ digits, c.isDigit

/-- The texts of the fraction of a number. -/
inductive FractionText : Option (List Char) → List Char → Prop
  | none : FractionText none []
  | some {digits : List Char} (h : AreDigits digits) : FractionText (some digits) ('.' :: digits)

/-- The texts of the sign of an exponent. -/
inductive SignText : Bool → List Char → Prop
  | none : SignText false []
  | plus : SignText false ['+']
  | minus : SignText true ['-']

/-- The texts of the exponent of a number. -/
inductive ExponentText : Option (Bool × List Char) → List Char → Prop
  | none : ExponentText none []
  | some {negative : Bool} {e : Char} {sign digits : List Char} (he : e = 'e' ∨ e = 'E')
      (hsign : SignText negative sign) (hne : digits ≠ []) (h : AreDigits digits) :
      ExponentText (some (negative, digits)) (e :: (sign ++ digits))

/-- The texts of a number, with a digit before or behind the point. -/
structure Numeral.Written (n : Numeral) (text : List Char) : Prop where
  whole : AreDigits n.whole
  mantissa : n.whole ≠ [] ∨ n.fraction.getD [] ≠ []
  parts : ∃ fraction exponent, FractionText n.fraction fraction ∧
    ExponentText n.exponent exponent ∧ text = n.whole ++ (fraction ++ exponent)

/-- The text behind a number does not continue it. -/
def EndsNumber (rest : List Char) : Prop :=
  ∀ c ∈ rest.head?, continuesNumber c = false ∧ c.isDigit = false

/-- What follows the mantissa of a number is neither a digit nor a point. -/
theorem first_of_exponentText {e : Option (Bool × List Char)} {text rest : List Char}
    (h : ExponentText e text) (hrest : EndsNumber rest) :
    ∀ c ∈ (text ++ rest).head?, c.isDigit = false ∧ c ≠ '.' := by
  intro c hc
  cases h with
  | none =>
    refine ⟨(hrest c hc).2, ?_⟩
    rintro rfl
    exact absurd (hrest _ hc).1 (by decide)
  | some he hsign hne hd =>
    cases hc
    rcases he with rfl | rfl <;> decide

theorem not_digit_of_fractionText {f : Option (List Char)} {text rest : List Char}
    (h : FractionText f text) (hrest : ∀ c ∈ rest.head?, c.isDigit = false ∧ c ≠ '.') :
    ∀ c ∈ (text ++ rest).head?, c.isDigit = false := by
  intro c hc
  cases h with
  | none => exact (hrest c hc).1
  | some hd =>
    cases hc
    decide

theorem exponentSign_signText {negative : Bool} {sign digits rest : List Char}
    (h : SignText negative sign) (hne : digits ≠ []) (hd : AreDigits digits) :
    exponentSign (sign ++ (digits ++ rest)) = (negative, digits ++ rest) := by
  cases h with
  | plus => rfl
  | minus => rfl
  | none =>
    obtain ⟨d, digits, rfl⟩ := List.exists_cons_of_ne_nil hne
    have hdigit : d.isDigit := hd d List.mem_cons_self
    have hsign : ¬ (d = '+' ∨ d = '-') := by
      rintro (rfl | rfl) <;> exact absurd hdigit (by decide)
    simp only [List.nil_append, List.cons_append, exponentSign, if_neg hsign]

theorem exponent?_exponentText {e : Option (Bool × List Char)} {text rest : List Char}
    (h : ExponentText e text) (hrest : EndsNumber rest) :
    exponent? (text ++ rest) = some (e, rest) := by
  cases h with
  | none =>
    cases rest with
    | nil => rfl
    | cons c rest =>
      have hc : ¬ (c = 'e' ∨ c = 'E') := by
        rintro (rfl | rfl) <;> exact absurd (hrest _ rfl).1 (by decide)
      simp only [List.nil_append, exponent?, if_neg hc]
  | @some negative e sign digits he hsign hne hd =>
    obtain ⟨htake, hdrop⟩ := Lexeme.span_append hd fun c hc => (hrest c hc).2
    obtain ⟨d, more, rfl⟩ := List.exists_cons_of_ne_nil hne
    rw [List.cons_append, List.append_assoc, exponent?, if_pos he,
      exponentSign_signText hsign hne hd]
    simp only [htake, hdrop]

theorem fraction_fractionText {f : Option (List Char)} {text rest : List Char}
    (h : FractionText f text) (hrest : ∀ c ∈ rest.head?, c.isDigit = false ∧ c ≠ '.') :
    fraction (text ++ rest) = (f, rest) := by
  cases h with
  | none =>
    cases rest with
    | nil => rfl
    | cons c rest => exact if_neg (hrest c rfl).2
  | some hd =>
    obtain ⟨htake, hdrop⟩ := Lexeme.span_append hd fun c hc => (hrest c hc).1
    simp only [List.cons_append, fraction, if_pos, htake, hdrop]

/-- **A number is recognised from each of its texts.** -/
theorem numeral?_written {n : Numeral} {text rest : List Char} (h : n.Written text)
    (hrest : EndsNumber rest) : numeral? (text ++ rest) = some (n, rest) := by
  obtain ⟨hwhole, hmantissa, fractionText, exponentText, hfraction, hexponent, rfl⟩ := h
  have hafter := first_of_exponentText hexponent hrest
  obtain ⟨htake, hdrop⟩ := Lexeme.span_append hwhole (not_digit_of_fractionText hfraction hafter)
  have hends : rest.head?.any continuesNumber = false := by
    cases rest with
    | nil => rfl
    | cons c rest => exact (hrest c rfl).1
  have hsome : (n.whole.isEmpty && (n.fraction.getD []).isEmpty) = false := by
    rcases hmantissa with h | h <;> simp [h]
  simp only [List.append_assoc, numeral?, htake, hdrop, fraction_fractionText hfraction hafter,
    hsome, exponent?_exponentText hexponent hrest, hends, Bool.false_eq_true, if_false]

/-- The first character of a number is a digit or a point. -/
theorem Numeral.Written.first {n : Numeral} {text : List Char} (h : n.Written text) :
    ∃ c rest, text = c :: rest ∧ (c.isDigit ∨ c = '.') := by
  obtain ⟨whole, fraction, exponent⟩ := n
  obtain ⟨hwhole, hmantissa, fractionText, exponentText, hfraction, hexponent, rfl⟩ := h
  cases whole with
  | cons c rest => exact ⟨c, _, rfl, .inl (hwhole c List.mem_cons_self)⟩
  | nil =>
    cases hfraction with
    | some hd => exact ⟨'.', _, rfl, .inr rfl⟩
    | none => exact absurd rfl (hmantissa.resolve_left fun h => h rfl)

/-! ## Strings -/

/-- The texts of a string between its quotes. -/
inductive PlainText : List Char → List Char → Prop
  | nil : PlainText [] []
  /-- Most characters can stand for themselves. -/
  | char {c : Char} {s text : List Char} (hquote : c ≠ '\'') (hbackslash : c ≠ '\\')
      (h : PlainText s text) : PlainText (c :: s) (c :: text)
  | escape {c d : Char} {s text : List Char} (hd : escape? d = some c) (h : PlainText s text) :
      PlainText (c :: s) ('\\' :: d :: text)

/-- **A string is recognised from each of its texts.** -/
theorem plainString_written {s text : List Char} (h : PlainText s text) (rest : List Char) :
    plainString (text ++ '\'' :: rest) = .ok (s, rest) := by
  induction h with
  | nil =>
    unfold plainString
    exact if_pos rfl
  | char hquote hbackslash _ ih =>
    rw [List.cons_append]
    unfold plainString
    rw [if_neg hquote, if_neg hbackslash, ih]
    rfl
  | escape hd _ ih =>
    rw [List.cons_append, List.cons_append]
    unfold plainString
    rw [if_neg (by decide), if_pos rfl]
    simp only [hd, ih]
    rfl

theorem rawString_written {s : List Char} (h : '\'' ∉ s) (rest : List Char) :
    rawString (s ++ '\'' :: rest) = .ok (s, rest) := by
  induction s with
  | nil => rw [List.nil_append, rawString, if_pos rfl]
  | cons c s ih =>
    rw [List.mem_cons, not_or] at h
    rw [List.cons_append, rawString, if_neg (Ne.symm h.1), ih h.2]
    rfl

end StackScript.Literal
