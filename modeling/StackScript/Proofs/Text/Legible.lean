import StackScript.Text.Numeral
import StackScript.Text.Quoted

/-!
# Texts that can be told apart

What numerals and quoted texts stand for can be told from the way they are written, whatever stands
behind them. Digits end where a character follows that is no digit. A character between quotes is
written in one of three ways (`Shown`), and the first two characters tell which one it is; none of
them begins with a quote, so that a quoted text ends at the first quote that does not belong to a
character (`flatMap_quotedChar_append_inj`). Nothing that is quoted breaks a line
(`newline_notMem_quoted`).
-/

namespace StackScript.Text

/-! ## Pieces of a text -/

section Pieces

variable {p : Char → Bool} {x y s t : List Char}

/-- A text does not go on with a character of a class. -/
def Stops (p : Char → Bool) (s : List Char) : Prop := ∀ c ∈ s.head?, p c = false

theorem stops_cons {c : Char} (hc : p c = false) : Stops p (c :: s) := by
  rintro d ⟨⟩
  exact hc

theorem stops_append (hx : x.head?.any fun c => !p c) : Stops p (x ++ s) := by
  cases x with
  | nil => cases hx
  | cons c x => exact stops_cons (Bool.not_eq_eq_eq_not.mp hx)

theorem takeWhile_append_stops (hx : ∀ c ∈ x, p c) (hs : Stops p s) : (x ++ s).takeWhile p = x := by
  rw [List.takeWhile_append_of_pos hx]
  cases s with
  | nil => exact List.append_nil x
  | cons c s =>
    have hc := hs c rfl
    rw [List.takeWhile_cons, if_neg (by rw [hc]; exact Bool.false_ne_true), List.append_nil]

/-- Characters of a class end where another one follows. -/
theorem append_inj_of_stops (hx : ∀ c ∈ x, p c) (hy : ∀ c ∈ y, p c) (hs : Stops p s)
    (ht : Stops p t) (h : x ++ s = y ++ t) : x = y ∧ s = t := by
  have hrun := congrArg (List.takeWhile p) h
  rw [takeWhile_append_stops hx hs, takeWhile_append_stops hy ht] at hrun
  subst hrun
  exact ⟨rfl, List.append_cancel_left h⟩

/-- A text ends at its first terminator. -/
theorem append_terminator_inj {z : Char} (hx : z ∉ x) (hy : z ∉ y) (h : x ++ z :: s = y ++ z :: t) :
    x = y ∧ s = t := by
  have hne {w : List Char} (hw : z ∉ w) : ∀ c ∈ w, (c != z) = true :=
    fun c hc => bne_iff_ne.mpr (ne_of_mem_of_not_mem hc hw)
  have hstops {w : List Char} : Stops (· != z) (z :: w) := stops_cons (bne_self_eq_false z)
  obtain ⟨hxy, hrest⟩ := append_inj_of_stops (hne hx) (hne hy) hstops hstops h
  exact ⟨hxy, (List.cons.inj hrest).2⟩

end Pieces

/-! ## Numerals -/

section Numerals

variable {m n : Nat} {s t : List Char}

theorem isDigit_of_mem_toDigits (n : Nat) : ∀ c ∈ Nat.toDigits 10 n, c.isDigit :=
  fun _ hc => Nat.isDigit_of_mem_toDigits (by decide) (by decide) hc

theorem toList_toString_nat (n : Nat) : (toString n).toList = Nat.toDigits 10 n := Nat.toList_repr

theorem toDigits_ten_inj (h : Nat.toDigits 10 m = Nat.toDigits 10 n) : m = n := by
  rw [← Nat.ofDigitChars_ten_toDigits (n := m), h, Nat.ofDigitChars_ten_toDigits]

/-- A number can be told from its digits and what follows them. -/
theorem toDigits_append_inj (hs : Stops Char.isDigit s) (ht : Stops Char.isDigit t)
    (h : Nat.toDigits 10 m ++ s = Nat.toDigits 10 n ++ t) : m = n ∧ s = t := by
  obtain ⟨hdigits, hrest⟩ :=
    append_inj_of_stops (isDigit_of_mem_toDigits m) (isDigit_of_mem_toDigits n) hs ht h
  exact ⟨toDigits_ten_inj hdigits, hrest⟩

theorem notMem_of_isDigit {c : Char} {x : List Char} (hx : ∀ d ∈ x, d.isDigit)
    (hc : c.isDigit = false) : c ∉ x := fun h => Bool.false_ne_true (hc.symm.trans (hx c h))

theorem isDigit_of_mem_index (n : Nat) : ∀ c ∈ (index n).toList, c.isDigit := by
  intro c hc
  rw [index, String.toList_ofList] at hc
  rcases List.mem_append.mp hc with hzero | hdigit
  · rw [List.eq_of_mem_replicate hzero]
    rfl
  · exact isDigit_of_mem_toDigits n c hdigit

theorem newline_notMem_toDigits (n : Nat) : '\n' ∉ Nat.toDigits 10 n :=
  notMem_of_isDigit (isDigit_of_mem_toDigits n) rfl

theorem newline_notMem_index (n : Nat) : '\n' ∉ (index n).toList :=
  notMem_of_isDigit (isDigit_of_mem_index n) rfl

/-- Zeros in front do not change the value. -/
theorem ofDigitChars_index (n : Nat) : Nat.ofDigitChars 10 (index n).toList 0 = n := by
  rw [index, String.toList_ofList, Nat.ofDigitChars_append, Nat.ofDigitChars_replicate_zero,
    Nat.mul_zero, Nat.ofDigitChars_ten_toDigits]

theorem index_inj (h : (index m).toList = (index n).toList) : m = n := by
  rw [← ofDigitChars_index m, h, ofDigitChars_index]

theorem toList_toString_int (i : Int) :
    (toString i).toList = (if i < 0 then ['-'] else []) ++ Nat.toDigits 10 i.natAbs := by
  rw [Int.toString_eq_repr, Int.repr_eq_if]
  by_cases hi : i < 0
  · rw [if_neg (by omega), if_pos hi, String.toList_append, Nat.toList_repr,
      (by omega : (-i).toNat = i.natAbs)]
    rfl
  · rw [if_pos (by omega), if_neg hi, Nat.toList_repr, (by omega : i.toNat = i.natAbs)]
    rfl

theorem toList_signed (i : Int) :
    (signed i).toList = (if i < 0 then ['-'] else ['+']) ++ Nat.toDigits 10 i.natAbs := by
  unfold signed
  by_cases hi : i < 0
  · rw [if_neg (by omega), toList_toString_int, if_pos hi, if_pos hi]
  · rw [if_pos (by omega), String.toList_append, toList_toString_int, if_neg hi, if_neg hi]
    rfl

theorem newline_notMem_signed (i : Int) : '\n' ∉ (signed i).toList := by
  rw [toList_signed, List.mem_append, not_or]
  refine ⟨?_, newline_notMem_toDigits _⟩
  split <;> decide

/-- A sign or none in front of the digits tells a number from its opposite. -/
theorem int_inj {i j : Int} {plus : List Char} (hplus : ∀ c ∈ plus, c = '+')
    (h : (if i < 0 then ['-'] else plus) ++ Nat.toDigits 10 i.natAbs =
      (if j < 0 then ['-'] else plus) ++ Nat.toDigits 10 j.natAbs) : i = j := by
  have hsign (k : Int) : ∀ c ∈ (if k < 0 then ['-'] else plus), (!c.isDigit) = true := by
    intro c hc
    split at hc
    · rw [List.mem_singleton.mp hc]
      rfl
    · rw [hplus c hc]
      rfl
  have hstops (n : Nat) : Stops (fun c => !c.isDigit) (Nat.toDigits 10 n) := by
    intro c hc
    exact Bool.not_eq_eq_eq_not.mpr (isDigit_of_mem_toDigits n c (List.mem_of_mem_head? hc))
  obtain ⟨hsigns, hdigits⟩ := append_inj_of_stops (hsign i) (hsign j) (hstops _) (hstops _) h
  have habs := toDigits_ten_inj hdigits
  have hminus : '-' ∉ plus := fun hmem => absurd (hplus _ hmem) (by decide)
  have hiff : i < 0 ↔ j < 0 := by
    by_cases hi : i < 0 <;> by_cases hj : j < 0 <;> simp only [hi, hj, if_true, if_false] at hsigns ⊢
    · exact absurd (hsigns ▸ List.mem_singleton_self '-') hminus
    · exact absurd (hsigns ▸ List.mem_singleton_self '-') hminus
  omega

theorem toString_int_inj {i j : Int} (h : (toString i).toList = (toString j).toList) : i = j := by
  rw [toList_toString_int, toList_toString_int] at h
  exact int_inj (List.forall_mem_nil _) h

theorem signed_inj {i j : Int} (h : (signed i).toList = (signed j).toList) : i = j := by
  rw [toList_signed, toList_signed] at h
  exact int_inj (List.forall_mem_singleton.mpr rfl) h

end Numerals

/-! ## Code points -/

theorem digitChar_inj {m n : Nat} (hm : m < 16) (hn : n < 16) (h : m.digitChar = n.digitChar) :
    m = n := by
  have hall : ∀ m n : Fin 16, m.val.digitChar = n.val.digitChar → m = n := by decide
  exact congrArg Fin.val (hall ⟨m, hm⟩ ⟨n, hn⟩ h)

theorem toDigits_sixteen_inj {m n : Nat} (h : Nat.toDigits 16 m = Nat.toDigits 16 n) : m = n := by
  induction m using Nat.strongRecOn generalizing n with
  | _ m ih =>
    -- a number has one digit exactly when it is below the base
    have hone : m < 16 ^ 1 ↔ n < 16 ^ 1 := by
      rw [← Nat.length_toDigits_le_iff (by decide) (by decide), h,
        Nat.length_toDigits_le_iff (by decide) (by decide)]
    by_cases hm : m < 16
    · have hn : n < 16 := hone.mp hm
      rw [Nat.toDigits_of_lt_base hm, Nat.toDigits_of_lt_base hn] at h
      exact digitChar_inj hm hn (List.singleton_inj.mp h)
    · have hn : ¬ n < 16 := mt hone.mpr hm
      rw [Nat.toDigits_of_base_le (n := m) (by decide) (by omega),
        Nat.toDigits_of_base_le (n := n) (by decide) (by omega)] at h
      obtain ⟨hfront, hlast⟩ := List.append_inj' h rfl
      have hquotient := ih (m / 16) (by omega) hfront
      have hdigit := digitChar_inj (Nat.mod_lt m (by decide)) (Nat.mod_lt n (by decide))
        (List.singleton_inj.mp hlast)
      omega

theorem mem_toDigits {b n : Nat} {c : Char} (hb : 1 < b) (h : c ∈ Nat.toDigits b n) :
    ∃ k, c = Nat.digitChar k := by
  induction n using Nat.strongRecOn with
  | _ n ih =>
    rw [Nat.toDigits_eq_if hb] at h
    split at h
    · exact ⟨n, List.mem_singleton.mp h⟩
    · rename_i hn
      rcases List.mem_append.mp h with hfront | hlast
      · exact ih (n / b) (Nat.div_lt_self (by omega) hb) hfront
      · exact ⟨n % b, List.mem_singleton.mp hlast⟩

theorem notMem_toDigits_sixteen {c : Char} (n : Nat) (hc : ∀ k, Nat.digitChar k ≠ c) :
    c ∉ Nat.toDigits 16 n := by
  intro h
  obtain ⟨k, hk⟩ := mem_toDigits (by decide) h
  exact hc k hk.symm

theorem byCodePoint_append_inj {c d : Char} {s t : List Char}
    (h : byCodePoint c ++ s = byCodePoint d ++ t) : c = d ∧ s = t := by
  have hclosing (n : Nat) : '\x7d' ∉ Nat.toDigits 16 n :=
    notMem_toDigits_sixteen n fun _ => Nat.digitChar_ne _ (by decide)
  simp only [byCodePoint, List.append_assoc, List.cons_append, List.nil_append, List.cons.injEq,
    true_and] at h
  obtain ⟨hdigits, hrest⟩ := append_terminator_inj (hclosing _) (hclosing _) h
  exact ⟨Char.toNat_inj.mp (toDigits_sixteen_inj hdigits), hrest⟩

/-! ## Quoted texts -/

/-- The characters with a short escape, and what stands behind the backslash. -/
def escapes : List (Char × Char) :=
  [('"', '"'), ('\\', '\\'), ('\t', 't'), ('\r', 'r'), ('\n', 'n'), ('\x00', '0')]

/-- How a character can be written between quotes. -/
inductive Shown : Char → List Char → Prop
  | short {c e : Char} (h : (c, e) ∈ escapes) : Shown c ['\\', e]
  | codePoint (c : Char) : Shown c (byCodePoint c)
  | plain {c : Char} (hquote : c ≠ '"') (hbackslash : c ≠ '\\') (hnewline : c ≠ '\n') : Shown c [c]

theorem shown_quotedChar (c : Char) : Shown c (quotedChar c) := by
  unfold quotedChar
  iterate 6
    split
    · subst c
      exact .short (by decide)
  split
  · exact .codePoint c
  · exact .plain ‹_› ‹_› ‹_›

namespace Shown

variable {c d : Char} {x y s t : List Char}

/-- The first two characters tell how a character is written, and so where it ends. -/
theorem append_inj (hx : Shown c x) (hy : Shown d y) (h : x ++ s = y ++ t) : c = d ∧ s = t := by
  have hescape : ∀ p ∈ escapes, p.2 ≠ 'u' := by decide
  cases hx with
  | short hc =>
    cases hy with
    | short hd =>
      have hinj : ∀ p ∈ escapes, ∀ q ∈ escapes, p.2 = q.2 → p.1 = q.1 := by decide
      simp only [List.cons_append, List.nil_append, List.cons.injEq, true_and] at h
      exact ⟨hinj _ hc _ hd h.1, h.2⟩
    | codePoint =>
      simp only [byCodePoint, List.cons_append, List.cons.injEq, true_and] at h
      exact absurd h.1 (hescape _ hc)
    | plain _ hbackslash _ => exact absurd (List.cons.inj h).1.symm hbackslash
  | codePoint =>
    cases hy with
    | short hd =>
      simp only [byCodePoint, List.cons_append, List.cons.injEq, true_and] at h
      exact absurd h.1.symm (hescape _ hd)
    | codePoint => exact byCodePoint_append_inj h
    | plain _ hbackslash _ => exact absurd (List.cons.inj h).1.symm hbackslash
  | plain _ hbackslash _ =>
    cases hy with
    | short | codePoint => exact absurd (List.cons.inj h).1 hbackslash
    | plain => exact List.cons.inj h

/-- The closing quote is no beginning of a character. -/
theorem append_ne_quote (hx : Shown c x) : x ++ s ≠ '"' :: t := by
  intro h
  cases hx with
  | short | codePoint => exact absurd (List.cons.inj h).1 (by decide)
  | plain hquote _ _ => exact hquote (List.cons.inj h).1

theorem newline_notMem (hx : Shown c x) : '\n' ∉ x := by
  cases hx with
  | short hc =>
    have hescape : ∀ p ∈ escapes, '\n' ∉ ['\\', p.2] := by decide
    exact hescape _ hc
  | codePoint =>
    have hdigits : '\n' ∉ Nat.toDigits 16 c.toNat :=
      notMem_toDigits_sixteen _ fun _ => Nat.digitChar_ne _ (by decide)
    simp [byCodePoint, hdigits]
  | plain _ _ hnewline => exact fun h => hnewline (List.mem_singleton.mp h).symm

end Shown

/-- By induction on both texts, character by character up to the closing quotes. -/
theorem flatMap_quotedChar_append_inj {as bs s t : List Char}
    (h : as.flatMap quotedChar ++ '"' :: s = bs.flatMap quotedChar ++ '"' :: t) :
    as = bs ∧ s = t := by
  induction as generalizing bs with
  | nil =>
    cases bs with
    | nil => exact ⟨rfl, (List.cons.inj h).2⟩
    | cons b bs =>
      rw [List.flatMap_cons, List.append_assoc] at h
      exact absurd h.symm (shown_quotedChar b).append_ne_quote
  | cons a as ih =>
    rw [List.flatMap_cons, List.append_assoc] at h
    cases bs with
    | nil => exact absurd h (shown_quotedChar a).append_ne_quote
    | cons b bs =>
      rw [List.flatMap_cons, List.append_assoc] at h
      obtain ⟨rfl, hrest⟩ := (shown_quotedChar a).append_inj (shown_quotedChar b) h
      obtain ⟨rfl, hst⟩ := ih hrest
      exact ⟨rfl, hst⟩

theorem quoted_inj {a b : String} (h : (quoted a).toList = (quoted b).toList) : a = b := by
  simp only [quoted, String.toList_ofList, List.cons.injEq, true_and] at h
  exact String.toList_inj.mp (flatMap_quotedChar_append_inj h).1

theorem newline_notMem_quoted (a : String) : '\n' ∉ (quoted a).toList := by
  have hchars : '\n' ∉ a.toList.flatMap quotedChar := by
    intro h
    obtain ⟨c, -, hc⟩ := List.mem_flatMap.mp h
    exact (shown_quotedChar c).newline_notMem hc
  simp [quoted, hchars]

end StackScript.Text
