import Mathlib.Data.List.Basic
import StackScript.Source.Scanner

/-!
# What lexemes take from a text

Every recogniser takes a non-empty piece from the front of a text, and blanks are skipped once and
for all (`dropBlanks_idem`). Names are words that are no keywords.
-/

namespace StackScript

namespace Lexeme

/-- A word: at least one character, and all of them characters of words. -/
structure IsWord (w : String) : Prop where
  nonempty : w.toList ≠ []
  chars : ∀ c ∈ w.toList, isWordChar c

/-- A word that is no keyword. -/
structure IsName (name : String) : Prop extends IsWord name where
  notKeyword : isKeyword name = false

/-- A name that begins with no digit. -/
structure IsPlainName (name : String) : Prop extends IsName name where
  first : ∀ c ∈ name.toList.head?, c.isDigit = false

theorem IsWord.of_all {w : String} (hne : w.toList ≠ []) (hall : w.toList.all isWordChar) :
    IsWord w := ⟨hne, List.all_eq_true.mp hall⟩

theorem isWord_of_mem_keywords {w : String} (h : w ∈ keywords) : IsWord w := by
  simp only [keywords, List.mem_cons, List.not_mem_nil, or_false] at h
  rcases h with rfl | rfl | rfl | rfl | rfl | rfl | rfl | rfl <;>
    exact .of_all (by decide) (by decide)

theorem ne_of_mem_keywords {w w' : String} (hw : w ∈ keywords) (hw' : IsName w') : w' ≠ w := by
  rintro rfl
  have hnot := hw'.notKeyword
  rw [isKeyword, List.contains_iff_mem.mpr hw] at hnot
  cases hnot

theorem forall_isBlank {p : Char → Prop} :
    (∀ c, isBlank c → p c) ↔ p ' ' ∧ p '\t' ∧ p '\r' ∧ p '\n' := by
  simp [isBlank, or_imp, forall_and, and_assoc]

/-- A run of characters with a property ends where the next one does not have it. -/
theorem span_append {p : Char → Bool} {run rest : List Char} (h : ∀ c ∈ run, p c)
    (hrest : ∀ c ∈ rest.head?, p c = false) :
    (run ++ rest).takeWhile p = run ∧ (run ++ rest).dropWhile p = rest := by
  have htail : rest.takeWhile p = [] ∧ rest.dropWhile p = rest := by
    cases rest with
    | nil => exact ⟨rfl, rfl⟩
    | cons c rest =>
      have hc : p c = false := hrest c rfl
      simp [hc]
  rw [List.takeWhile_append_of_pos h, List.dropWhile_append_of_pos h, htail.1, htail.2]
  exact ⟨List.append_nil _, rfl⟩

mutual

theorem dropBlanks_suffix : (text : List Char) → dropBlanks text <:+ text
  | [] => List.suffix_refl _
  | c :: rest => by
    unfold dropBlanks
    split
    · exact (dropBlanks_suffix rest).trans (List.suffix_cons _ _)
    · split
      · exact (dropComment_suffix rest).trans (List.suffix_cons _ _)
      · exact List.suffix_refl _

theorem dropComment_suffix : (text : List Char) → dropComment text <:+ text
  | [] => List.suffix_refl _
  | c :: rest => by
    unfold dropComment
    split
    · exact (dropBlanks_suffix rest).trans (List.suffix_cons _ _)
    · exact (dropComment_suffix rest).trans (List.suffix_cons _ _)

end

mutual

/-- Behind blanks there are no blanks. -/
theorem dropBlanks_idem : (text : List Char) → dropBlanks (dropBlanks text) = dropBlanks text
  | [] => rfl
  | c :: rest => by
    rw [dropBlanks]
    split
    · exact dropBlanks_idem rest
    · split
      · exact dropBlanks_dropComment rest
      · rw [dropBlanks, if_neg (by assumption), if_neg (by assumption)]

theorem dropBlanks_dropComment :
    (text : List Char) → dropBlanks (dropComment text) = dropComment text
  | [] => rfl
  | c :: rest => by
    rw [dropComment]
    split
    · exact dropBlanks_idem rest
    · exact dropBlanks_dropComment rest

end

theorem length_dropBlanks (text : List Char) : (dropBlanks text).length ≤ text.length :=
  (dropBlanks_suffix text).length_le

/-! ## What recognisers take -/

theorem symbol?_eq_some {c d : Char} {text rest : List Char} (h : symbol? c text = some (d, rest)) :
    text = c :: rest := by
  unfold symbol? at h
  split at h
  · cases h
  · split at h
    · cases h
      rw [‹d = c›]
    · cases h

theorem word?_eq_some {w w' : String} {text rest : List Char} (h : word? w text = some (w', rest)) :
    text = w.toList ++ rest := by
  unfold word? at h
  split at h
  · cases h
  · rename_i hprefix
    split at h
    · cases h
    · cases h
      exact (List.isPrefixOf?_eq_some_iff_append_eq.mp hprefix).symm

theorem identifier?_eq_some {w : String} {text rest : List Char}
    (h : identifier? text = some (w, rest)) :
    text = w.toList ++ rest ∧ IsWord w := by
  unfold identifier? at h
  split at h
  · cases h
  · rename_i hne
    cases h
    refine ⟨?_, ?_, ?_⟩ <;> rw [String.toList_ofList]
    · exact List.takeWhile_append_dropWhile.symm
    · exact fun h => hne h
    · exact fun c hc => List.all_eq_true.mp List.all_takeWhile c hc

theorem binaryOperator?_eq_some {op : Operator} {text rest : List Char}
    (h : binaryOperator? text = some (op, rest)) :
    op ∈ Operator.binary ∧ text = op.symbol.toList ++ rest := by
  obtain ⟨before, op', after, hall, hop, -⟩ := List.findSome?_eq_some_iff.mp h
  obtain ⟨rest', hprefix, he⟩ := Option.map_eq_some_iff.mp hop
  cases he
  exact ⟨by rw [hall]; simp, (List.isPrefixOf?_eq_some_iff_append_eq.mp hprefix).symm⟩

/-- An operator is recognised unless what follows makes it a longer one. -/
theorem binaryOperator?_symbol {op : Operator} {rest : List Char} (hop : op ∈ Operator.binary)
    (hrest : ∀ c ∈ rest.head?, c ≠ '=') :
    binaryOperator? (op.symbol.toList ++ rest) = some (op, rest) := by
  have hlonger : ∀ c, [c, '='].isPrefixOf? (c :: rest) = none := by
    intro c
    refine Option.eq_none_iff_forall_ne_some.mpr fun more hmore => ?_
    have hall := List.isPrefixOf?_eq_some_iff_append_eq.mp hmore
    rw [← (List.cons.inj hall).2] at hrest
    exact hrest '=' rfl rfl
  cases op with
  | not | neg | pos | openParen | closeParen | endOfExpression | prepareCall =>
    exact absurd hop (by decide)
  | lt =>
    refine List.findSome?_eq_some_iff.mpr ⟨[.eq, .ne, .le, .ge, .and, .or], .lt, _, rfl, rfl, ?_⟩
    simp only [List.forall_mem_cons, Option.map_eq_none_iff]
    exact ⟨rfl, rfl, hlonger '<', rfl, rfl, rfl, List.forall_mem_nil _⟩
  | gt =>
    refine List.findSome?_eq_some_iff.mpr
      ⟨[.eq, .ne, .le, .ge, .and, .or, .lt], .gt, _, rfl, rfl, ?_⟩
    simp only [List.forall_mem_cons, Option.map_eq_none_iff]
    exact ⟨rfl, rfl, rfl, hlonger '>', rfl, rfl, rfl, List.forall_mem_nil _⟩
  | _ => rfl

theorem unaryOperator?_eq_some {op : Operator} {text rest : List Char}
    (h : unaryOperator? text = some (op, rest)) :
    op.isUnary ∧ ∃ c, text = c :: rest := by
  unfold unaryOperator? at h
  split at h
  · cases h
  · rename_i c rest'
    obtain ⟨op', hop, he⟩ := Option.map_eq_some_iff.mp h
    cases he
    refine ⟨?_, c, rfl⟩
    unfold Operator.ofSign? at hop
    split at hop <;> cases hop <;> rfl

end Lexeme

namespace Literal

theorem rest_of_map_addChar {c : Char} {x : Except StringError (List Char × List Char)}
    {s rest : List Char} (h : x.map (addChar c) = .ok (s, rest)) : ∃ s', x = .ok (s', rest) := by
  cases x with
  | error e => cases h
  | ok y =>
    obtain ⟨s', rest'⟩ := y
    cases h
    exact ⟨s', rfl⟩

theorem plainString_length : (text : List Char) → {s rest : List Char} →
    plainString text = .ok (s, rest) → rest.length < text.length
  | [], _, _, h => by cases h
  | c :: text, s, rest, h => by
    unfold plainString at h
    split at h
    · cases h
      exact Nat.lt_succ_self _
    · split at h
      · split at h
        · cases h
        · rename_i d text
          split at h
          · cases h
          · obtain ⟨s', h'⟩ := rest_of_map_addChar h
            have := plainString_length text h'
            simp only [List.length_cons]
            omega
      · obtain ⟨s', h'⟩ := rest_of_map_addChar h
        have := plainString_length text h'
        simp only [List.length_cons]
        omega

theorem rawString_length : (text : List Char) → {s rest : List Char} →
    rawString text = .ok (s, rest) → rest.length < text.length
  | [], _, _, h => by cases h
  | c :: text, s, rest, h => by
    unfold rawString at h
    split at h
    · cases h
      exact Nat.lt_succ_self _
    · obtain ⟨s', h'⟩ := rest_of_map_addChar h
      have := rawString_length text h'
      simp only [List.length_cons]
      omega

theorem fraction_length (text : List Char) :
    (fraction text).2.length + ((fraction text).1.getD []).length ≤ text.length := by
  unfold fraction
  split
  · simp
  · rename_i c rest
    split
    · have := congrArg List.length (List.takeWhile_append_dropWhile (p := Char.isDigit) (l := rest))
      simp only [List.length_append] at this
      simp
      omega
    · simp

theorem exponentSign_length (text : List Char) : (exponentSign text).2.length ≤ text.length := by
  unfold exponentSign
  split
  · simp
  · split <;> simp

theorem exponent?_length {text rest : List Char} {e : Option (Bool × List Char)}
    (h : exponent? text = some (e, rest)) : rest.length ≤ text.length := by
  cases text with
  | nil =>
    cases h
    exact Nat.le_refl _
  | cons c text =>
    have hsign := exponentSign_length text
    have hdigits := (List.dropWhile_suffix Char.isDigit (l := (exponentSign text).2)).length_le
    simp only [exponent?] at h
    split at h
    · split at h
      · cases h
      · cases h
        simp only [List.length_cons]
        omega
    · cases h
      exact Nat.le_refl _

theorem numeral?_length {text rest : List Char} {n : Numeral}
    (h : numeral? text = some (n, rest)) : rest.length < text.length := by
  have hsplit := congrArg List.length (List.takeWhile_append_dropWhile (p := Char.isDigit) (l := text))
  have hfraction := fraction_length (text.dropWhile Char.isDigit)
  simp only [List.length_append] at hsplit
  simp only [numeral?] at h
  split at h
  · cases h
  · rename_i hdigits
    have hpos : 0 < (text.takeWhile Char.isDigit).length +
        ((fraction (text.dropWhile Char.isDigit)).1.getD []).length := by
      rw [Nat.pos_iff_ne_zero]
      intro hzero
      refine hdigits ?_
      rw [Bool.and_eq_true, List.isEmpty_iff_length_eq_zero, List.isEmpty_iff_length_eq_zero]
      omega
    split at h
    · cases h
    · rename_i hexp
      have := exponent?_length hexp
      split at h
      · cases h
      · cases h
        omega

end Literal

end StackScript
