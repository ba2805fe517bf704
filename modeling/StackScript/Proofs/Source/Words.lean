import StackScript.Proofs.Source.Positions

/-!
# Given words and longest words

A scanner can be asked for a given word, which it compares with the front of the text and with one
character behind, or for any word, which it takes as long as it goes on. Both come to the same
(`Lexeme.word?_eq_some_iff`, `Lexeme.identifier?_eq_some_iff`): what they take leads the text
(`Lexeme.Leads`), with no character of words behind it. So it does not matter which of the two a
reader asks for first, and no keyword is taken from the front of a longer word
(**`Scanner.word_agrees_with_identifier`**).
-/

namespace StackScript

namespace Lexeme

/-- A word at the front of a text that does not go on in the rest. -/
structure Leads (w : String) (text rest : List Char) : Prop where
  front : text = w.toList ++ rest
  ends : ∀ c ∈ rest.head?, isWordChar c = false

variable {w w' : String} {text rest : List Char}

theorem any_head?_eq_false {p : Char → Bool} :
    text.head?.any p = false ↔ ∀ c ∈ text.head?, p c = false := by
  cases text.head? <;> simp

/-- A given word is compared with the front and with one character behind. -/
theorem word?_eq_some_iff : word? w text = some (w', rest) ↔ w' = w ∧ Leads w text rest := by
  constructor
  · intro h
    have hfront := word?_eq_some h
    unfold word? at h
    split at h
    · cases h
    · split at h
      · cases h
      · rename_i hends
        cases h
        exact ⟨rfl, hfront, any_head?_eq_false.mp (Bool.eq_false_iff.mpr hends)⟩
  · rintro ⟨rfl, hfront, hends⟩
    have hprefix : w'.toList.isPrefixOf? text = some rest :=
      List.isPrefixOf?_eq_some_iff_append_eq.mpr hfront.symm
    simp only [word?, hprefix, any_head?_eq_false.mpr hends]
    rfl

/-- A word is taken as long as it goes on. -/
theorem identifier?_eq_some_iff :
    identifier? text = some (w, rest) ↔ IsWord w ∧ Leads w text rest := by
  constructor
  · intro h
    obtain ⟨hfront, hw⟩ := identifier?_eq_some h
    refine ⟨hw, hfront, fun c hc => ?_⟩
    have hrest : rest = text.dropWhile isWordChar := by
      unfold identifier? at h
      split at h
      · cases h
      · cases h
        rfl
    have hstop := List.head?_dropWhile_not isWordChar text
    rw [← hrest, hc] at hstop
    exact hstop
  · rintro ⟨hw, rfl, hends⟩
    obtain ⟨htake, hdrop⟩ := span_append hw.chars hends
    obtain ⟨c, tail, hc⟩ := List.exists_cons_of_ne_nil hw.nonempty
    unfold identifier?
    rw [htake, hdrop]
    simp only [hc]
    rw [← hc, String.ofList_toList]

end Lexeme

namespace Scanner

open Lexeme

variable (source : String) (position : Nat)

/-- What a query for a given word answers and where it ends. -/
theorem run_word (w : String) (h : IsBoundary source position) :
    Call.run source (.ask (.word w)) position =
      (word? w (dropBlanks (textFrom source position))).elim (.flag false, skipFrom source position)
        fun found => (.flag true, positionOf source found.2) := by
  rw [skipFrom_eq h, run_ask _ h]
  cases hword : word? w (dropBlanks (textFrom source position)) <;>
    simp [Query.scanner, word, take?, hword, Functor.map, EStateM.map]

/-- What a query for any word answers and where it ends. -/
theorem run_identifier (h : IsBoundary source position) :
    Call.run source (.ask .identifier) position =
      (identifier? (dropBlanks (textFrom source position))).elim
        (.text none, skipFrom source position)
        fun found => (.text (some found.1), positionOf source found.2) := by
  rw [skipFrom_eq h, run_ask _ h]
  cases hword : identifier? (dropBlanks (textFrom source position)) <;>
    simp [Query.scanner, identifier, take?, hword, Functor.map, EStateM.map]

/-- The outcomes of two queries at a position, for a given word and for any word, agree. -/
structure Agree (w : String) (given longest : Answer × Nat) : Prop where
  /-- The given word is found just if it is the longest one. -/
  found : given.1 = .flag true ↔ longest.1 = .text (some w)
  /-- Then both end behind it. -/
  behind : given.1 = .flag true → given.2 = longest.2
  /-- Otherwise blanks and comments are skipped and nothing else. -/
  declined : given.1 ≠ .flag true → given.1 = .flag false ∧ given.2 = skipFrom source position
  skips : Skips source position
  /-- The given word is found just if it is there and no character of words follows. -/
  leads : given.1 = .flag true ↔
    ∃ rest, Leads w (textFrom source (skipFrom source position)) rest

/-- **Keywords and names are told apart alike.** At every position in every source a word is taken
as a given word just if it is what would be taken as the longest word, both end at the same
position, and where it is not taken only blanks and comments are skipped. So a word is never taken
from the front of a longer one, whatever follows. -/
theorem word_agrees_with_identifier (w : String) (hw : IsWord w) (h : IsBoundary source position) :
    Agree source position w (Call.run source (.ask (.word w)) position)
      (Call.run source (.ask .identifier) position) := by
  have hsuffix := (dropBlanks_suffix (textFrom source position)).trans h.textFrom.1
  have hafter : textFrom source (skipFrom source position) =
      dropBlanks (textFrom source position) := by
    rw [skipFrom_eq h, textFrom_positionOf hsuffix]
  rw [run_word source position w h, run_identifier source position h]
  cases hword : word? w (dropBlanks (textFrom source position)) with
  | some found =>
    obtain ⟨w', rest⟩ := found
    obtain ⟨rfl, hleads⟩ := word?_eq_some_iff.mp hword
    have hidentifier := identifier?_eq_some_iff.mpr ⟨hw, hleads⟩
    rw [hidentifier]
    exact ⟨⟨fun _ => rfl, fun _ => rfl⟩, fun _ => rfl, fun hnot => absurd rfl hnot,
      skips_of_isBoundary h, ⟨fun _ => ⟨rest, hafter ▸ hleads⟩, fun _ => rfl⟩⟩
  | none =>
    have hnone : ∀ rest, ¬ Leads w (dropBlanks (textFrom source position)) rest := by
      intro rest hleads
      cases hword.symm.trans (word?_eq_some_iff.mpr ⟨rfl, hleads⟩)
    refine ⟨⟨fun hfound => (by cases hfound), fun hfound => ?_⟩, fun hfound => (by cases hfound),
      fun _ => ⟨rfl, rfl⟩, skips_of_isBoundary h, ⟨fun hfound => (by cases hfound), ?_⟩⟩
    · -- a longest word would lead the text, and this one does not
      cases hidentifier : identifier? (dropBlanks (textFrom source position)) with
      | none =>
        rw [hidentifier] at hfound
        cases hfound
      | some found =>
        obtain ⟨w', rest⟩ := found
        rw [hidentifier] at hfound
        cases hfound
        exact absurd (identifier?_eq_some_iff.mp hidentifier).2 (hnone rest)
    · rintro ⟨rest, hleads⟩
      exact absurd (hafter ▸ hleads) (hnone rest)

/-- Behind a comment, and before a letter that is no character of words. -/
theorem word_agrees_with_identifier_accented :
    IsWord "var" ∧ IsBoundary "é //ü\nvarö" 2 ∧
      Call.run "é //ü\nvarö" (.ask (.word "var")) 2 = (.flag true, 11) ∧
      Agree "é //ü\nvarö" 2 "var" (Call.run "é //ü\nvarö" (.ask (.word "var")) 2)
        (Call.run "é //ü\nvarö" (.ask .identifier) 2) := by
  have hw : IsWord "var" := isWord_of_mem_keywords (by decide)
  have h : IsBoundary "é //ü\nvarö" 2 := ⟨"é".toList, " //ü\nvarö".toList, by decide, by decide⟩
  exact ⟨hw, h, by decide +kernel, word_agrees_with_identifier _ _ _ hw h⟩

end Scanner

end StackScript
