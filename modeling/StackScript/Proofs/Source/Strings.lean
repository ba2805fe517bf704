import Mathlib.Data.List.Forall2
import StackScript.Proofs.Rendering.Literal
import StackScript.Proofs.Source.Bytes
import StackScript.Proofs.Source.Ending

/-!
# The spellings of strings

Between plain quotes a string is spelled character by character: a character stands for itself, or
an escape stands for it (`CharSpelling`, `Spells`). Between raw quotes every character stands for
itself.

Strings are read from all their spellings (`Scanner.string_plain`, `Scanner.string_raw`) and from no
other text (`Scanner.spelling_of_string`), and every string has a spelling (`exists_spells`).
**`Scanner.string_spellings`** puts this together.
-/

namespace StackScript

open Lexeme

namespace Literal

/-! ## Spellings -/

/-- The spellings of a character between plain quotes. -/
inductive CharSpelling : Char → List Char → Prop
  | itself {c : Char} (hquote : c ≠ '\'') (hbackslash : c ≠ '\\') : CharSpelling c [c]
  | newline : CharSpelling '\n' ['\\', 'n']
  | tab : CharSpelling '\t' ['\\', 't']
  | carriageReturn : CharSpelling '\r' ['\\', 'r']
  | backslash : CharSpelling '\\' ['\\', '\\']
  | quote : CharSpelling '\'' ['\\', '\'']

/-- A spelling of a string is put together from spellings of its characters. -/
def Spells (s q : List Char) : Prop :=
  ∃ pieces, List.Forall₂ CharSpelling s pieces ∧ q = pieces.flatten

theorem spells_nil : Spells [] [] := ⟨[], .nil, rfl⟩

theorem Spells.cons {c : Char} {piece s q : List Char} (hc : CharSpelling c piece)
    (h : Spells s q) : Spells (c :: s) (piece ++ q) := by
  obtain ⟨pieces, hpieces, rfl⟩ := h
  exact ⟨piece :: pieces, .cons hc hpieces, rfl⟩

/-- The escapes are those that are recognised. -/
theorem charSpelling_of_escape? {c d : Char} (h : escape? d = some c) :
    CharSpelling c ['\\', d] := by
  unfold escape? at h
  split at h <;> cases h <;> constructor

theorem CharSpelling.plainText {c : Char} {piece s q : List Char} (hc : CharSpelling c piece)
    (h : PlainText s q) : PlainText (c :: s) (piece ++ q) := by
  cases hc with
  | itself hquote hbackslash => exact .char hquote hbackslash h
  | newline | tab | carriageReturn | backslash | quote => exact .escape rfl h

theorem spells_iff_plainText {s q : List Char} : Spells s q ↔ PlainText s q := by
  constructor
  · rintro ⟨pieces, hpieces, rfl⟩
    induction hpieces with
    | nil => exact .nil
    | cons hc _ ih => exact hc.plainText ih
  · intro h
    induction h with
    | nil => exact spells_nil
    | char hquote hbackslash _ ih => exact ih.cons (.itself hquote hbackslash)
    | escape hd _ ih => exact ih.cons (charSpelling_of_escape? hd)

/-- Every character can be spelled. -/
theorem exists_charSpelling (c : Char) : ∃ piece, CharSpelling c piece := by
  by_cases hquote : c = '\''
  · subst hquote
    exact ⟨_, .quote⟩
  · by_cases hbackslash : c = '\\'
    · subst hbackslash
      exact ⟨_, .backslash⟩
    · exact ⟨[c], .itself hquote hbackslash⟩

/-- Every string can be spelled. -/
theorem exists_spells (s : List Char) : ∃ q, Spells s q := by
  induction s with
  | nil => exact ⟨[], spells_nil⟩
  | cons c s ih =>
    obtain ⟨q, hq⟩ := ih
    obtain ⟨piece, hpiece⟩ := exists_charSpelling c
    exact ⟨piece ++ q, hq.cons hpiece⟩

/-! ## Strings in a text -/

/-- What is recognised between plain quotes is a spelling. -/
theorem plainText_of_plainString : (text : List Char) → {s rest : List Char} →
    plainString text = .ok (s, rest) → ∃ q, PlainText s q ∧ text = q ++ '\'' :: rest
  | [], _, _, h => by cases h
  | c :: text, s, rest, h => by
    unfold plainString at h
    split at h
    · rename_i hquote
      cases h
      exact ⟨[], .nil, by rw [hquote]; rfl⟩
    · rename_i hquote
      split at h
      · rename_i hbackslash
        split at h
        · cases h
        · rename_i d text
          split at h
          · cases h
          · rename_i e hd
            obtain ⟨s', h'⟩ := rest_of_map_addChar h
            obtain ⟨q, hq, rfl⟩ := plainText_of_plainString text h'
            rw [h'] at h
            cases h
            exact ⟨'\\' :: d :: q, .escape hd hq, by rw [hbackslash]; rfl⟩
      · rename_i hbackslash
        obtain ⟨s', h'⟩ := rest_of_map_addChar h
        obtain ⟨q, hq, rfl⟩ := plainText_of_plainString text h'
        rw [h'] at h
        cases h
        exact ⟨c :: q, .char hquote hbackslash hq, rfl⟩

/-- What is recognised between raw quotes has no quote. -/
theorem eq_of_rawString : (text : List Char) → {s rest : List Char} →
    rawString text = .ok (s, rest) → '\'' ∉ s ∧ text = s ++ '\'' :: rest
  | [], _, _, h => by cases h
  | c :: text, s, rest, h => by
    unfold rawString at h
    split at h
    · rename_i hquote
      cases h
      exact ⟨List.not_mem_nil, by rw [hquote]; rfl⟩
    · rename_i hquote
      obtain ⟨s', h'⟩ := rest_of_map_addChar h
      obtain ⟨hs, rfl⟩ := eq_of_rawString text h'
      rw [h'] at h
      cases h
      exact ⟨List.not_mem_cons_of_ne_of_not_mem (Ne.symm hquote) hs, rfl⟩

end Literal

namespace Scanner

open Literal

variable {text q u : List Char} {s : String}

theorem string_plain (hq : Spells s.toList q) (htext : dropBlanks text = '\'' :: (q ++ '\'' :: u)) :
    string text = .ok (some s) u := by
  have hread := plainString_written (spells_iff_plainText.mp hq) u
  simp only [string, htext, hread, endString, String.ofList_toList]

theorem string_raw (hs : '\'' ∉ s.toList)
    (htext : dropBlanks text = '@' :: '\'' :: (s.toList ++ '\'' :: u)) :
    string text = .ok (some s) u := by
  have hread := rawString_written hs u
  simp only [string, htext, hread, endString, String.ofList_toList]

/-- Where a string has been read there is a spelling of it. -/
theorem spelling_of_string (h : string text = .ok (some s) u) :
    (∃ q, Spells s.toList q ∧ dropBlanks text = '\'' :: (q ++ '\'' :: u)) ∨
      '\'' ∉ s.toList ∧ dropBlanks text = '@' :: '\'' :: (s.toList ++ '\'' :: u) := by
  unfold string at h
  simp only at h
  split at h
  · rename_i inside hstart
    obtain ⟨s', hs', ho⟩ := endString_ok h
    obtain ⟨q, hq, rfl⟩ := plainText_of_plainString inside hs'
    obtain rfl := Option.some.inj ho
    rw [String.toList_ofList]
    exact .inl ⟨q, spells_iff_plainText.mpr hq, hstart⟩
  · rename_i inside hstart
    obtain ⟨s', hs', ho⟩ := endString_ok h
    obtain ⟨hraw, rfl⟩ := eq_of_rawString inside hs'
    obtain rfl := Option.some.inj ho
    rw [String.toList_ofList]
    exact .inr ⟨hraw, hstart⟩
  · cases h
  · cases h

/-- **Strings are read from their spellings, and from nothing else.** Whatever follows, a string is
read from each of its spellings between plain quotes, and from itself between raw quotes if it has
no quote in it; the text behind the closing quote is left. Conversely, where a string has been read,
a plain or a raw spelling of it stands between the blanks and what is left. Every string can be
spelled. Going through the bytes of a source comes to the same at each of its boundaries. -/
theorem string_spellings :
    (∀ (s : String) (q u : List Char), Spells s.toList q →
      string ('\'' :: (q ++ '\'' :: u)) = .ok (some s) u) ∧
    (∀ (s : String) (u : List Char), '\'' ∉ s.toList →
      string ('@' :: '\'' :: (s.toList ++ '\'' :: u)) = .ok (some s) u) ∧
    (∀ (text u : List Char) (s : String), string text = .ok (some s) u →
      (∃ q, Spells s.toList q ∧ dropBlanks text = '\'' :: (q ++ '\'' :: u)) ∨
        '\'' ∉ s.toList ∧ dropBlanks text = '@' :: '\'' :: (s.toList ++ '\'' :: u)) ∧
    (∀ s : String, ∃ q, Spells s.toList q) ∧
    Cursor.Follows Cursor.string string :=
  ⟨fun _ _ _ hq => string_plain hq rfl, fun _ _ hs => string_raw hs rfl,
    fun _ _ _ h => spelling_of_string h, fun s => exists_spells s.toList, Cursor.follows_string⟩

end Scanner

end StackScript
