import StackScript.Proofs.Source.Lexeme

/-!
# Texts before a line end and a semicolon

A line end and a semicolon behind a text do not change what is recognised at its front: no lexeme
goes over a line end, and a comment at the end of the text ends there. Once blanks have been skipped
either something of the text is left, or the semicolon is next (`closed`). `Stable` says of a
recogniser that it takes the same from a text with this end as from the text alone.
-/

namespace StackScript

/-- A line end and a semicolon. -/
def ending : List Char := ['\n', ';']

/-- A text with blanks skipped, and what is left of `ending` behind it. -/
def closed : List Char → List Char
  | [] => [';']
  | c :: rest => c :: (rest ++ ending)

theorem length_le_closed (text : List Char) : text.length ≤ (closed text).length := by
  cases text with
  | nil => exact Nat.zero_le _
  | cons c rest => simp [closed]

section Lists

variable {p : Char → Bool}

/-- A run of characters that cannot contain a line end stops before it. -/
theorem span_ending (h : p '\n' = false) (text : List Char) :
    (text ++ ending).takeWhile p = text.takeWhile p ∧
      (text ++ ending).dropWhile p = text.dropWhile p ++ ending := by
  induction text with
  | nil => simp [ending, h]
  | cons c text ih =>
    by_cases hc : p c = true
    · simp [hc, ih]
    · simp [hc]

theorem any_head?_ending (h : p '\n' = false) (text : List Char) :
    (text ++ ending).head?.any p = text.head?.any p := by
  cases text with
  | nil => simp [ending, h]
  | cons c text => rfl

theorem isPrefixOf?_ending {w : List Char} (h : '\n' ∉ w) (text : List Char) :
    w.isPrefixOf? (text ++ ending) = (w.isPrefixOf? text).map (· ++ ending) := by
  induction w generalizing text with
  | nil => rfl
  | cons c w ih =>
    rw [List.mem_cons, not_or] at h
    cases text with
    | nil => simp [ending, List.isPrefixOf?, Ne.symm h.1]
    | cons d text =>
      simp only [List.cons_append, List.isPrefixOf?, ih h.2]
      split <;> rfl

end Lists

namespace Lexeme

variable {α : Type}

/-! ## Blanks -/

mutual

theorem dropBlanks_ending : (text : List Char) →
    dropBlanks (text ++ ending) = closed (dropBlanks text)
  | [] => rfl
  | c :: rest => by
    have hslash : (rest ++ ending).head? = some '/' ↔ rest.head? = some '/' := by
      cases rest with
      | nil => simp [ending]
      | cons d rest => rfl
    simp only [List.cons_append, dropBlanks, hslash]
    split
    · exact dropBlanks_ending rest
    · split
      · exact dropComment_ending rest
      · rfl

theorem dropComment_ending : (text : List Char) →
    dropComment (text ++ ending) = closed (dropComment text)
  | [] => rfl
  | c :: rest => by
    rw [List.cons_append, dropComment, dropComment]
    split
    · exact dropBlanks_ending rest
    · exact dropComment_ending rest

end

/-! ## Recognisers -/

/-- A recogniser takes the same from a text with its end as from the text alone. -/
def Stable (recognise : List Char → Option (α × List Char)) : Prop :=
  ∀ text, recognise (closed text) = (recognise text).map fun (a, rest) => (a, rest ++ ending)

theorem stable_symbol {c : Char} (hc : c ≠ ';') : Stable (symbol? c) := by
  intro text
  cases text with
  | nil => exact if_neg (Ne.symm hc)
  | cons d rest =>
    simp only [closed, symbol?]
    split <;> rfl

theorem stable_word {w : String} (hw : IsWord w) : Stable (word? w) := by
  have hnot : ∀ c : Char, isWordChar c = false → c ∉ w.toList := fun c hc hmem => by
    rw [hw.chars c hmem] at hc
    cases hc
  intro text
  cases text with
  | nil =>
    obtain ⟨c, rest, hcons⟩ := List.exists_cons_of_ne_nil hw.nonempty
    have hsemicolon : c ≠ ';' := by
      rintro rfl
      exact hnot ';' (by decide) (by rw [hcons]; exact List.mem_cons_self)
    simp [closed, word?, hcons, List.isPrefixOf?, hsemicolon]
  | cons d rest =>
    show word? w (d :: rest ++ ending) = _
    unfold word?
    rw [isPrefixOf?_ending (hnot '\n' (by decide))]
    cases w.toList.isPrefixOf? (d :: rest) with
    | none => rfl
    | some after =>
      simp only [Option.map_some, any_head?_ending (show isWordChar '\n' = false by decide)]
      split <;> rfl

theorem stable_identifier : Stable identifier? := by
  intro text
  cases text with
  | nil => rfl
  | cons c rest =>
    obtain ⟨htake, hdrop⟩ := span_ending (show isWordChar '\n' = false by decide) (c :: rest)
    show identifier? (c :: rest ++ ending) = _
    unfold identifier?
    rw [htake, hdrop]
    split <;> rfl

/-- The first operator that fits is the same if no symbol contains a line end. -/
theorem findSome?_symbol_ending {ops : List Operator} (h : ∀ op ∈ ops, '\n' ∉ op.symbol.toList)
    (text : List Char) :
    (ops.findSome? fun op => (op.symbol.toList.isPrefixOf? (text ++ ending)).map (op, ·)) =
      (ops.findSome? fun op => (op.symbol.toList.isPrefixOf? text).map (op, ·)).map
        fun (op, rest) => (op, rest ++ ending) := by
  induction ops with
  | nil => rfl
  | cons op ops ih =>
    obtain ⟨hop, hops⟩ := List.forall_mem_cons.mp h
    simp only [List.findSome?_cons, isPrefixOf?_ending hop, ih hops]
    cases op.symbol.toList.isPrefixOf? text <;> rfl

theorem stable_binaryOperator : Stable binaryOperator? := by
  intro text
  cases text with
  | nil => rfl
  | cons c rest => exact findSome?_symbol_ending (by decide) (c :: rest)

theorem stable_unaryOperator : Stable unaryOperator? := by
  intro text
  cases text with
  | nil => rfl
  | cons c rest =>
    simp only [closed, unaryOperator?]
    cases Operator.ofSign? c <;> rfl

end Lexeme

namespace Literal

/-! ## Numbers -/

theorem fraction_ending (text : List Char) :
    fraction (text ++ ending) = ((fraction text).1, (fraction text).2 ++ ending) := by
  cases text with
  | nil => rfl
  | cons c rest =>
    obtain ⟨htake, hdrop⟩ := span_ending (show Char.isDigit '\n' = false by decide) rest
    simp only [List.cons_append, fraction, htake, hdrop]
    split <;> rfl

theorem exponentSign_ending (text : List Char) :
    exponentSign (text ++ ending) = ((exponentSign text).1, (exponentSign text).2 ++ ending) := by
  cases text with
  | nil => rfl
  | cons c rest =>
    simp only [List.cons_append, exponentSign]
    split <;> rfl

theorem exponent?_ending (text : List Char) :
    exponent? (text ++ ending) = (exponent? text).map fun (e, rest) => (e, rest ++ ending) := by
  cases text with
  | nil => rfl
  | cons c rest =>
    obtain ⟨htake, hdrop⟩ :=
      span_ending (show Char.isDigit '\n' = false by decide) (exponentSign rest).2
    simp only [List.cons_append, exponent?, exponentSign_ending, htake, hdrop]
    split
    · split <;> rfl
    · rfl

theorem stable_numeral : Lexeme.Stable numeral? := by
  intro text
  cases text with
  | nil => rfl
  | cons c rest =>
    obtain ⟨htake, hdrop⟩ := span_ending (show Char.isDigit '\n' = false by decide) (c :: rest)
    show numeral? (c :: rest ++ ending) = _
    unfold numeral?
    simp only [htake, hdrop, fraction_ending, exponent?_ending]
    split
    · rfl
    · cases exponent? (fraction ((c :: rest).dropWhile Char.isDigit)).2 with
      | none => rfl
      | some found =>
        simp only [Option.map_some, any_head?_ending (show continuesNumber '\n' = false by decide)]
        split <;> rfl

/-! ## Strings -/

theorem map_addChar_append {c : Char} {x y : Except StringError (List Char × List Char)}
    {s rest more : List Char} (h : x.map (addChar c) = .ok (s, rest))
    (hxy : ∀ s', x = .ok (s', rest) → y = .ok (s', rest ++ more)) :
    y.map (addChar c) = .ok (s, rest ++ more) := by
  obtain ⟨s', hx⟩ := rest_of_map_addChar h
  rw [hx] at h
  cases h
  rw [hxy s' hx]
  rfl

theorem plainString_append (more : List Char) : (text : List Char) → {s rest : List Char} →
    plainString text = .ok (s, rest) → plainString (text ++ more) = .ok (s, rest ++ more)
  | [], _, _, h => by cases h
  | c :: text, s, rest, h => by
    unfold plainString at h
    rw [List.cons_append]
    unfold plainString
    split at h
    · rename_i hquote
      cases h
      rw [if_pos hquote]
    · rename_i hquote
      rw [if_neg hquote]
      split at h
      · rename_i hslash
        rw [if_pos hslash]
        split at h
        · cases h
        · rename_i d text
          rw [List.cons_append]
          simp only
          split at h
          · cases h
          · exact map_addChar_append h fun s' h' => plainString_append more text h'
      · rename_i hslash
        rw [if_neg hslash]
        exact map_addChar_append h fun s' h' => plainString_append more text h'

theorem rawString_append (more : List Char) : (text : List Char) → {s rest : List Char} →
    rawString text = .ok (s, rest) → rawString (text ++ more) = .ok (s, rest ++ more)
  | [], _, _, h => by cases h
  | c :: text, s, rest, h => by
    rw [rawString] at h
    rw [List.cons_append, rawString]
    split at h
    · rename_i hquote
      cases h
      rw [if_pos hquote]
    · rename_i hquote
      rw [if_neg hquote]
      exact map_addChar_append h fun s' h' => rawString_append more text h'

end Literal

/-! ## Scanners -/

namespace Scanner

open Lexeme

variable {α : Type}

/-- With `ending` behind its text, or what blanks leave of it, a scanner takes the same. -/
def Extends (s : Scanner α) : Prop :=
  ∀ {text text' rest : List Char} {a : α}, dropBlanks text' = closed (dropBlanks text) →
    s text = .ok a rest → ∃ rest', s text' = .ok a rest' ∧
      (rest' = rest ++ ending ∨ rest' = closed rest)

theorem extends_take? {recognise : List Char → Option (α × List Char)} (h : Stable recognise) :
    Extends (take? recognise) := by
  intro text text' rest a htext htake
  simp only [take?, htext, h (dropBlanks text)] at htake ⊢
  cases hrec : recognise (dropBlanks text) with
  | none =>
    rw [hrec] at htake
    cases htake
    exact ⟨_, rfl, .inr rfl⟩
  | some found =>
    rw [hrec] at htake
    cases htake
    exact ⟨_, rfl, .inl rfl⟩

theorem extends_isSome_take? {recognise : List Char → Option (α × List Char)}
    (h : Stable recognise) : Extends (Option.isSome <$> take? recognise) := by
  have hmap : ∀ text, (Option.isSome <$> take? recognise) text =
      EStateM.map Option.isSome (take? recognise) text := fun _ => rfl
  intro text text' rest b htext htake
  rw [hmap, EStateM.map] at htake ⊢
  cases hfirst : take? recognise text with
  | error e rest' =>
    rw [hfirst] at htake
    cases htake
  | ok o rest' =>
    obtain ⟨rest'', hthen, hrest⟩ := extends_take? h htext hfirst
    rw [hfirst] at htake
    cases htake
    rw [hthen]
    exact ⟨rest'', rfl, hrest⟩

theorem endString_ok {start rest : List Char} {o : Option String}
    {x : Except Literal.StringError (List Char × List Char)} (h : endString start x = .ok o rest) :
    ∃ s, x = .ok (s, rest) ∧ o = some (String.ofList s) := by
  match x, h with
  | .ok (s, rest), h =>
    cases h
    exact ⟨s, rfl, rfl⟩
  | .error .unterminated, h => cases h
  | .error (.badEscape c rest), h => cases h

theorem extends_string : Extends string := by
  intro text text' rest o htext hscan
  unfold string at hscan ⊢
  simp only [htext] at hscan ⊢
  split at hscan
  · rename_i inside hstart
    obtain ⟨s, hs, rfl⟩ := endString_ok hscan
    rw [hstart]
    simp only [closed, Literal.plainString_append ending inside hs]
    exact ⟨_, rfl, .inl rfl⟩
  · rename_i inside hstart
    obtain ⟨s, hs, rfl⟩ := endString_ok hscan
    rw [hstart]
    simp only [closed, List.cons_append, Literal.rawString_append ending inside hs]
    exact ⟨_, rfl, .inl rfl⟩
  · cases hscan
  · rename_i hquote _ hat
    cases hscan
    refine ⟨_, ?_, .inr rfl⟩
    cases hstart : dropBlanks text with
    | nil => rfl
    | cons c inside =>
      simp only [closed]
      split
      · rename_i heq
        obtain ⟨rfl, -⟩ := List.cons.inj heq
        exact absurd hstart (hquote _)
      · rename_i heq
        obtain ⟨rfl, -⟩ := List.cons.inj heq
        exact absurd hstart (hat _)
      · rename_i heq
        obtain ⟨rfl, -⟩ := List.cons.inj heq
        exact absurd hstart (hat _)
      · rfl

theorem extends_number : Extends number := by
  intro text text' rest o htext hscan
  unfold number at hscan ⊢
  simp only [htext, Literal.stable_numeral (dropBlanks text)] at hscan ⊢
  cases hn : Literal.numeral? (dropBlanks text) with
  | none =>
    rw [hn] at hscan
    cases hscan
    exact ⟨_, rfl, .inr rfl⟩
  | some found =>
    rw [hn] at hscan
    simp only [Option.map_some] at hscan ⊢
    cases hv : found.1.value? with
    | none =>
      rw [hv] at hscan
      cases hscan
    | some v =>
      rw [hv] at hscan
      cases hscan
      exact ⟨_, rfl, .inl rfl⟩

end Scanner

end StackScript
