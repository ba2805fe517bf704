import StackScript.Proofs.Source.Lexeme

/-!
# Where scanners stop and what they refuse

A complaint points at a place of a text, and `Complaint.PointsAt` says what stands there: the word
it is about, the number, the character of the escape or the quote that opens the string. A scanner
leaves a suffix of its text, a shorter one if it took something, and what it refuses stands where
it says (`Scanner.Advances`).
-/

namespace StackScript

/-! ## Places of complaints -/

namespace Complaint

/-- The word that a complaint is about. -/
def word? : Complaint → Option String
  | undeclaredVariable name | undeclaredFunction name | duplicateFunction name
  | duplicateParameter _ name | duplicateLocal _ name | reservedWord name
  | argumentCount name _ _ => some name
  | _ => none

/-- A complaint points at the place between `before` and `after`. One about a word stands where this
word is the longest one, one about a literal at the part of it that is wrong. -/
def PointsAt (before after : List Char) : Complaint → Prop
  | undeclaredVariable name | undeclaredFunction name | duplicateFunction name
  | duplicateParameter _ name | duplicateLocal _ name | reservedWord name
  | argumentCount name _ _ => after.takeWhile Lexeme.isWordChar = name.toList
  | invalidNumber text => text.toList <+: after
  | invalidEscape c => after.head? = some c ∧ before.getLast? = some '\\'
  | unterminatedString => ['\''] <+: after ∨ ['@', '\''] <+: after
  | expected _ | expectedEnd | nestingTooDeep _ | internal _ => True

/-- The complaints that say no more than what is missing at a place. -/
def IsPlain : Complaint → Prop
  | expected _ | expectedEnd | internal _ => True
  | _ => False

end Complaint

/-- The place of a refusal is in a text, and its complaint points at it. -/
def Refusal.PointsInto (text : List Char) (e : Refusal) : Prop :=
  ∃ before, text = before ++ e.rest ∧ e.complaint.PointsAt before e.rest

/-- The text may go back further. -/
theorem Refusal.PointsInto.of_suffix {text source : List Char} {e : Refusal}
    (h : e.PointsInto text) (hsuffix : text <:+ source) : e.PointsInto source := by
  obtain ⟨before, rfl, hpoints⟩ := h
  obtain ⟨front, rfl⟩ := hsuffix
  refine ⟨front ++ before, (List.append_assoc _ _ _).symm, ?_⟩
  cases hc : e.complaint with
  | invalidEscape c =>
    rw [hc] at hpoints
    exact ⟨hpoints.1, by rw [List.getLast?_append, hpoints.2]; rfl⟩
  | _ => rwa [hc] at hpoints

/-- A refusal for what stands in a text, not for how deep it nests. -/
structure Refusal.OfText (text : List Char) (e : Refusal) : Prop where
  points : e.PointsInto text
  notDeep : ∀ limit, e.complaint ≠ .nestingTooDeep limit

namespace Refusal.OfText

variable {source rest : List Char} {c : Complaint}

theorem of_suffix {text : List Char} {e : Refusal} (h : e.OfText text) (hsuffix : text <:+ source) :
    e.OfText source := ⟨h.points.of_suffix hsuffix, h.notDeep⟩

theorem of_word {name : String} (hc : c.word? = some name) (hrest : rest <:+ source)
    (hrun : rest.takeWhile Lexeme.isWordChar = name.toList) : OfText source ⟨c, rest⟩ := by
  obtain ⟨before, rfl⟩ := hrest
  refine ⟨⟨before, rfl, ?_⟩, fun limit hdeep => ?_⟩
  · cases c with
    | undeclaredVariable | undeclaredFunction | duplicateFunction | duplicateParameter
    | duplicateLocal | reservedWord | argumentCount =>
      cases hc
      exact hrun
    | _ => cases hc
  · cases hdeep
    cases hc

theorem of_plain (hc : c.IsPlain) (hrest : rest <:+ source) : OfText source ⟨c, rest⟩ := by
  obtain ⟨before, rfl⟩ := hrest
  refine ⟨⟨before, rfl, ?_⟩, fun limit hdeep => ?_⟩
  · cases c with
    | expected | expectedEnd | internal => trivial
    | _ => cases hc
  · cases hdeep
    cases hc

end Refusal.OfText

/-! ## Literals -/

namespace Literal

/-- What follows the character at the front of a string fails as the string does. -/
theorem error_of_map_addChar {c : Char} {x : Except StringError (List Char × List Char)}
    {e : StringError} (h : x.map (addChar c) = .error e) : x = .error e := by
  cases x with
  | error e' => cases h; rfl
  | ok y => cases h

/-- A wrong escape stands behind a backslash. -/
theorem plainString_badEscape : (text : List Char) → {c : Char} → {rest : List Char} →
    plainString text = .error (.badEscape c rest) → ∃ before, text = before ++ '\\' :: c :: rest
  | [], _, _, h => by cases h
  | d :: text, c, rest, h => by
    unfold plainString at h
    split at h
    · cases h
    · split at h
      · rename_i hslash
        split at h
        · cases h
        · rename_i c' text
          split at h
          · cases h
            exact ⟨[], by rw [hslash]; rfl⟩
          · obtain ⟨before, rfl⟩ := plainString_badEscape text (error_of_map_addChar h)
            exact ⟨d :: c' :: before, rfl⟩
      · obtain ⟨before, rfl⟩ := plainString_badEscape text (error_of_map_addChar h)
        exact ⟨d :: before, rfl⟩

theorem plainString_suffix : (text : List Char) → {s rest : List Char} →
    plainString text = .ok (s, rest) → rest <:+ text
  | [], _, _, h => by cases h
  | c :: text, s, rest, h => by
    unfold plainString at h
    split at h
    · cases h
      exact List.suffix_cons _ _
    · split at h
      · split at h
        · cases h
        · rename_i d text
          split at h
          · cases h
          · obtain ⟨s', h'⟩ := rest_of_map_addChar h
            exact (plainString_suffix text h').trans
              ((List.suffix_cons _ _).trans (List.suffix_cons _ _))
      · obtain ⟨s', h'⟩ := rest_of_map_addChar h
        exact (plainString_suffix text h').trans (List.suffix_cons _ _)

/-- A raw string is never wrong but for its end. -/
theorem rawString_badEscape : (text : List Char) → {c : Char} → {rest : List Char} →
    rawString text ≠ .error (.badEscape c rest)
  | [], _, _ => by simp [rawString]
  | d :: text, c, rest => by
    intro h
    unfold rawString at h
    split at h
    · cases h
    · exact rawString_badEscape text (error_of_map_addChar h)

theorem rawString_suffix : (text : List Char) → {s rest : List Char} →
    rawString text = .ok (s, rest) → rest <:+ text
  | [], _, _, h => by cases h
  | c :: text, s, rest, h => by
    unfold rawString at h
    split at h
    · cases h
      exact List.suffix_cons _ _
    · obtain ⟨s', h'⟩ := rest_of_map_addChar h
      exact (rawString_suffix text h').trans (List.suffix_cons _ _)

theorem fraction_suffix (text : List Char) : (fraction text).2 <:+ text := by
  unfold fraction
  split
  · exact List.suffix_refl _
  · split
    · exact (List.dropWhile_suffix _).trans (List.suffix_cons _ _)
    · exact List.suffix_refl _

theorem exponentSign_suffix (text : List Char) : (exponentSign text).2 <:+ text := by
  unfold exponentSign
  split
  · exact List.suffix_refl _
  · split
    · exact List.suffix_cons _ _
    · exact List.suffix_refl _

theorem exponent?_suffix {text rest : List Char} {e : Option (Bool × List Char)}
    (h : exponent? text = some (e, rest)) : rest <:+ text := by
  cases text with
  | nil =>
    cases h
    exact List.suffix_refl _
  | cons c text =>
    simp only [exponent?] at h
    split at h
    · split at h
      · cases h
      · cases h
        exact (List.dropWhile_suffix _).trans
          ((exponentSign_suffix text).trans (List.suffix_cons _ _))
    · cases h
      exact List.suffix_refl _

/-- A number takes a piece from the front of a text, which begins with its whole part. -/
theorem numeral?_pieces {text rest : List Char} {n : Numeral}
    (h : numeral? text = some (n, rest)) : n.whole <+: text ∧ rest <:+ text := by
  simp only [numeral?] at h
  split at h
  · cases h
  · split at h
    · cases h
    · rename_i hexp
      split at h
      · cases h
      · cases h
        exact ⟨List.takeWhile_prefix _, (exponent?_suffix hexp).trans
          ((fraction_suffix _).trans (List.dropWhile_suffix _))⟩

end Literal

/-! ## Scanners -/

namespace Scanner

variable {α : Type}

/-- A scanner left a suffix of the text, a shorter one if it took something; or it refused the text
for what stands in it. -/
def Went (text : List Char) (taken : α → Bool) : EStateM.Result Refusal (List Char) α → Prop
  | .ok a rest => rest <:+ text ∧ (taken a → rest.length < text.length)
  | .error e _ => e.OfText text

/-- A scanner goes forward through every text. -/
def Advances (s : Scanner α) (taken : α → Bool) : Prop := ∀ text, Went text taken (s text)

/-- A recogniser takes a piece from the front of a text. -/
def Recognises (recognise : List Char → Option (α × List Char)) : Prop :=
  ∀ text a rest, recognise text = some (a, rest) → ∃ piece, piece ≠ [] ∧ text = piece ++ rest

section Recognised

variable {recognise : List Char → Option (α × List Char)}

theorem Recognises.shorter (h : Recognises recognise) {text rest : List Char} {a : α}
    (hsome : recognise (Lexeme.dropBlanks text) = some (a, rest)) :
    rest <:+ text ∧ rest.length < text.length := by
  obtain ⟨piece, hne, hpiece⟩ := h _ _ _ hsome
  have hblanks := Lexeme.dropBlanks_suffix text
  have hlen := hblanks.length_le
  have hpos := List.length_pos_iff.mpr hne
  rw [hpiece] at hblanks hlen
  rw [List.length_append] at hlen
  exact ⟨(List.suffix_append _ _).trans hblanks, by omega⟩

theorem advances_take? (h : Recognises recognise) : Advances (take? recognise) Option.isSome := by
  intro text
  unfold take?
  cases hrec : recognise (Lexeme.dropBlanks text) with
  | none =>
    simp only [hrec]
    exact ⟨Lexeme.dropBlanks_suffix text, fun htaken => by cases htaken⟩
  | some found =>
    simp only [hrec]
    obtain ⟨hsuffix, hlt⟩ := h.shorter hrec
    exact ⟨hsuffix, fun _ => hlt⟩

theorem advances_isSome_take? (h : Recognises recognise) :
    Advances (Option.isSome <$> take? recognise) id := by
  intro text
  have htake := advances_take? h text
  have hmap : (Option.isSome <$> take? recognise) text =
      EStateM.map Option.isSome (take? recognise) text := rfl
  rw [hmap, EStateM.map]
  cases hx : take? recognise text with
  | ok a rest => rwa [hx] at htake
  | error e rest => rwa [hx] at htake

end Recognised

theorem advances_symbol (c : Char) : Advances (symbol c) id :=
  advances_isSome_take? fun _ _ _ h =>
    ⟨[c], List.cons_ne_nil _ _, Lexeme.symbol?_eq_some h⟩

theorem advances_word {w : String} (hw : Lexeme.IsWord w) : Advances (word w) id :=
  advances_isSome_take? fun _ _ _ h => ⟨w.toList, hw.nonempty, Lexeme.word?_eq_some h⟩

/-- A word that is taken is the longest one at its place. -/
theorem takeWhile_of_identifier {text rest : List Char} {w : String}
    (h : identifier text = .ok (some w) rest) :
    (Lexeme.dropBlanks text).takeWhile Lexeme.isWordChar = w.toList := by
  unfold identifier take? Lexeme.identifier? at h
  simp only at h
  split at h
  · rename_i hfound
    split at hfound
    · cases hfound
    · cases hfound
      cases h
      exact (String.toList_ofList).symm
  · cases h

theorem advances_identifier : Advances identifier Option.isSome :=
  advances_take? fun text w rest h => by
    obtain ⟨htext, hw⟩ := Lexeme.identifier?_eq_some h
    exact ⟨w.toList, hw.nonempty, htext⟩

theorem advances_binaryOperator : Advances binaryOperator Option.isSome :=
  advances_take? fun text op rest h => by
    obtain ⟨hop, htext⟩ := Lexeme.binaryOperator?_eq_some h
    have hne : ∀ op ∈ Operator.binary, op.symbol.toList ≠ [] := by decide
    exact ⟨_, hne op hop, htext⟩

theorem advances_unaryOperator : Advances unaryOperator Option.isSome :=
  advances_take? fun text op rest h => by
    obtain ⟨-, c, htext⟩ := Lexeme.unaryOperator?_eq_some h
    exact ⟨[c], List.cons_ne_nil _ _, htext⟩

theorem advances_number : Advances number Option.isSome := by
  intro text
  have hblanks := Lexeme.dropBlanks_suffix text
  simp only [number]
  cases hn : Literal.numeral? (Lexeme.dropBlanks text) with
  | none => exact ⟨hblanks, fun htaken => by cases htaken⟩
  | some found =>
    obtain ⟨n, rest⟩ := found
    obtain ⟨hwhole, hrest⟩ := Literal.numeral?_pieces hn
    have hlt := Literal.numeral?_length hn
    simp only
    cases n.value? with
    | some v => exact ⟨hrest.trans hblanks, fun _ => Nat.lt_of_lt_of_le hlt hblanks.length_le⟩
    | none =>
      obtain ⟨before, hbefore⟩ := hblanks
      refine ⟨⟨before, hbefore.symm, ?_⟩, fun limit h => by cases h⟩
      show (String.ofList n.whole).toList <+: Lexeme.dropBlanks text
      rwa [String.toList_ofList]

/-- A string literal that begins at `start`, with its opening in front of `inside`. -/
theorem went_endString {text start inside : List Char} (opening : List Char)
    {x : Except Literal.StringError (List Char × List Char)} (hstart : start <:+ text)
    (hopen : start = opening ++ inside) (hopening : opening = ['\''] ∨ opening = ['@', '\''])
    (hok : ∀ s rest, x = .ok (s, rest) → rest <:+ inside)
    (herror : ∀ c rest, x = .error (.badEscape c rest) →
      ∃ before, inside = before ++ '\\' :: c :: rest) :
    Went text Option.isSome (endString start x) := by
  have hinside : inside <:+ text := by
    rw [hopen] at hstart
    exact (List.suffix_append _ _).trans hstart
  match x, hok, herror with
  | .ok (s, rest), hok, _ =>
    have hrest := hok s rest rfl
    have hlen := hstart.length_le
    rw [hopen, List.length_append] at hlen
    have hrestLen := hrest.length_le
    refine ⟨hrest.trans hinside, fun _ => ?_⟩
    rcases hopening with rfl | rfl <;> simp only [List.length_cons] at hlen <;> omega
  | .error .unterminated, _, _ =>
    obtain ⟨before, hbefore⟩ := hstart
    refine ⟨⟨before, hbefore.symm, ?_⟩, fun limit h => by cases h⟩
    rcases hopening with rfl | rfl
    · exact .inl ⟨inside, hopen.symm⟩
    · exact .inr ⟨inside, hopen.symm⟩
  | .error (.badEscape c rest), _, herror =>
    obtain ⟨front, hfront⟩ := herror c rest rfl
    obtain ⟨before, hbefore⟩ := hinside
    refine ⟨⟨before ++ (front ++ ['\\']), ?_, rfl, ?_⟩, fun limit h => by cases h⟩
    · rw [← hbefore, hfront]
      simp
    · simp

theorem advances_string : Advances string Option.isSome := by
  intro text
  have hblanks := Lexeme.dropBlanks_suffix text
  unfold string
  simp only
  split
  · rename_i inside hstart
    rw [hstart] at hblanks ⊢
    exact went_endString ['\''] hblanks rfl (.inl rfl)
      (fun s rest h => Literal.plainString_suffix inside h)
      fun c rest h => Literal.plainString_badEscape inside h
  · rename_i inside hstart
    rw [hstart] at hblanks ⊢
    exact went_endString ['@', '\''] hblanks rfl (.inr rfl)
      (fun s rest h => Literal.rawString_suffix inside h)
      fun c rest h => absurd h (Literal.rawString_badEscape inside)
  · rename_i rest _ hstart
    rw [hstart] at hblanks
    exact .of_plain trivial ((List.suffix_cons _ _).trans hblanks)
  · exact ⟨hblanks, fun htaken => by cases htaken⟩

theorem advances_skipBlanks : Advances skipBlanks fun _ => false :=
  fun text => ⟨Lexeme.dropBlanks_suffix text, fun h => by cases h⟩

theorem advances_atEnd : Advances atEnd fun _ => false :=
  fun text => ⟨Lexeme.dropBlanks_suffix text, fun h => by cases h⟩

end Scanner

end StackScript
