import StackScript.Proofs.Source.Placed
import StackScript.Source.Cursor

/-!
# Cursors go through characters

A cursor adds lengths of characters, words and operators to a byte position and looks at single
bytes, while a scanner drops characters from a list. `Cursor.Follows` says that the two come to the
same: from every boundary of every source the cursor gives what the scanner gives on the characters
from there on, and ends at the boundary where the scanner leaves off. In particular no cursor ever
looks at the inside of a character.

* `charAt_text`, `hasAt_text`, `slice_text`: what is decoded, compared and cut out at a boundary;
  `hasAt_text` rests on that the UTF-8 form of no character is the beginning of another one.
* `follows_skipBlanks`, `follows_word`, `follows_string` and so on: one statement for each lexeme.
  That for numbers needs their grammar and stands with it.
-/

namespace StackScript

open Lexeme

/-! ## Positions and texts -/

/-- A position between two characters of a source, at its start or at its end. -/
def IsBoundary (source : String) (position : Nat) : Prop :=
  ∃ before after, source.toList = before ++ after ∧ position = utf8Length before

/-- The text of a source from a position on. -/
def textFrom (source : String) (position : Nat) : List Char :=
  (splitAtByte position source.toList).2

/-- The position at which a text remains of a source. -/
def positionOf (source : String) (rest : List Char) : Nat :=
  utf8Length source.toList - utf8Length rest

section Positions

variable {source : String} {position : Nat} {rest rest' : List Char}

theorem splitAtByte_append (before after : List Char) :
    splitAtByte (utf8Length before) (before ++ after) = (before, after) := by
  induction before with
  | nil =>
    cases after with
    | nil => rfl
    | cons c after => exact if_neg (Nat.not_le.mpr c.utf8Size_pos)
  | cons c before ih =>
    rw [utf8Length_cons, List.cons_append, splitAtByte, if_pos (Nat.le_add_right _ _),
      Nat.add_sub_cancel_left, ih]

theorem length_le_utf8Length (text : List Char) : text.length ≤ utf8Length text := by
  induction text with
  | nil => exact Nat.le_refl 0
  | cons c rest ih =>
    have hpos := c.utf8Size_pos
    rw [List.length_cons, utf8Length_cons]
    omega

theorem utf8Length_le_of_suffix (h : rest' <:+ rest) : utf8Length rest' ≤ utf8Length rest := by
  obtain ⟨front, rfl⟩ := h
  rw [utf8Length_append]
  exact Nat.le_add_left _ _

theorem positionOf_append {before after : List Char} (h : source.toList = before ++ after) :
    positionOf source after = utf8Length before := by
  rw [positionOf, h, utf8Length_append, Nat.add_sub_cancel]

theorem positionOf_le_of_suffix (h : rest' <:+ rest) :
    positionOf source rest ≤ positionOf source rest' :=
  Nat.sub_le_sub_left (utf8Length_le_of_suffix h) _

/-- Behind a piece of the text the position is as much larger as the piece is long. -/
theorem positionOf_add {piece : List Char} (h : piece ++ rest <:+ source.toList) :
    positionOf source (piece ++ rest) + utf8Length piece = positionOf source rest := by
  obtain ⟨before, hbefore⟩ := h
  rw [positionOf_append hbefore.symm,
    positionOf_append (hbefore.symm.trans (List.append_assoc _ _ _).symm), utf8Length_append]

theorem positionOf_cons {c : Char} (h : c :: rest <:+ source.toList) :
    positionOf source (c :: rest) + c.utf8Size = positionOf source rest := by
  have hadd := positionOf_add (show [c] ++ rest <:+ source.toList from h)
  rwa [utf8Length_cons] at hadd

theorem isBoundary_positionOf (h : rest <:+ source.toList) :
    IsBoundary source (positionOf source rest) := by
  obtain ⟨before, hsource⟩ := h
  exact ⟨before, rest, hsource.symm, positionOf_append hsource.symm⟩

theorem textFrom_positionOf (h : rest <:+ source.toList) :
    textFrom source (positionOf source rest) = rest := by
  obtain ⟨before, hsource⟩ := h
  rw [positionOf_append hsource.symm, textFrom, ← hsource, splitAtByte_append]

/-- At a boundary something remains of the source. -/
theorem IsBoundary.textFrom (h : IsBoundary source position) :
    textFrom source position <:+ source.toList ∧
      position = positionOf source (textFrom source position) := by
  obtain ⟨before, after, hsource, rfl⟩ := h
  have htext : StackScript.textFrom source (utf8Length before) = after := by
    rw [StackScript.textFrom, hsource, splitAtByte_append]
  rw [htext]
  exact ⟨⟨before, hsource.symm⟩, (positionOf_append hsource).symm⟩

theorem IsBoundary.le (h : IsBoundary source position) : position ≤ utf8Length source.toList := by
  obtain ⟨before, after, hsource, rfl⟩ := h
  rw [hsource, utf8Length_append]
  exact Nat.le_add_right _ _

/-- Different texts remain at different positions. -/
theorem positionOf_inj (h : rest <:+ source.toList) (h' : rest' <:+ source.toList)
    (heq : positionOf source rest = positionOf source rest') : rest = rest' := by
  rw [← textFrom_positionOf h, heq, textFrom_positionOf h']

end Positions

namespace Lexeme

/-- What remains of a text behind the end of its first line. -/
def dropLine (text : List Char) : List Char := (text.dropWhile (· ≠ '\n')).tail

theorem dropLine_cons (c : Char) (text : List Char) :
    dropLine (c :: text) = if c = '\n' then text else dropLine text := by
  by_cases hc : c = '\n' <;> simp [dropLine, hc]

theorem dropLine_suffix (text : List Char) : dropLine text <:+ text :=
  (List.tail_suffix _).trans (List.dropWhile_suffix _)

theorem dropComment_eq (text : List Char) : dropComment text = dropBlanks (dropLine text) := by
  induction text with
  | nil => rfl
  | cons c text ih =>
    rw [dropComment, dropLine_cons]
    split
    · rfl
    · exact ih

/-- Blanks and then, if one begins there, a comment are skipped. -/
theorem dropBlanks_eq (text : List Char) :
    dropBlanks text =
      if ['/', '/'].isPrefixOf (text.dropWhile isBlank) then
        dropBlanks (dropLine (text.dropWhile isBlank))
      else text.dropWhile isBlank := by
  induction text with
  | nil => rfl
  | cons c text ih =>
    rw [dropBlanks, List.dropWhile_cons]
    split
    · exact ih
    · by_cases hc : c = '/' ∧ text.head? = some '/'
      · obtain ⟨rfl, hhead⟩ := hc
        obtain ⟨rest, rfl⟩ := List.head?_eq_some_iff.mp hhead
        have hslashes : ['/', '/'].isPrefixOf ('/' :: '/' :: rest) := rfl
        rw [if_pos ⟨rfl, rfl⟩, if_pos hslashes, dropComment_eq, dropLine_cons '/' ('/' :: rest),
          if_neg (by decide)]
      · rw [if_neg hc, if_neg]
        intro hslashes
        obtain ⟨rest, hrest⟩ := List.isPrefixOf_iff_prefix.mp hslashes
        cases hrest
        exact hc ⟨rfl, rfl⟩

end Lexeme

namespace Cursor

variable {α : Type} {source : String} {text before after : List Char} {position : Nat}

theorem ite_apply_pos {c : Prop} [Decidable c] {x y : Cursor α} (h : c) :
    (if c then x else y) source position = x source position := by rw [if_pos h]

theorem ite_apply_neg {c : Prop} [Decidable c] {x y : Cursor α} (h : ¬ c) :
    (if c then x else y) source position = y source position := by rw [if_neg h]

/-! ## Characters -/

/-- In front of a text the position is another one than behind its first characters. -/
theorem raw_ne_add (i : Nat) (c : Char) (text : List Char) :
    (⟨i⟩ : String.Pos.Raw) ≠ ⟨i + utf8Length (c :: text)⟩ := by
  intro h
  have hi : i = i + utf8Length (c :: text) := congrArg String.Pos.Raw.byteIdx h
  have hpos := c.utf8Size_pos
  rw [utf8Length_cons] at hi
  omega

theorem utf8GetAux?_append (before after : List Char) (i : Nat) :
    String.Pos.Raw.utf8GetAux? (before ++ after) ⟨i⟩ ⟨i + utf8Length before⟩ = after.head? := by
  induction before generalizing i with
  | nil =>
    cases after with
    | nil => rfl
    | cons c after => exact if_pos rfl
  | cons c before ih =>
    have hstep := ih (i + c.utf8Size)
    rw [Nat.add_assoc, ← utf8Length_cons] at hstep
    exact (if_neg (raw_ne_add i c before)).trans hstep

theorem get?_append (h : source.toList = before ++ after) :
    String.Pos.Raw.get? source ⟨utf8Length before⟩ = after.head? := by
  have hget := utf8GetAux?_append before after 0
  rw [Nat.zero_add, ← h] at hget
  exact hget

/-- At a boundary the next character is decoded. -/
theorem charAt_text (h : text <:+ source.toList) :
    charAt (positionOf source text) source position = .ok text.head? position := by
  obtain ⟨before, hbefore⟩ := h
  rw [positionOf_append hbefore.symm, charAt, get?_append hbefore.symm]
  cases text with
  | cons c text => rfl
  | nil =>
    have hend : utf8Length before = source.utf8ByteSize := by
      rw [← utf8Length_toList, ← hbefore, List.append_nil]
    exact if_pos hend

theorem current_text (h : text <:+ source.toList) :
    current source (positionOf source text) = .ok text.head? (positionOf source text) :=
  charAt_text h

theorem advance_text (h : text <:+ source.toList) :
    advance source (positionOf source text) = .ok text.head? (positionOf source text.tail) := by
  rw [advance, bind_ok (current_text h)]
  cases text with
  | nil => rfl
  | cons c text =>
    rw [List.tail_cons, ← positionOf_cons h]
    rfl

/-! ## Slices -/

theorem extract_go₂_append (piece after : List Char) (i : Nat) :
    String.Pos.Raw.extract.go₂ (piece ++ after) ⟨i⟩ ⟨i + utf8Length piece⟩ = piece := by
  induction piece generalizing i with
  | nil =>
    cases after with
    | nil => rfl
    | cons c after => exact if_pos rfl
  | cons c piece ih =>
    have hstep := ih (i + c.utf8Size)
    rw [Nat.add_assoc, ← utf8Length_cons] at hstep
    exact (if_neg (raw_ne_add i c piece)).trans (congrArg (c :: ·) hstep)

theorem extract_go₁_append (before after : List Char) (i : Nat) (stop : String.Pos.Raw) :
    String.Pos.Raw.extract.go₁ (before ++ after) ⟨i⟩ ⟨i + utf8Length before⟩ stop =
      String.Pos.Raw.extract.go₂ after ⟨i + utf8Length before⟩ stop := by
  induction before generalizing i with
  | nil =>
    cases after with
    | nil => rfl
    | cons c after => exact if_pos rfl
  | cons c before ih =>
    have hstep := ih (i + c.utf8Size)
    rw [Nat.add_assoc, ← utf8Length_cons] at hstep
    exact (if_neg (raw_ne_add i c before)).trans hstep

theorem extract_append {piece : List Char} (h : source.toList = before ++ (piece ++ after)) :
    String.Pos.Raw.extract source ⟨utf8Length before⟩ ⟨utf8Length before + utf8Length piece⟩ =
      String.ofList piece := by
  have hcut := extract_go₁_append before (piece ++ after) 0 ⟨utf8Length before + utf8Length piece⟩
  rw [Nat.zero_add, ← h, extract_go₂_append] at hcut
  change (if utf8Length before ≥ utf8Length before + utf8Length piece then "" else
    String.ofList (String.Pos.Raw.extract.go₁ source.toList 0 _ _)) = _
  split
  · rename_i hle
    have hempty : piece = [] := by
      cases piece with
      | nil => rfl
      | cons c piece =>
        have hpos := c.utf8Size_pos
        rw [utf8Length_cons] at hle
        omega
    subst hempty
    rfl
  · exact congrArg String.ofList hcut

/-- Between two boundaries the characters between them are cut out. -/
theorem slice_text {piece rest : List Char} (h : piece ++ rest <:+ source.toList) :
    slice (positionOf source (piece ++ rest)) (positionOf source rest) source position =
      .ok (String.ofList piece) position := by
  have hrest : rest <:+ source.toList := (List.suffix_append _ _).trans h
  have hle : ¬ positionOf source rest < positionOf source (piece ++ rest) :=
    Nat.not_lt.mpr (positionOf_le_of_suffix (List.suffix_append _ _))
  rw [slice, bind_ok (charAt_text h), bind_ok (charAt_text hrest), if_neg hle]
  obtain ⟨before, hbefore⟩ := h
  have hcut := extract_append hbefore.symm
  rw [← positionOf_append hbefore.symm, positionOf_add ⟨before, hbefore⟩] at hcut
  exact congrArg (EStateM.Result.ok · position) hcut

/-! ## Bytes -/

theorem length_flatMap_utf8EncodeChar (text : List Char) :
    (text.flatMap String.utf8EncodeChar).length = utf8Length text := by
  rw [← size_utf8Encode, List.utf8Encode, List.size_toByteArray]

/-- Byte by byte a source is the forms of its characters. -/
theorem byteAt?_eq (source : String) (index : Nat) :
    byteAt? source index = (source.toList.flatMap String.utf8EncodeChar)[index]? := by
  have hbytes : source.toByteArray.data.toList = source.toList.flatMap String.utf8EncodeChar := by
    rw [← String.utf8Encode_toList, List.utf8Encode, List.toList_data_toByteArray]
  rw [← hbytes]
  unfold byteAt?
  split
  · rename_i h
    have hlt : index < source.toByteArray.data.toList.length := h
    rw [List.getElem?_eq_getElem hlt]
    rfl
  · rename_i h
    have hle : source.toByteArray.data.toList.length ≤ index := Nat.le_of_not_lt h
    rw [List.getElem?_eq_none hle]

theorem byteAt?_text (h : text <:+ source.toList) (k : Nat) :
    byteAt? source (positionOf source text + k) = (text.flatMap String.utf8EncodeChar)[k]? := by
  obtain ⟨before, hbefore⟩ := h
  rw [byteAt?_eq, positionOf_append hbefore.symm, ← hbefore, List.flatMap_append,
    ← length_flatMap_utf8EncodeChar, List.getElem?_append_right (Nat.le_add_right _ _),
    Nat.add_sub_cancel_left]

/-- **The bytes of a word stand at a boundary just if the word does.** -/
theorem hasAt_text (h : text <:+ source.toList) (w : String) :
    hasAt source (positionOf source text) w = w.toList.isPrefixOf text := by
  rw [Bool.eq_iff_iff, List.isPrefixOf_iff_prefix]
  unfold hasAt
  simp only [List.all_eq_true, List.mem_range, beq_iff_eq, byteAt?_text h, byteAt?_eq w]
  have hlen : w.utf8ByteSize = (w.toList.flatMap String.utf8EncodeChar).length := by
    rw [length_flatMap_utf8EncodeChar, utf8Length_toList]
  constructor
  · intro hall
    have hbytes : w.toList.flatMap String.utf8EncodeChar <+:
        text.flatMap String.utf8EncodeChar := by
      refine List.prefix_iff_getElem?.mpr fun k hk => ?_
      rw [hall k (hlen ▸ hk), List.getElem?_eq_getElem hk]
    -- no form of a character is the beginning of another one
    obtain ⟨more, hmore⟩ := hbytes
    refine List.isPrefix_of_utf8Encode_append_eq_utf8Encode more.toByteArray ?_
    rw [List.utf8Encode, List.utf8Encode, ← hmore, List.toByteArray_append]
  · rintro ⟨rest, rfl⟩ k hk
    rw [List.flatMap_append, List.getElem?_append_left (hlen ▸ hk)]

theorem startsWith_text (h : text <:+ source.toList) (w : String) :
    startsWith w source (positionOf source text) =
      .ok (w.toList.isPrefixOf text) (positionOf source text) := by
  rw [startsWith, bind_ok (current_text h), ← hasAt_text h]
  rfl

/-! ## Blanks -/

section Loops

variable {p : Char → Bool} {c : Char} {next : Nat}

theorem advanceWhile_some (h : advance source position = .ok (some c) next) :
    advanceWhile p source position =
      if p c then advanceWhile p source next else .ok () position := by
  rw [advanceWhile]
  split
  all_goals rename_i hadvance; cases hadvance.symm.trans h
  rfl

theorem advanceWhile_none (h : advance source position = .ok none next) :
    advanceWhile p source position = .ok () next := by
  rw [advanceWhile]
  split
  all_goals rename_i hadvance; cases hadvance.symm.trans h
  rfl

theorem advanceLine_some (h : advance source position = .ok (some c) next) :
    advanceLine source position =
      if c = '\n' then .ok () next else advanceLine source next := by
  rw [advanceLine]
  split
  all_goals rename_i hadvance; cases hadvance.symm.trans h
  rfl

theorem advanceLine_none (h : advance source position = .ok none next) :
    advanceLine source position = .ok () next := by
  rw [advanceLine]
  split
  all_goals rename_i hadvance; cases hadvance.symm.trans h
  rfl

theorem advanceWhile_text (p : Char → Bool) (h : text <:+ source.toList) :
    advanceWhile p source (positionOf source text) =
      .ok () (positionOf source (text.dropWhile p)) := by
  induction text with
  | nil => exact advanceWhile_none (advance_text h)
  | cons c text ih =>
    rw [advanceWhile_some (advance_text h), List.dropWhile_cons]
    split
    · exact ih ((List.suffix_cons c text).trans h)
    · rfl

theorem advanceLine_text (h : text <:+ source.toList) :
    advanceLine source (positionOf source text) = .ok () (positionOf source (dropLine text)) := by
  induction text with
  | nil => exact advanceLine_none (advance_text h)
  | cons c text ih =>
    rw [advanceLine_some (advance_text h), dropLine_cons]
    split
    · rfl
    · exact ih ((List.suffix_cons c text).trans h)

end Loops

theorem comment_text (h : text <:+ source.toList) :
    comment source (positionOf source text) =
      if ['/', '/'].isPrefixOf text then .ok true (positionOf source (dropLine text))
      else .ok false (positionOf source text) := by
  have hstarts : startsWith "//" source (positionOf source text) =
      .ok (['/', '/'].isPrefixOf text) (positionOf source text) := startsWith_text h "//"
  rw [comment, bind_ok hstarts]
  cases hslashes : ['/', '/'].isPrefixOf text with
  | false => rfl
  | true =>
    obtain ⟨rest, rfl⟩ := List.isPrefixOf_iff_prefix.mp hslashes
    have hrest : '/' :: rest <:+ source.toList := (List.suffix_cons _ _).trans h
    exact (bind_ok (advance_text h)).trans (bind_ok (advanceLine_text hrest))

theorem skipBlanks_eq (source : String) (position : Nat) {start : Nat}
    (h : advanceWhile isBlank source position = .ok () start) {more : Bool} {next : Nat}
    (hcomment : comment source start = .ok more next) :
    skipBlanks source position = if more then skipBlanks source next else .ok () next := by
  rw [skipBlanks]
  split
  · rename_i hwhile
    cases hwhile.symm.trans h
  · rename_i hwhile
    cases hwhile.symm.trans h
    split
    all_goals rename_i hc; cases hc.symm.trans hcomment
    · rfl
    · rfl

theorem skipBlanks_text (text : List Char) (h : text <:+ source.toList) :
    skipBlanks source (positionOf source text) = .ok () (positionOf source (dropBlanks text)) := by
  have hgap : text.dropWhile isBlank <:+ source.toList := (List.dropWhile_suffix _).trans h
  have hcomment := comment_text hgap
  rw [dropBlanks_eq]
  split at hcomment
  · rename_i hslashes
    have hshorter : (dropLine (text.dropWhile isBlank)).length < text.length := by
      obtain ⟨rest, hrest⟩ := List.isPrefixOf_iff_prefix.mp hslashes
      have hline := (dropLine_suffix ('/' :: rest)).length_le
      have hle := (List.dropWhile_suffix isBlank (l := text)).length_le
      rw [← hrest] at hle ⊢
      rw [List.cons_append, dropLine_cons, if_neg (by decide)]
      exact Nat.lt_of_lt_of_le (Nat.lt_succ_of_le hline) hle
    rw [skipBlanks_eq _ _ (advanceWhile_text isBlank h) hcomment, if_pos rfl, if_pos hslashes]
    exact skipBlanks_text _ ((dropLine_suffix _).trans hgap)
  · rename_i hslashes
    rw [skipBlanks_eq _ _ (advanceWhile_text isBlank h) hcomment, if_neg hslashes]
    rfl
termination_by text.length

/-! ## Cursors and scanners -/

/-- The outcome of a scanner by positions in a source. -/
def located (source : String) :
    EStateM.Result Refusal (List Char) α → EStateM.Result Rejection Nat α
  | .ok a rest => .ok a (positionOf source rest)
  | .error e rest => .error ⟨e.complaint, positionOf source e.rest⟩ (positionOf source rest)

/-- At every boundary a cursor does what a scanner does on the characters from there on. -/
def Follows (x : Cursor α) (s : Scanner α) : Prop :=
  ∀ (source : String) (text : List Char), text <:+ source.toList →
    x source (positionOf source text) = located source (s text)

theorem Follows.map {β : Type} {x : Cursor α} {s : Scanner α} (h : Follows x s) (f : α → β) :
    Follows (f <$> x) (f <$> s) := by
  intro source text htext
  change EStateM.map f (x source) _ = located source (EStateM.map f s text)
  rw [EStateM.map, EStateM.map, h source text htext]
  cases s text <;> rfl

theorem follows_skipBlanks : Follows skipBlanks Scanner.skipBlanks := fun _ text h =>
  skipBlanks_text text h

/-- A scanner that skips blanks and one for what is behind them. -/
theorem Follows.behind_blanks {x : Cursor α} {s t : Scanner α}
    (hs : ∀ text, s text = t (dropBlanks text)) (hx : Follows x t) :
    Follows (do skipBlanks; x) s := by
  intro source text h
  rw [bind_ok (skipBlanks_text text h), hs]
  exact hx source _ ((dropBlanks_suffix text).trans h)

theorem positionOf_eq_size_iff (h : text <:+ source.toList) :
    positionOf source text = source.utf8ByteSize ↔ text = [] := by
  rw [← utf8Length_toList]
  have hend : positionOf source [] = utf8Length source.toList := Nat.sub_zero _
  rw [← hend]
  exact ⟨positionOf_inj h List.nil_suffix, fun hnil => hnil ▸ rfl⟩

theorem follows_atEnd : Follows atEnd Scanner.atEnd := by
  refine Follows.behind_blanks (t := fun text => .ok text.isEmpty text) (fun _ => rfl) ?_
  intro source text h
  have hflag : decide (positionOf source text = source.utf8ByteSize) = text.isEmpty := by
    rw [Bool.eq_iff_iff, decide_eq_true_iff, positionOf_eq_size_iff h, List.isEmpty_iff]
  exact congrArg (EStateM.Result.ok · _) hflag

/-- A scanner for what a recogniser finds at the front of a text. -/
def recognised {β : Type} (recognise : List Char → Option (α × List Char)) (f : Option α → β) :
    Scanner β := fun text =>
  match recognise text with
  | some (a, rest) => .ok (f (some a)) rest
  | none => .ok (f none) text

theorem take?_eq (recognise : List Char → Option (α × List Char)) (text : List Char) :
    Scanner.take? recognise text = recognised recognise id (dropBlanks text) := rfl

theorem isSome_take?_eq (recognise : List Char → Option (α × List Char)) (text : List Char) :
    (Option.isSome <$> Scanner.take? recognise) text =
      recognised recognise Option.isSome (dropBlanks text) := by
  change EStateM.map Option.isSome (Scanner.take? recognise) text = _
  simp only [EStateM.map, Scanner.take?, recognised]
  cases recognise (dropBlanks text) <;> rfl

theorem follows_symbol (c : Char) : Follows (symbol c) (Scanner.symbol c) := by
  refine .behind_blanks (isSome_take?_eq _) fun source text h => ?_
  rw [bind_ok (current_text h)]
  cases text with
  | nil => rfl
  | cons d text =>
    by_cases hd : d = c
    · subst hd
      rw [recognised, symbol?, if_pos rfl]
      exact (ite_apply_pos rfl).trans (bind_ok (advance_text h))
    · rw [recognised, symbol?, if_neg hd]
      exact ite_apply_neg (mt Option.some.inj hd)

theorem isPrefixOf?_eq_none {front : List Char} (h : front.isPrefixOf text = false) :
    front.isPrefixOf? text = none := by
  refine Option.eq_none_iff_forall_ne_some.mpr fun rest hrest => ?_
  have hprefix : front <+: text := ⟨rest, List.isPrefixOf?_eq_some_iff_append_eq.mp hrest⟩
  rw [List.isPrefixOf_iff_prefix.mpr hprefix] at h
  cases h

theorem follows_word (w : String) : Follows (word w) (Scanner.word w) := by
  refine .behind_blanks (isSome_take?_eq _) fun source text h => ?_
  rw [bind_ok (startsWith_text h w), recognised, word?]
  cases hfront : w.toList.isPrefixOf text with
  | false =>
    rw [isPrefixOf?_eq_none hfront]
    rfl
  | true =>
    obtain ⟨rest, rfl⟩ := List.isPrefixOf_iff_prefix.mp hfront
    have hrest : rest <:+ source.toList := (List.suffix_append _ _).trans h
    have hstop : positionOf source (w.toList ++ rest) + w.utf8ByteSize =
        positionOf source rest := by
      rw [← utf8Length_toList, positionOf_add h]
    have hchar : charAt (positionOf source (w.toList ++ rest) + w.utf8ByteSize) source
        (positionOf source (w.toList ++ rest)) =
          .ok rest.head? (positionOf source (w.toList ++ rest)) := by
      rw [hstop]
      exact charAt_text hrest
    rw [List.isPrefixOf?_eq_some_iff_append_eq.mpr rfl]
    refine (bind_ok hchar).trans ?_
    cases hends : rest.head?.any isWordChar with
    | true =>
      simp only [hends, if_true]
      rfl
    | false =>
      simp only [hends, Bool.false_eq_true, if_false]
      exact congrArg (EStateM.Result.ok true) hstop

theorem follows_identifier : Follows identifier Scanner.identifier := by
  refine .behind_blanks (take?_eq _) fun source text h => ?_
  refine (bind_ok (advanceWhile_text isWordChar h)).trans ?_
  rw [recognised, identifier?]
  have hsplit := List.takeWhile_append_dropWhile (p := isWordChar) (l := text)
  generalize text.takeWhile isWordChar = piece at *
  generalize text.dropWhile isWordChar = rest at *
  subst hsplit
  cases piece with
  | nil => exact ite_apply_pos rfl
  | cons c piece =>
    have hne : positionOf source rest ≠ positionOf source (c :: piece ++ rest) := by
      rw [List.cons_append] at h ⊢
      have hlt := positionOf_cons h
      have hle : positionOf source (piece ++ rest) ≤ positionOf source rest :=
        positionOf_le_of_suffix (List.suffix_append piece rest)
      have hpos := c.utf8Size_pos
      omega
    exact (ite_apply_neg hne).trans (bind_ok (slice_text h))

theorem follows_binaryOperator : Follows binaryOperator Scanner.binaryOperator := by
  refine .behind_blanks (take?_eq _) fun source text h => ?_
  refine (bind_ok (current_text h)).trans ((bind_read _ _ _).trans ((bind_get _ _ _).trans ?_))
  simp only [hasAt_text h]
  rw [recognised]
  cases hfind : Operator.binary.find? (·.symbol.toList.isPrefixOf text) with
  | none =>
    have hnone : binaryOperator? text = none := by
      refine List.findSome?_eq_none_iff.mpr fun op hop => ?_
      have hnot := List.find?_eq_none.mp hfind op hop
      rw [isPrefixOf?_eq_none (Bool.eq_false_iff.mpr hnot)]
      rfl
    rw [hnone]
    rfl
  | some op =>
    obtain ⟨hfront, before, after, hall, hbefore⟩ := List.find?_eq_some_iff_append.mp hfind
    obtain ⟨rest, rfl⟩ := List.isPrefixOf_iff_prefix.mp hfront
    have hsome : binaryOperator? (op.symbol.toList ++ rest) = some (op, rest) := by
      refine List.findSome?_eq_some_iff.mpr ⟨before, op, after, hall, ?_, fun q hq => ?_⟩
      · rw [List.isPrefixOf?_eq_some_iff_append_eq.mpr rfl]
        rfl
      · have hnot := hbefore q hq
        rw [isPrefixOf?_eq_none (by simpa using hnot)]
        rfl
    rw [hsome]
    refine congrArg (EStateM.Result.ok (some op)) ?_
    rw [← utf8Length_toList, positionOf_add h]

theorem follows_unaryOperator : Follows unaryOperator Scanner.unaryOperator := by
  refine .behind_blanks (take?_eq _) fun source text h => ?_
  refine (bind_ok (current_text h)).trans ?_
  cases text with
  | nil => rfl
  | cons c text =>
    rw [recognised, unaryOperator?]
    simp only [List.head?_cons, Option.bind_some]
    cases Operator.ofSign? c with
    | none => rfl
    | some op => exact bind_ok (advance_text h)

/-! ## Strings -/

section Strings

open Literal

variable {raw : Bool} {start : Nat} {done : String} {c d : Char} {next : Nat}

theorem stringRest_none (h : advance source position = .ok none next) :
    stringRest raw start done source position = .error ⟨.unterminatedString, start⟩ next := by
  rw [stringRest]
  split
  all_goals rename_i hadvance; cases hadvance.symm.trans h
  rfl

theorem stringRest_some (h : advance source position = .ok (some c) next) :
    stringRest raw start done source position =
      if c = '\'' then .ok (some done) next
      else if c = '\\' ∧ !raw then
        match advance source next with
        | .error e position => .error e position
        | .ok none position => .error ⟨.unterminatedString, start⟩ position
        | .ok (some d) behind =>
          match escape? d with
          | none => .error ⟨.invalidEscape d, next⟩ behind
          | some e => stringRest raw start (done.push e) source behind
      else stringRest raw start (done.push c) source next := by
  rw [stringRest]
  split
  all_goals rename_i hadvance; cases hadvance.symm.trans h
  split
  · rfl
  · split
    · split
      · rename_i hescaped
        simp only [hescaped]
      · rename_i hescaped
        simp only [hescaped]
      · rename_i d behind hescaped
        cases hd : escape? d <;> simp only [hescaped, hd]
    · rfl

/-- The outcome of the rest of a string, when some of it is done. -/
def endRest (source : String) (start : Nat) (done : String) :
    Except StringError (List Char × List Char) → EStateM.Result Rejection Nat (Option String)
  | .ok (s, rest) => .ok (some (done ++ String.ofList s)) (positionOf source rest)
  | .error .unterminated => .error ⟨.unterminatedString, start⟩ (positionOf source [])
  | .error (.badEscape c rest) =>
    .error ⟨.invalidEscape c, positionOf source (c :: rest)⟩ (positionOf source rest)

theorem endRest_addChar (x : Except StringError (List Char × List Char)) (c : Char) :
    endRest source start done (x.map (addChar c)) = endRest source start (done.push c) x := by
  rcases x with (_ | ⟨d, rest⟩) | ⟨s, rest⟩
  · rfl
  · rfl
  · simp [endRest, Except.map, addChar, ← String.toList_inj]

theorem stringRest_raw (h : text <:+ source.toList) :
    stringRest true start done source (positionOf source text) =
      endRest source start done (rawString text) := by
  induction text generalizing done with
  | nil => exact stringRest_none (advance_text h)
  | cons c text ih =>
    rw [stringRest_some (advance_text h), rawString]
    split
    · exact congrArg (EStateM.Result.ok · _) (congrArg some String.append_empty.symm)
    · rw [if_neg (by simp), endRest_addChar]
      exact ih ((List.suffix_cons c text).trans h)

theorem stringRest_plain (text : List Char) (done : String) (h : text <:+ source.toList) :
    stringRest false start done source (positionOf source text) =
      endRest source start done (plainString text) := by
  fun_induction plainString text generalizing done with
  | case1 => exact stringRest_none (advance_text h)
  | case2 rest =>
    rw [stringRest_some (advance_text h)]
    exact congrArg (EStateM.Result.ok · _) (congrArg some String.append_empty.symm)
  | case3 hquote =>
    rw [stringRest_some (advance_text h), if_neg hquote, if_pos ⟨rfl, rfl⟩]
    simp only [List.tail_cons, advance_text List.nil_suffix]
    rfl
  | case4 d rest hescape hquote =>
    have hrest := (List.suffix_cons _ _).trans h
    rw [stringRest_some (advance_text h), if_neg hquote, if_pos ⟨rfl, rfl⟩]
    simp only [List.tail_cons, advance_text hrest, List.head?_cons, hescape]
    rfl
  | case5 d rest e hescape hquote ih =>
    have hrest := (List.suffix_cons _ _).trans h
    rw [stringRest_some (advance_text h), if_neg hquote, if_pos ⟨rfl, rfl⟩, endRest_addChar]
    simp only [List.tail_cons, advance_text hrest, List.head?_cons, hescape]
    exact ih _ ((List.suffix_cons _ _).trans hrest)
  | case6 c rest hquote hescape ih =>
    rw [stringRest_some (advance_text h), if_neg hquote, if_neg (mt And.left hescape),
      endRest_addChar]
    exact ih _ ((List.suffix_cons _ _).trans h)

theorem endRest_eq (x : Except StringError (List Char × List Char)) (text : List Char) :
    endRest source (positionOf source text) "" x = located source (Scanner.endString text x) := by
  rcases x with (_ | ⟨d, rest⟩) | ⟨s, rest⟩
  · rfl
  · rfl
  · exact congrArg (EStateM.Result.ok · _) (congrArg some String.empty_append)

end Strings

theorem follows_string : Follows string Scanner.string := by
  intro source text h
  have hstart := (dropBlanks_suffix text).trans h
  generalize hcursor : string source (positionOf source text) = outcome
  rw [string, bind_ok (skipBlanks_text text h)] at hcursor
  rw [Scanner.string]
  generalize dropBlanks text = start at hstart hcursor
  split
  all_goals refine hcursor.symm.trans ((bind_ok (current_text hstart)).trans ?_)
  · rename_i rest
    have hrest : rest <:+ source.toList := (List.suffix_cons _ rest).trans hstart
    refine (ite_apply_neg (by simp)).trans ((ite_apply_pos rfl).trans ?_)
    refine (bind_ok (advance_text hstart)).trans ?_
    exact (stringRest_plain rest "" hrest).trans (endRest_eq _ _)
  · rename_i rest
    have hquote : '\'' :: rest <:+ source.toList := (List.suffix_cons _ _).trans hstart
    have hrest : rest <:+ source.toList := (List.suffix_cons _ rest).trans hquote
    refine (ite_apply_pos rfl).trans ?_
    refine (bind_ok (advance_text hstart)).trans ((bind_ok (current_text hquote)).trans ?_)
    refine (ite_apply_neg (by simp)).trans ((bind_ok (advance_text hquote)).trans ?_)
    exact (stringRest_raw hrest).trans (endRest_eq _ _)
  · rename_i rest hquote
    have hrest : rest <:+ source.toList := (List.suffix_cons _ rest).trans hstart
    have hother : rest.head? ≠ some '\'' := fun hhead => by
      obtain ⟨tail, rfl⟩ := List.head?_eq_some_iff.mp hhead
      exact hquote tail rfl
    refine (ite_apply_pos rfl).trans ?_
    refine (bind_ok (advance_text hstart)).trans ((bind_ok (current_text hrest)).trans ?_)
    exact ite_apply_pos hother
  · rename_i hquote _ hat
    have hno : ∀ c, start.head? = some c → c ≠ '@' ∧ c ≠ '\'' := fun c hhead => by
      obtain ⟨tail, rfl⟩ := List.head?_eq_some_iff.mp hhead
      exact ⟨fun hc => hat tail (hc ▸ rfl), fun hc => hquote tail (hc ▸ rfl)⟩
    refine (ite_apply_neg fun hhead => (hno _ hhead).1 rfl).trans ?_
    exact ite_apply_neg fun hhead => (hno _ hhead).2 rfl

end Cursor
end StackScript
