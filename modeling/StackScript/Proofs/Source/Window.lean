import Mathlib.Data.Nat.Find
import Mathlib.Order.Bounds.Basic
import StackScript.Proofs.Source.Positions

/-!
# The window around a position

The context of a position shows the text on both sides of a boundary: the last one before the
position, as it is found by stepping back one byte at a time (`boundaryBefore`). The search ends
after three steps at most, since no character takes more than four bytes. Cutting the text from its
front gives the same boundary (`utf8Length_splitAtByte`), because the first character behind the cut
reaches beyond the position.

* **`Context.shows_around`**: for any position, in the text or not, the context shows thirty
  characters on either side of that boundary, or as many as there are.
-/

namespace StackScript

/-! ## Boundaries -/

theorem utf8ByteSize_ofList (text : List Char) :
    (String.ofList text).utf8ByteSize = utf8Length text := by
  induction text with
  | nil => rfl
  | cons c text ih =>
    rw [← List.singleton_append, String.ofList_append, String.utf8ByteSize_append,
      ← String.singleton_eq_ofList, String.utf8ByteSize_singleton, ih, List.singleton_append,
      utf8Length_cons]

/-- A boundary is where the bytes before it form a text of their own. -/
theorem isBoundary_iff_isValid {source : String} {b : Nat} :
    IsBoundary source b ↔ (⟨b⟩ : String.Pos.Raw).IsValid source := by
  rw [String.Pos.Raw.isValid_iff_exists_append]
  constructor
  · rintro ⟨before, after, hsource, rfl⟩
    refine ⟨.ofList before, .ofList after, ?_, ?_⟩
    · rw [← String.ofList_append, ← hsource, String.ofList_toList]
    · rw [String.rawEndPos, utf8ByteSize_ofList]
  · rintro ⟨before, after, rfl, hb⟩
    refine ⟨before.toList, after.toList, String.toList_append, ?_⟩
    rw [← utf8ByteSize_ofList, String.ofList_toList]
    exact congrArg String.Pos.Raw.byteIdx hb

instance (source : String) : DecidablePred (IsBoundary source) := fun _ =>
  decidable_of_iff _ isBoundary_iff_isValid.symm

/-- The boundary that is found by going back from a position, or from the end of the text if that
comes before it. -/
def boundaryBefore (source : String) (position : Nat) : Nat :=
  Nat.findGreatest (IsBoundary source) (min position (utf8Length source.toList))

/-! ## The cut -/

section Cut

variable {source : String} {position : Nat} {text : List Char}

/-- The cut keeps the text, does not lie behind the position, and the first character behind it
reaches beyond the position. -/
theorem splitAtByte_spec (position : Nat) (text : List Char) :
    (splitAtByte position text).1 ++ (splitAtByte position text).2 = text ∧
      utf8Length (splitAtByte position text).1 ≤ position ∧
        ∀ c ∈ (splitAtByte position text).2.head?,
          position < utf8Length (splitAtByte position text).1 + c.utf8Size := by
  induction text generalizing position with
  | nil => exact ⟨rfl, Nat.zero_le _, nofun⟩
  | cons c text ih =>
    unfold splitAtByte
    split
    · rename_i hfits
      obtain ⟨hkeeps, hle, hbeyond⟩ := ih (position - c.utf8Size)
      refine ⟨congrArg (c :: ·) hkeeps, ?_, fun d hd => ?_⟩
      · rw [utf8Length_cons]
        omega
      · have := hbeyond d hd
        rw [utf8Length_cons]
        omega
    · rename_i hlong
      refine ⟨rfl, Nat.zero_le _, ?_⟩
      rintro d ⟨⟩
      have hnone : utf8Length [] = 0 := rfl
      omega

/-- A boundary that does not lie behind the position does not lie behind the cut. -/
theorem le_cut_of_isBoundary {b : Nat} (h : IsBoundary source b) (hb : b ≤ position) :
    b ≤ utf8Length (splitAtByte position source.toList).1 := by
  obtain ⟨before, after, hsource, rfl⟩ := h
  obtain ⟨hkeeps, -, hbeyond⟩ := splitAtByte_spec position source.toList
  generalize splitAtByte position source.toList = cut at hkeeps hbeyond ⊢
  rcases List.append_eq_append_iff.mp (hkeeps.trans hsource) with ⟨more, rfl, hmore⟩ | ⟨more, hmore, -⟩
  · cases more with
    | nil => rw [List.append_nil]
    | cons c more =>
      -- the cut would stand before `c`, and `c` ends at the boundary at the latest
      have hlt := hbeyond c (by rw [hmore]; rfl)
      rw [utf8Length_append, utf8Length_cons] at hb
      omega
  · rw [hmore, utf8Length_append]
    exact Nat.le_add_right _ _

/-- **The cut is at the boundary that is found by going back.** -/
theorem utf8Length_splitAtByte (source : String) (position : Nat) :
    utf8Length (splitAtByte position source.toList).1 = boundaryBefore source position := by
  obtain ⟨hkeeps, hle, -⟩ := splitAtByte_spec position source.toList
  have hboundary : IsBoundary source (utf8Length (splitAtByte position source.toList).1) :=
    ⟨_, _, hkeeps.symm, rfl⟩
  refine (Nat.findGreatest_eq_iff.mpr ⟨Nat.le_min.mpr ⟨hle, hboundary.le⟩, fun _ => hboundary,
    fun b hlt hb hisBoundary => ?_⟩).symm
  exact Nat.not_le.mpr hlt (le_cut_of_isBoundary hisBoundary (Nat.le_trans hb (Nat.min_le_left _ _)))

/-- The search ends at a boundary, the last one that it may end at. -/
theorem isGreatest_boundaryBefore (source : String) (position : Nat) :
    IsGreatest {b | IsBoundary source b ∧ b ≤ min position (utf8Length source.toList)}
      (boundaryBefore source position) := by
  have hzero : IsBoundary source 0 := ⟨[], source.toList, rfl, rfl⟩
  refine ⟨⟨Nat.findGreatest_spec (Nat.zero_le _) hzero, Nat.findGreatest_le _⟩, ?_⟩
  rintro b ⟨hb, hle⟩
  exact Nat.le_findGreatest hle hb

/-- It ends after three steps at most. -/
theorem le_boundaryBefore_add (source : String) (position : Nat) :
    min position (utf8Length source.toList) ≤ boundaryBefore source position + 3 := by
  obtain ⟨hkeeps, -, hbeyond⟩ := splitAtByte_spec position source.toList
  rw [← utf8Length_splitAtByte]
  cases hback : (splitAtByte position source.toList).2 with
  | nil =>
    rw [hback, List.append_nil] at hkeeps
    rw [hkeeps]
    omega
  | cons c back =>
    have hlt := hbeyond c (by rw [hback]; rfl)
    have := c.utf8Size_le_four
    omega

end Cut

/-! ## The context -/

/-- A context shows a source around a boundary: of the text before it the last thirty characters and
of the text behind it the first thirty, or as many as there are. -/
structure Context.Shows (source : String) (b : Nat) (c : Context) : Prop where
  sides : ∃ front back, source = front ++ back ∧ utf8Length front.toList = b ∧
    (c.before.toList <:+ front.toList ∧ c.before.length = min 30 front.length) ∧
      c.after.toList <+: back.toList ∧ c.after.length = min 30 back.length
  atEnd : c.atEnd = decide (b = utf8Length source.toList)
  /-- Both sides together are one piece of the source. -/
  contiguous : ∃ l r, source = l ++ (c.before ++ c.after) ++ r ∧ utf8Length (l ++ c.before).toList = b

/-- The context at a cut shows the source around it. -/
theorem Context.shows_cut (front back : List Char) :
    Shows (.ofList (front ++ back)) (utf8Length front)
      ⟨.ofList (front.drop (front.length - width)), .ofList (back.take width), back.isEmpty⟩ where
  sides := by
    refine ⟨.ofList front, .ofList back, String.ofList_append, ?_, ?_, ?_⟩
    · rw [String.toList_ofList]
    · simp only [String.toList_ofList, String.length_ofList, List.length_drop, width]
      exact ⟨List.drop_suffix _ _, by omega⟩
    · simp only [String.toList_ofList, String.length_ofList]
      exact ⟨List.take_prefix _ _, List.length_take⟩
  atEnd := by
    rw [String.toList_ofList, utf8Length_append]
    cases back with
    | nil => exact (decide_eq_true rfl).symm
    | cons c back =>
      have hpos := c.utf8Size_pos
      rw [utf8Length_cons]
      exact (decide_eq_false (by omega)).symm
  contiguous := by
    refine ⟨.ofList (front.take (front.length - width)), .ofList (back.drop width), ?_, ?_⟩
    · simp only [← String.ofList_append, ← List.append_assoc, List.take_append_drop]
      rw [List.append_assoc, List.take_append_drop]
    · rw [← String.ofList_append, List.take_append_drop, String.toList_ofList]

/-- **A context is the window around its position.** Whatever the position is, going back from it
ends at a boundary of the text within three steps, the last one that is neither behind the position
nor behind the end, and the context shows the text around this boundary. -/
theorem Context.shows_around (source : String) (position : Nat) :
    IsGreatest {b | IsBoundary source b ∧ b ≤ min position (utf8Length source.toList)}
        (boundaryBefore source position) ∧
      min position (utf8Length source.toList) ≤ boundaryBefore source position + 3 ∧
        (Context.around source position).Shows source (boundaryBefore source position) := by
  refine ⟨isGreatest_boundaryBefore source position, le_boundaryBefore_add source position, ?_⟩
  have hcut := shows_cut (splitAtByte position source.toList).1 (splitAtByte position source.toList).2
  rwa [(splitAtByte_spec position source.toList).1, String.ofList_toList,
    utf8Length_splitAtByte] at hcut

-- The second byte of a character counts as its start.
example : Context.around "x = 'héllo" 7 = ⟨"x = 'h", "éllo", false⟩ := by decide

end StackScript
