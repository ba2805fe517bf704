import StackScript.Proofs.Rendering.Layout
import StackScript.Proofs.Source.Numbers

/-!
# Positions of a scanner

To its user a scanner is a position in a source text, counted in bytes. It is asked for one lexeme
after another (`Query`), and it can be set back to a position or used to complain (`Call`). Between
two calls only the position is kept, so a call is only as good as the position before it: where that
is inside a character there is no text to go on with.

* `Query.follows`: what is done byte by byte and what is done on the characters that remain come to
  the same at every boundary.
* `Query.stays`: no scanner leaves its text, also if it refuses what it finds, and one that does not
  find what it was asked for has skipped blanks and nothing else.
* `skipped_dropBlanks`: what is skipped consists of blanks and comments, and none are left.
* **`calls_disciplined`**: so every call keeps to the characters of the source, in any sequence of
  calls that is set back to such positions only.
-/

namespace StackScript

open Lexeme

/-! ## Blanks -/

namespace Lexeme

/-- Blanks and comments with a text behind them. The last comment may end with the text. -/
inductive Skipped : List Char → List Char → Prop
  | gap {gap rest : List Char} (h : IsGap gap) : Skipped gap rest
  | lastComment {gap line : List Char} (h : IsGap gap) (hline : '\n' ∉ line) :
      Skipped (gap ++ '/' :: '/' :: line) []

theorem Skipped.blank {c : Char} {gap rest : List Char} (hc : isBlank c) (h : Skipped gap rest) :
    Skipped (c :: gap) rest := by
  cases h with
  | gap h => exact .gap (.blank hc h)
  | lastComment h hline => exact .lastComment (.blank hc h) hline

theorem Skipped.comment {line gap rest : List Char} (hline : '\n' ∉ line) (h : Skipped gap rest) :
    Skipped ('/' :: '/' :: (line ++ '\n' :: gap)) rest := by
  cases h with
  | gap h => exact .gap (.comment hline h)
  | @lastComment gap last h hlast =>
    have hall := Skipped.lastComment (.comment hline h) hlast
    rwa [List.cons_append, List.cons_append, List.append_assoc, List.cons_append] at hall

/-- A comment ends with its line or with the text. -/
theorem dropComment_cases (text : List Char) :
    (∃ line more, '\n' ∉ line ∧ text = line ++ '\n' :: more ∧ dropComment text = dropBlanks more) ∨
      '\n' ∉ text ∧ dropComment text = [] := by
  induction text with
  | nil => exact .inr ⟨List.not_mem_nil, rfl⟩
  | cons c text ih =>
    rw [dropComment]
    split
    · rename_i hc
      exact .inl ⟨[], text, List.not_mem_nil, by rw [hc]; rfl, rfl⟩
    · rename_i hc
      have hcons {line : List Char} (hline : '\n' ∉ line) : '\n' ∉ c :: line :=
        List.not_mem_cons_of_ne_of_not_mem (Ne.symm hc) hline
      rcases ih with ⟨line, more, hline, rfl, hdrop⟩ | ⟨hline, hdrop⟩
      · exact .inl ⟨c :: line, more, hcons hline, rfl, hdrop⟩
      · exact .inr ⟨hcons hline, hdrop⟩

/-- What is skipped consists of blanks and comments. -/
theorem skipped_dropBlanks (text : List Char) :
    ∃ gap, text = gap ++ dropBlanks text ∧ Skipped gap (dropBlanks text) := by
  -- a comment takes more than one character, so the induction is on the length
  induction hn : text.length using Nat.strongRecOn generalizing text with
  | ind n ih =>
    cases text with
    | nil => exact ⟨[], rfl, .gap .nil⟩
    | cons c rest =>
      rw [dropBlanks]
      split
      · rename_i hc
        have hlt : rest.length < n := hn ▸ Nat.lt_succ_self _
        obtain ⟨gap, hgap, hskipped⟩ := ih rest.length hlt rest rfl
        exact ⟨c :: gap, congrArg (c :: ·) hgap, hskipped.blank hc⟩
      · split
        · rename_i hc
          obtain ⟨rfl, hslash⟩ := hc
          obtain ⟨rest, rfl⟩ := List.head?_eq_some_iff.mp hslash
          rw [dropComment, if_neg (by decide)]
          rcases dropComment_cases rest with ⟨line, more, hline, rfl, hdrop⟩ | ⟨hline, hdrop⟩
          · have hlt : more.length < n := by
              rw [← hn]
              simp only [List.length_cons, List.length_append]
              omega
            obtain ⟨gap, hgap, hskipped⟩ := ih more.length hlt more rfl
            refine ⟨'/' :: '/' :: (line ++ '\n' :: gap), ?_, hdrop ▸ hskipped.comment hline⟩
            rw [hdrop, List.cons_append, List.cons_append, List.append_assoc, List.cons_append,
              ← hgap]
          · rw [hdrop]
            exact ⟨_, (List.append_nil _).symm, .lastComment .nil hline⟩
        · exact ⟨[], rfl, .gap .nil⟩

/-- Behind the blanks neither a blank nor a comment begins. -/
theorem dropBlanks_first (text : List Char) :
    (∀ c ∈ (dropBlanks text).head?, isBlank c = false) ∧ ¬ ['/', '/'] <+: dropBlanks text := by
  have hidem := dropBlanks_idem text
  constructor
  · intro c hc
    obtain ⟨rest, hrest⟩ := List.head?_eq_some_iff.mp hc
    refine Bool.eq_false_iff.mpr fun hblank => ?_
    rw [hrest, dropBlanks, if_pos hblank] at hidem
    have hlen := length_dropBlanks rest
    rw [hidem] at hlen
    exact Nat.not_succ_le_self _ hlen
  · rintro ⟨rest, hrest⟩
    have hcomment : dropBlanks ('/' :: '/' :: rest) = dropComment ('/' :: rest) := by
      rw [dropBlanks, if_neg (by decide), if_pos ⟨rfl, rfl⟩]
    rw [← hrest, List.cons_append, List.cons_append, List.nil_append, hcomment] at hidem
    have hlen := (dropComment_suffix ('/' :: rest)).length_le
    rw [hidem] at hlen
    exact Nat.not_succ_le_self _ hlen

end Lexeme

namespace Scanner

/-! ## Calls -/

/-- What a scanner can be asked for. -/
inductive Query where
  | skipBlanks
  | atEnd
  | symbol (c : Char)
  | word (w : String)
  | identifier
  | binaryOperator
  | unaryOperator
  | string
  | number

/-- What a scanner answers. -/
inductive Answer where
  | done
  | flag (b : Bool)
  | text (s : Option String)
  | operator (op : Option Operator)
  | value (v : Option Value)
  | diagnostic (d : Diagnostic)
  deriving DecidableEq

/-- Whether the answer is no or nothing. -/
def Answer.declines : Answer → Bool
  | .flag b => !b
  | .text s => s.isNone
  | .operator op => op.isNone
  | .value v => v.isNone
  | .done | .diagnostic _ => false

/-- The cursor for a query. -/
def Query.cursor : Query → Cursor Answer
  | .skipBlanks => (fun _ => .done) <$> Cursor.skipBlanks
  | .atEnd => .flag <$> Cursor.atEnd
  | .symbol c => .flag <$> Cursor.symbol c
  | .word w => .flag <$> Cursor.word w
  | .identifier => .text <$> Cursor.identifier
  | .binaryOperator => .operator <$> Cursor.binaryOperator
  | .unaryOperator => .operator <$> Cursor.unaryOperator
  | .string => .text <$> Cursor.string
  | .number => .value <$> Cursor.number

/-- What a query comes to on the characters that remain. -/
def Query.scanner : Query → Scanner Answer
  | .skipBlanks => (fun _ => .done) <$> Scanner.skipBlanks
  | .atEnd => .flag <$> Scanner.atEnd
  | .symbol c => .flag <$> Scanner.symbol c
  | .word w => .flag <$> Scanner.word w
  | .identifier => .text <$> Scanner.identifier
  | .binaryOperator => .operator <$> Scanner.binaryOperator
  | .unaryOperator => .operator <$> Scanner.unaryOperator
  | .string => .text <$> Scanner.string
  | .number => .value <$> Scanner.number

/-- What can be done with a scanner: ask it, set it to a position, or have it complain about where
it is or about another position. -/
inductive Call where
  | ask (q : Query)
  | reset (target : Nat)
  | complain (c : Complaint) (place : Option Nat)

/-- The answer to a call at a position, and the position after it. -/
def Call.run (source : String) : Call → Nat → Answer × Nat
  | .ask q, position =>
    match q.cursor source position with
    | .ok answer next => (answer, next)
    | .error e next => (.diagnostic (.atPosition source e.position e.complaint), next)
  | .reset target, _ => (.done, target)
  | .complain c place, position =>
    (.diagnostic (.atPosition source (place.getD position) c), position)

/-- Where skipping blanks alone leads from a position. -/
def skipFrom (source : String) (position : Nat) : Nat :=
  (Call.run source (.ask .skipBlanks) position).2

/-- A call with its answer and the positions around it. -/
structure Step where
  call : Call
  before : Nat
  answer : Answer
  after : Nat

/-- The step of a call at a position. -/
def Call.step (source : String) (call : Call) (position : Nat) : Step :=
  ⟨call, position, (call.run source position).1, (call.run source position).2⟩

/-- The steps of a sequence of calls. -/
def trace (source : String) : List Call → Nat → List Step
  | [], _ => []
  | call :: calls, position =>
    call.step source position :: trace source calls (call.step source position).after

/-! ## What scanners leave -/

section Stays

variable {α : Type} {declines : α → Bool}

/-- A scanner left an end of the text, and just the one behind the blanks if it declined. -/
def Stayed (text : List Char) (declines : α → Bool) :
    EStateM.Result Refusal (List Char) α → Prop
  | .ok a rest => rest <:+ text ∧ (declines a → rest = dropBlanks text)
  | .error e rest => rest <:+ text ∧ ∀ reason, e.complaint ≠ .internal reason

/-- A scanner stays in every text. -/
def Stays (s : Scanner α) (declines : α → Bool) : Prop := ∀ text, Stayed text declines (s text)

theorem Stays.map {β : Type} {s : Scanner α} {declines' : β → Bool} (h : Stays s declines)
    (f : α → β) (hf : ∀ a, declines' (f a) = declines a) : Stays (f <$> s) declines' := by
  intro text
  have hs := h text
  show Stayed text declines' (EStateM.map f s text)
  rw [EStateM.map]
  cases hx : s text with
  | ok a rest =>
    rw [hx] at hs
    exact ⟨hs.1, fun hdeclines => hs.2 (hf a ▸ hdeclines)⟩
  | error e rest => rwa [hx] at hs

/-- What is recognised leaves the text behind it. -/
theorem stays_take? {recognise : List Char → Option (α × List Char)}
    (h : ∀ text a rest, recognise text = some (a, rest) → rest <:+ text) :
    Stays (take? recognise) Option.isNone := by
  intro text
  unfold take?
  cases hrec : recognise (dropBlanks text) with
  | none =>
    simp only [hrec]
    exact ⟨dropBlanks_suffix text, fun _ => rfl⟩
  | some found =>
    simp only [hrec]
    exact ⟨(h _ _ _ hrec).trans (dropBlanks_suffix text), fun hdeclines => by cases hdeclines⟩

theorem stays_isSome_take? {recognise : List Char → Option (α × List Char)}
    (h : ∀ text a rest, recognise text = some (a, rest) → rest <:+ text) :
    Stays (Option.isSome <$> take? recognise) (! ·) :=
  (stays_take? h).map _ fun o => by cases o <;> rfl

theorem stays_endString {text start inside : List Char}
    {x : Except Literal.StringError (List Char × List Char)} (hinside : inside <:+ text)
    (hok : ∀ s rest, x = .ok (s, rest) → rest <:+ inside)
    (herror : ∀ c rest, x = .error (.badEscape c rest) → rest <:+ inside) :
    Stayed text Option.isNone (endString start x) := by
  cases x with
  | ok found => exact ⟨(hok _ _ rfl).trans hinside, fun hdeclines => by cases hdeclines⟩
  | error e =>
    cases e with
    | unterminated => exact ⟨List.nil_suffix, fun _ hinternal => by cases hinternal⟩
    | badEscape c rest =>
      exact ⟨(herror c rest rfl).trans hinside, fun _ hinternal => by cases hinternal⟩

theorem stays_string : Stays string Option.isNone := by
  intro text
  have hblanks := dropBlanks_suffix text
  unfold string
  simp only
  split
  · rename_i inside hstart
    rw [hstart] at hblanks ⊢
    refine stays_endString ((List.suffix_cons _ _).trans hblanks)
      (fun s rest h => Literal.plainString_suffix inside h) fun c rest h => ?_
    obtain ⟨before, rfl⟩ := Literal.plainString_badEscape inside h
    exact ⟨before ++ ['\\', c], List.append_assoc _ _ _⟩
  · rename_i inside hstart
    rw [hstart] at hblanks ⊢
    exact stays_endString
      ((List.suffix_cons _ _).trans ((List.suffix_cons _ _).trans hblanks))
      (fun s rest h => Literal.rawString_suffix inside h)
      fun c rest h => absurd h (Literal.rawString_badEscape inside)
  · rename_i rest _ hstart
    rw [hstart] at hblanks
    exact ⟨(List.suffix_cons _ _).trans hblanks, fun _ hinternal => by cases hinternal⟩
  · exact ⟨hblanks, fun _ => rfl⟩

theorem stays_number : Stays number Option.isNone := by
  intro text
  have hblanks := dropBlanks_suffix text
  simp only [number]
  cases hn : Literal.numeral? (dropBlanks text) with
  | none => exact ⟨hblanks, fun _ => rfl⟩
  | some found =>
    obtain ⟨n, rest⟩ := found
    simp only
    cases n.value? with
    | some v =>
      exact ⟨(Literal.numeral?_pieces hn).2.trans hblanks, fun hdeclines => by cases hdeclines⟩
    | none => exact ⟨hblanks, fun _ hinternal => by cases hinternal⟩

/-- **No scanner leaves its text**, and one that declines has only skipped blanks. -/
theorem Query.stays (q : Query) : Stays q.scanner Answer.declines := by
  cases q with
  | skipBlanks =>
    have h : Stays Scanner.skipBlanks fun _ => false :=
      fun text => ⟨dropBlanks_suffix text, fun hdeclines => by cases hdeclines⟩
    exact h.map _ fun _ => rfl
  | atEnd =>
    have h : Stays Scanner.atEnd (! ·) := fun text => ⟨dropBlanks_suffix text, fun _ => rfl⟩
    exact h.map _ fun _ => rfl
  | symbol c =>
    refine (stays_isSome_take? fun text d rest h => ?_).map _ fun _ => rfl
    rw [symbol?_eq_some h]
    exact List.suffix_cons _ _
  | word w =>
    refine (stays_isSome_take? fun text w' rest h => ?_).map _ fun _ => rfl
    exact ⟨w.toList, (word?_eq_some h).symm⟩
  | identifier =>
    refine (stays_take? fun text w rest h => ?_).map _ fun _ => rfl
    exact ⟨w.toList, (identifier?_eq_some h).1.symm⟩
  | binaryOperator =>
    refine (stays_take? fun text op rest h => ?_).map _ fun _ => rfl
    exact ⟨op.symbol.toList, (binaryOperator?_eq_some h).2.symm⟩
  | unaryOperator =>
    refine (stays_take? fun text op rest h => ?_).map _ fun _ => rfl
    obtain ⟨-, c, htext⟩ := unaryOperator?_eq_some h
    exact ⟨[c], htext.symm⟩
  | string => exact stays_string.map _ fun _ => rfl
  | number => exact stays_number.map _ fun _ => rfl

end Stays

/-! ## Cursors for queries -/

/-- **Byte by byte a query comes to what it is on characters.** -/
theorem Query.follows (q : Query) : Cursor.Follows q.cursor q.scanner := by
  cases q with
  | skipBlanks => exact Cursor.follows_skipBlanks.map _
  | atEnd => exact Cursor.follows_atEnd.map _
  | symbol c => exact (Cursor.follows_symbol c).map _
  | word w => exact (Cursor.follows_word w).map _
  | identifier => exact Cursor.follows_identifier.map _
  | binaryOperator => exact Cursor.follows_binaryOperator.map _
  | unaryOperator => exact Cursor.follows_unaryOperator.map _
  | string => exact Cursor.follows_string.map _
  | number => exact Cursor.follows_number.map _

/-- A query at a boundary, on the characters that remain there. -/
theorem run_ask {source : String} {position : Nat} (q : Query) (h : IsBoundary source position) :
    Call.run source (.ask q) position =
      match q.scanner (textFrom source position) with
      | .ok answer rest => (answer, positionOf source rest)
      | .error e rest => (.diagnostic (.ofRefusal source e), positionOf source rest) := by
  obtain ⟨hsuffix, hposition⟩ := h.textFrom
  have hfollows := q.follows source _ hsuffix
  rw [← hposition] at hfollows
  rw [Call.run, hfollows]
  cases q.scanner (textFrom source position) <;> rfl

/-! ## The discipline of positions -/

/-- Skipping blanks leads over blanks and comments to a place where neither begins, and from there
no further. -/
structure Skips (source : String) (position : Nat) : Prop where
  across : ∃ before gap rest, source.toList = before ++ (gap ++ rest) ∧
    position = utf8Length before ∧ skipFrom source position = utf8Length (before ++ gap) ∧
    Skipped gap rest ∧ (∀ c ∈ rest.head?, isBlank c = false) ∧ ¬ ['/', '/'] <+: rest
  again : skipFrom source (skipFrom source position) = skipFrom source position

/-- Whether the answer is a complaint about the inside of a character. -/
def Answer.isInternal : Answer → Bool
  | .diagnostic ⟨.internal _, _, _⟩ => true
  | _ => false

/-- A step keeps to the characters of the source: it ends between two of them, it goes back only if
it is told to, it never looks at the inside of a character, and what declines has only skipped
blanks. -/
structure Step.Disciplined (source : String) (s : Step) : Prop where
  boundary : IsBoundary source s.after
  inside : s.after ≤ utf8Length source.toList
  forward : (∀ target, s.call ≠ .reset target) → s.before ≤ s.after
  decodes : s.answer.isInternal → ∃ c place, s.call = .complain c place
  declined : s.answer.declines → s.after = skipFrom source s.before
  skips : Skips source s.before ∧ Skips source s.after

section Disciplined

variable {source : String} {position : Nat}

theorem skipFrom_eq (h : IsBoundary source position) :
    skipFrom source position = positionOf source (dropBlanks (textFrom source position)) := by
  rw [skipFrom, run_ask _ h]
  rfl

/-- **From every boundary blanks are skipped.** -/
theorem skips_of_isBoundary (h : IsBoundary source position) : Skips source position := by
  obtain ⟨hsuffix, hposition⟩ := h.textFrom
  have hrest := (dropBlanks_suffix (textFrom source position)).trans hsuffix
  constructor
  · obtain ⟨before, hbefore⟩ := hsuffix
    obtain ⟨gap, hgap, hskipped⟩ := skipped_dropBlanks (textFrom source position)
    have hsource : source.toList = before ++ (gap ++ dropBlanks (textFrom source position)) := by
      rw [← hgap, hbefore]
    refine ⟨before, gap, _, hsource, ?_, ?_, hskipped, dropBlanks_first _⟩
    · exact hposition.trans (positionOf_append hbefore.symm)
    · rw [skipFrom_eq h]
      exact positionOf_append (hsource.trans (List.append_assoc _ _ _).symm)
  · rw [skipFrom_eq h, skipFrom_eq (isBoundary_positionOf hrest), textFrom_positionOf hrest,
      dropBlanks_idem]

theorem exists_of_map_ok {α β : Type} {f : α → β} {s : Scanner α} {text rest : List Char} {b : β}
    (h : (f <$> s) text = .ok b rest) : ∃ a, b = f a := by
  change EStateM.map f s text = _ at h
  rw [EStateM.map] at h
  split at h
  · cases h
    exact ⟨_, rfl⟩
  · cases h

/-- What is answered is no complaint. -/
theorem Query.isInternal_answer {q : Query} {text rest : List Char} {answer : Answer}
    (h : q.scanner text = .ok answer rest) : answer.isInternal = false := by
  cases q
  all_goals
    obtain ⟨_, rfl⟩ := exists_of_map_ok h
    rfl

/-- What a query does to a position. -/
theorem Query.run (q : Query) (h : IsBoundary source position) :
    IsBoundary source (Call.run source (.ask q) position).2 ∧
      position ≤ (Call.run source (.ask q) position).2 ∧
      (Call.run source (.ask q) position).1.isInternal = false ∧
      ((Call.run source (.ask q) position).1.declines →
        (Call.run source (.ask q) position).2 = skipFrom source position) := by
  obtain ⟨hsuffix, hposition⟩ := h.textFrom
  have hforward {rest : List Char} (hrest : rest <:+ textFrom source position) :
      position ≤ positionOf source rest := by
    rw [hposition]
    exact positionOf_le_of_suffix hrest
  have hstays := q.stays (textFrom source position)
  rw [run_ask q h]
  cases hscan : q.scanner (textFrom source position) with
  | ok answer rest =>
    rw [hscan] at hstays
    refine ⟨isBoundary_positionOf (hstays.1.trans hsuffix), hforward hstays.1,
      q.isInternal_answer hscan, fun hdeclines => ?_⟩
    rw [hstays.2 hdeclines, skipFrom_eq h]
  | error e rest =>
    rw [hscan] at hstays
    refine ⟨isBoundary_positionOf (hstays.1.trans hsuffix), hforward hstays.1, ?_,
      fun hdeclines => by cases hdeclines⟩
    refine Bool.eq_false_iff.mpr fun hinternal => ?_
    obtain ⟨complaint, place⟩ := e
    cases complaint with
    | internal reason => exact hstays.2 reason rfl
    | _ => cases hinternal

/-- **A call at a boundary is disciplined**, if it is not set back to where no boundary is. -/
theorem Call.disciplined (call : Call) (h : IsBoundary source position)
    (hreset : ∀ target, call = .reset target → IsBoundary source target) :
    (call.step source position).Disciplined source := by
  have hskips := skips_of_isBoundary h
  cases call with
  | ask q =>
    obtain ⟨hboundary, hforward, hdecodes, hdeclined⟩ := q.run h
    exact ⟨hboundary, hboundary.le, fun _ => hforward,
      fun hinternal => absurd hinternal (Bool.eq_false_iff.mp hdecodes), hdeclined, hskips,
      skips_of_isBoundary hboundary⟩
  | reset target =>
    have htarget := hreset target rfl
    exact ⟨htarget, htarget.le, fun hnot => absurd rfl (hnot target),
      fun hinternal => (by cases hinternal), fun hdeclines => (by cases hdeclines), hskips,
      skips_of_isBoundary htarget⟩
  | complain c place =>
    exact ⟨h, h.le, fun _ => Nat.le_refl _, fun _ => ⟨c, place, rfl⟩,
      fun hdeclines => (by cases hdeclines), hskips, hskips⟩

theorem trace_disciplined (calls : List Call)
    (hreset : ∀ target, .reset target ∈ calls → IsBoundary source target)
    (h : IsBoundary source position) :
    ∀ s ∈ trace source calls position, s.Disciplined source := by
  induction calls generalizing position with
  | nil => exact List.forall_mem_nil _
  | cons call calls ih =>
    have hstep := call.disciplined h fun target htarget =>
      hreset target (htarget ▸ List.mem_cons_self)
    refine List.forall_mem_cons.mpr ⟨hstep, ?_⟩
    exact ih (fun target htarget => hreset target (List.mem_cons_of_mem _ htarget)) hstep.boundary

end Disciplined

/-- **The position of a scanner is disciplined.** In every sequence of calls that sets the scanner
to boundaries of the source only, each call ends at such a boundary, also if it refuses what it
finds; only setting it moves it back; each call that says no or finds nothing leaves it where
skipping blanks would. From each position, skipping leads over blanks and comments, of which the
last may end with the source, to a place where none begins, and a second time no further. -/
theorem calls_disciplined (source : String) (calls : List Call)
    (hreset : ∀ target, .reset target ∈ calls → IsBoundary source target) :
    ∀ s ∈ trace source calls 0, s.Disciplined source :=
  trace_disciplined calls hreset ⟨[], source.toList, rfl, rfl⟩

/-- A comment, a string with a wrong escape and a word that begins with a digit, among characters of
two bytes. -/
def trickyText : String := " //é\n'ü\\q'5x"

/-- Two numbers that are none, a refusal, and a way back into the comment. -/
def trickyCalls : List Call :=
  [.ask .number, .ask .string, .ask (.symbol '\''), .ask .number, .reset 5, .ask .skipBlanks,
    .complain .expectedEnd none, .ask .atEnd]

theorem calls_disciplined_tricky :
    IsBoundary trickyText 5 ∧
      (trace trickyText trickyCalls 0).map (·.after) = [6, 11, 12, 12, 5, 6, 6, 6] ∧
      (trace trickyText trickyCalls 0).map (·.answer.declines) =
        [true, false, false, true, false, false, false, true] ∧
      ∀ s ∈ trace trickyText trickyCalls 0, s.Disciplined trickyText := by
  have hfive : IsBoundary trickyText 5 := ⟨" //é".toList, "\n'ü\\q'5x".toList, by decide, by decide⟩
  refine ⟨hfive, by decide +kernel, by decide +kernel, ?_⟩
  refine calls_disciplined trickyText trickyCalls fun target htarget => ?_
  simp only [trickyCalls, List.mem_cons, List.not_mem_nil, or_false, reduceCtorEq, false_or,
    Call.reset.injEq] at htarget
  exact htarget ▸ hfive

end Scanner

end StackScript
