import StackScript.Proofs.Reading.Post
import StackScript.Proofs.Rendering.Layout

/-!
# What readers give on tokens

`Reader.Yields x ts P a ts' P'` says that a reader succeeds: wherever the tokens `ts` remain and the
scope has `P`, it gives `a`, leaves `ts'` and a scope with `P'`. It is a statement about tokens
only: which text lies before or between them does not matter. There is a rule for every way readers
are put together and for every scanner, whether it takes the next token or not.
-/

namespace StackScript

open Lexeme

/-- The characters that stand behind expressions. -/
def closing : List Char := [')', ',', ';', '{']

theorem forall_closing {p : Char → Prop} :
    (∀ c ∈ closing, p c) ↔ p ')' ∧ p ',' ∧ p ';' ∧ p '{' := by
  simp [closing]

/-- A number ends in front of a blank, a comment or a token that does not go on with it. -/
theorem Laid.endsNumber {before : Token} {ts : List Token} {text : List Char}
    (h : Laid before ts text)
    (hnext : Begins (fun c => Literal.continuesNumber c = false ∧ c.isDigit = false) ts) :
    Literal.EndsNumber text :=
  h.head? hnext (forall_isBlank.mpr (by decide)) (by decide)

namespace Reader

variable {α β : Type}

/-- A sequence of readers succeeds if both do. -/
theorem bind_eq_ok {x : Reader α} {f : α → Reader β} {b : β} {r r' : Reading} :
    (x >>= f) r = .ok b r' ↔ ∃ a r₁, x r = .ok a r₁ ∧ f a r₁ = .ok b r' := by
  have hbind : (x >>= f) r = EStateM.bind x f r := rfl
  rw [hbind, EStateM.bind]
  cases hx : x r with
  | ok a r₁ =>
    constructor
    · exact fun h => ⟨a, r₁, rfl, h⟩
    · rintro ⟨_, _, ⟨⟩, h⟩
      exact h
  | error e r₁ =>
    constructor
    · exact fun h => by cases h
    · rintro ⟨_, _, ⟨⟩, _⟩

/-- Where `ts` remain, in a scope with `P`, the reader gives `a` and leaves `ts'` and a scope with
`P'`. At least one character is consumed for every token. -/
def Yields (x : Reader α) (ts : List Token) (P : Scope → Prop) (a : α) (ts' : List Token)
    (P' : Scope → Prop) : Prop :=
  ∀ r : Reading, Remain ts r.rest → P r.scope → ∃ r' : Reading, x r = .ok a r' ∧
    Remain ts' r'.rest ∧ P' r'.scope ∧ r'.rest.length + ts.length ≤ r.rest.length + ts'.length

namespace Yields

variable {x : Reader α} {f : α → Reader β} {a : α} {b : β} {ts ts' ts'' : List Token}
  {P P' P'' : Scope → Prop}

theorem pure (a : α) : Yields (Pure.pure a : Reader α) ts P a ts P := fun r hat hP =>
  ⟨r, rfl, hat, hP, Nat.le_refl _⟩

/-- More may be known of the scope before, and less after. -/
theorem of_imp {Q Q' : Scope → Prop} (h : Yields x ts P a ts' P') (hQ : ∀ s, Q s → P s)
    (hQ' : ∀ s, P' s → Q' s) : Yields x ts Q a ts' Q' := by
  intro r hat hr
  obtain ⟨r', hx, hat', hP', hlen⟩ := h r hat (hQ _ hr)
  exact ⟨r', hx, hat', hQ' _ hP', hlen⟩

theorem bind (hx : Yields x ts P a ts' P') (hf : Yields (f a) ts' P' b ts'' P'') :
    Yields (x >>= f) ts P b ts'' P'' := by
  intro r hat hP
  obtain ⟨r₁, hx₁, hat₁, hP₁, hlen₁⟩ := hx r hat hP
  obtain ⟨r₂, hf₂, hat₂, hP₂, hlen₂⟩ := hf r₁ hat₁ hP₁
  exact ⟨r₂, bind_eq_ok.mpr ⟨a, r₁, hx₁, hf₂⟩, hat₂, hP₂, by omega⟩

theorem bind_scope {f : Scope → Reader β} (h : ∀ s, P s → Yields (f s) ts P b ts' P') :
    Yields (Reader.scope >>= f) ts P b ts' P' := fun r hat hP => h r.scope hP r hat hP

theorem bind_get {f : Reading → Reader β} (h : ∀ r, Yields (f r) ts P b ts' P') :
    Yields (get >>= f) ts P b ts' P' := fun r hat hP => h r r hat hP

theorem setScope {s : Scope} (h : P' s) : Yields (Reader.setScope s) ts P () ts P' :=
  fun r hat _ => ⟨{ r with scope := s }, rfl, hat, h, Nat.le_refl _⟩

/-! ## Loops -/

/-- More turns change nothing about a loop that has ended. -/
theorem many_add {item : Reader (Option α)} {r r' : Reading} {as : List α} (turns more : Nat)
    (h : Reader.many item turns r = .ok as r') : Reader.many item (turns + more) r = .ok as r' := by
  induction turns generalizing r r' as with
  | zero => cases h
  | succ turns ih =>
    obtain ⟨o, r₁, hitem, hrest⟩ := bind_eq_ok.mp h
    rw [Nat.add_right_comm]
    refine bind_eq_ok.mpr ⟨o, r₁, hitem, ?_⟩
    cases o with
    | none => exact hrest
    | some a =>
      obtain ⟨rest, r₂, hmany, hend⟩ := bind_eq_ok.mp hrest
      exact bind_eq_ok.mpr ⟨rest, r₂, ih hmany, hend⟩

/-- A loop ends with a turn that reads nothing. -/
theorem loop_none {item : Reader (Option α)} (h : Yields item ts P none ts' P') :
    Yields (Reader.loop item) ts P [] ts' P' := by
  intro r hat hP
  obtain ⟨r', hitem, hrest⟩ := h r hat hP
  exact ⟨r', bind_eq_ok.mpr ⟨none, r', hitem, rfl⟩, hrest⟩

/-- A turn of a loop that reads something. -/
theorem loop_some {item : Reader (Option α)} {as : List α} (h : Yields item ts P (some a) ts' P')
    (hshorter : ts'.length < ts.length) (hrest : Yields (Reader.loop item) ts' P' as ts'' P'') :
    Yields (Reader.loop item) ts P (a :: as) ts'' P'' := by
  intro r hat hP
  obtain ⟨r₁, hitem, hat₁, hP₁, hlen₁⟩ := h r hat hP
  obtain ⟨r₂, hloop, hat₂, hP₂, hlen₂⟩ := hrest r₁ hat₁ hP₁
  refine ⟨r₂, bind_eq_ok.mpr ⟨some a, r₁, hitem, bind_eq_ok.mpr ⟨as, r₂, ?_, rfl⟩⟩, hat₂, hP₂,
    by omega⟩
  -- the loop has one turn less left, but the text is shorter by at least one character
  have hmany := many_add _ (r.rest.length - (r₁.rest.length + 1)) hloop
  rwa [Nat.add_sub_cancel' (by omega)] at hmany

/-! ## Scanners -/

section Scan

variable {t : Token}

/-- A reader that takes the next token. -/
theorem of_token (hne : t.text ≠ []) (hsolid : Solid ts)
    (h : ∀ (r : Reading) (rest : List Char), dropBlanks r.rest = t.text ++ rest → Laid t ts rest →
      x r = .ok a { r with rest }) : Yields x (t :: ts) P a ts P := by
  intro r hat hP
  obtain ⟨rest, htext, hlaid⟩ := hat.opens
  refine ⟨{ r with rest }, h r rest htext hlaid, hlaid.remain hsolid, hP, ?_⟩
  have hdrop := length_dropBlanks r.rest
  have hpos := List.length_pos_iff.mpr hne
  rw [htext, List.length_append] at hdrop
  simp only [List.length_cons]
  omega

/-- A reader that skips blanks and takes nothing. -/
theorem of_skip (h : ∀ r : Reading, Opens ts (dropBlanks r.rest) →
    x r = .ok a { r with rest := dropBlanks r.rest }) : Yields x ts P a ts P := by
  intro r hat hP
  refine ⟨{ r with rest := dropBlanks r.rest }, h r hat.opens, hat.skip, hP, ?_⟩
  have := length_dropBlanks r.rest
  simp only
  omega

theorem skipBlanks : Yields (scan .skipBlanks) ts P () ts P := of_skip fun _ _ => rfl

theorem atEnd : Yields (scan .atEnd) [] P true [] P := by
  refine of_skip fun r h => ?_
  have hnil : dropBlanks r.rest = [] := h
  simp [scan, Scanner.atEnd, hnil]

theorem not_atEnd (h : Begins (fun _ => True) (t :: ts)) :
    Yields (scan .atEnd) (t :: ts) P false (t :: ts) P := by
  obtain ⟨c, tail, htext, -⟩ := h
  refine of_skip fun r h => ?_
  obtain ⟨rest, hrest, -⟩ := h
  simp [scan, Scanner.atEnd, hrest, htext]

theorem symbol {c : Char} (hsolid : Solid ts) :
    Yields (scan (.symbol c)) (.mark c :: ts) P true ts P := by
  refine of_token (List.cons_ne_nil _ _) hsolid fun r rest htext _ => scan_isSome_some (a := c) ?_
  rw [htext]
  exact if_pos rfl

theorem not_symbol {c : Char} (h : Begins (· ≠ c) ts) :
    Yields (scan (.symbol c)) ts P false ts P := by
  refine of_skip fun r hopens => scan_isSome_none ?_
  have hhead := hopens.head? h
  cases htext : dropBlanks r.rest with
  | nil => rfl
  | cons d rest =>
    rw [htext] at hhead
    exact if_neg (hhead d rfl)

theorem word {w : String} (hw : IsWord w) (hsolid : Solid ts) :
    Yields (scan (.word w)) (.word w :: ts) P true ts P := by
  refine of_token hw.nonempty hsolid fun r rest htext hlaid => scan_isSome_some (a := w) ?_
  have hends := hlaid.not_isWordChar rfl hsolid
  have hprefix : w.toList.isPrefixOf? (dropBlanks r.rest) = some rest :=
    List.isPrefixOf?_eq_some_iff_append_eq.mpr htext.symm
  have hany : rest.head?.any isWordChar = false := by
    cases rest with
    | nil => rfl
    | cons c rest => exact hends c rfl
  simp only [word?, hprefix, hany, Bool.false_eq_true, if_false]

/-- A word is not taken for another one. -/
theorem not_word {w w' : String} (hw : IsWord w) (hw' : IsWord w') (hne : w' ≠ w)
    (hsolid : Solid ts) : Yields (scan (.word w)) (.word w' :: ts) P false (.word w' :: ts) P := by
  refine of_skip fun r hopens => scan_isSome_none ?_
  obtain ⟨rest, htext, hlaid⟩ := hopens
  have hrun := (span_append hw'.chars (hlaid.not_isWordChar rfl hsolid)).1
  unfold word?
  split
  · rfl
  · rename_i rest' hprefix
    split
    · rfl
    · rename_i hends
      have htext' := List.isPrefixOf?_eq_some_iff_append_eq.mp hprefix
      have hrun' : (dropBlanks r.rest).takeWhile isWordChar = w.toList := by
        rw [← htext']
        refine (span_append hw.chars fun c hc => ?_).1
        rw [hc] at hends
        simpa using hends
      rw [htext] at hrun'
      exact absurd (String.toList_inj.mp (hrun.symm.trans hrun')) hne

/-- A name is not taken for a keyword. -/
theorem not_keyword {w w' : String} (hw : w ∈ keywords) (hw' : IsName w') (hsolid : Solid ts) :
    Yields (scan (.word w)) (.word w' :: ts) P false (.word w' :: ts) P :=
  not_word (isWord_of_mem_keywords hw) hw'.toIsWord (ne_of_mem_keywords hw hw') hsolid

/-- Where no word begins, none is taken. -/
theorem no_word {w : String} (hw : IsWord w) (h : Begins (isWordChar · = false) ts) :
    Yields (scan (.word w)) ts P false ts P := by
  refine of_skip fun r hopens => scan_isSome_none ?_
  have hhead := hopens.head? h
  unfold word?
  split
  · rfl
  · rename_i rest hprefix
    obtain ⟨c, tail, hc⟩ := List.exists_cons_of_ne_nil hw.nonempty
    rw [← List.isPrefixOf?_eq_some_iff_append_eq.mp hprefix, hc] at hhead
    have hchar := hw.chars c (by rw [hc]; exact List.mem_cons_self)
    rw [hhead c rfl] at hchar
    cases hchar

theorem identifier {w : String} (hw : IsWord w) (hsolid : Solid ts) :
    Yields (scan .identifier) (.word w :: ts) P (some w) ts P := by
  refine of_token hw.nonempty hsolid fun r rest htext hlaid => scan_take?_some ?_
  obtain ⟨htake, hdrop⟩ := span_append hw.chars (hlaid.not_isWordChar rfl hsolid)
  have hword : (Token.word w).text = w.toList := rfl
  unfold identifier?
  rw [htext, hword, htake, hdrop]
  obtain ⟨c, tail, hc⟩ := List.exists_cons_of_ne_nil hw.nonempty
  simp only [hc]
  rw [← hc, String.ofList_toList]

/-- A name is read with the place where it stands. -/
theorem bind_name {w what : String} {f : String × List Char → Reader β} (hw : IsName w)
    (hsolid : Solid ts) (h : ∀ place, Yields (f (w, place)) ts P b ts' P') :
    Yields (Reader.name what >>= f) (.word w :: ts) P b ts' P' := by
  intro r hat hP
  obtain ⟨r₁, hskip, hat₁, hP₁, hlen₁⟩ := skipBlanks r hat hP
  obtain ⟨r₂, hscan, hat₂, hP₂, hlen₂⟩ := identifier hw.toIsWord hsolid r₁ hat₁ hP₁
  obtain ⟨r₃, hf, hat₃, hP₃, hlen₃⟩ := h r₁.rest r₂ hat₂ hP₂
  refine ⟨r₃, bind_eq_ok.mpr ⟨(w, r₁.rest), r₂, ?_, hf⟩, hat₃, hP₃, by omega⟩
  refine bind_eq_ok.mpr ⟨(), r₁, hskip, bind_eq_ok.mpr ⟨r₁, r₁, rfl,
    bind_eq_ok.mpr ⟨some w, r₂, hscan, ?_⟩⟩⟩
  simp only [hw.notKeyword, Bool.false_eq_true, if_false]
  rfl

theorem expect {c : Char} (hsolid : Solid ts) :
    Yields (Reader.expect c) (.mark c :: ts) P () ts P :=
  (symbol hsolid).bind (pure ())

/-! ## Operators and literals -/

theorem binaryOperator {op : Operator} (hop : op ∈ Operator.binary) (hsolid : Solid ts)
    (hnext : Begins (· ≠ '=') ts) :
    Yields (scan .binaryOperator) (.operator op :: ts) P (some op) ts P := by
  have hne : ∀ op ∈ Operator.binary, op.symbol.toList ≠ [] := by decide
  refine of_token (hne op hop) hsolid fun r rest htext hlaid => scan_take?_some ?_
  rw [htext]
  refine binaryOperator?_symbol hop (hlaid.head? hnext (fun c hc => ?_) (by decide))
  rintro rfl
  exact absurd hc (by decide)

theorem no_binaryOperator (h : Begins (· ∈ closing) ts) :
    Yields (scan .binaryOperator) ts P none ts P := by
  refine of_skip fun r hopens => scan_take?_none ?_
  have hhead := hopens.head? h
  cases htext : dropBlanks r.rest with
  | nil => rfl
  | cons c rest =>
    rw [htext] at hhead
    have hc := hhead c rfl
    simp only [closing, List.mem_cons, List.not_mem_nil, or_false] at hc
    rcases hc with rfl | rfl | rfl | rfl <;> rfl

theorem unaryOperator {op : Operator} {c : Char} (hc : Operator.ofSign? c = some op)
    (hsolid : Solid ts) : Yields (scan .unaryOperator) (.mark c :: ts) P (some op) ts P := by
  refine of_token (List.cons_ne_nil _ _) hsolid fun r rest htext _ => scan_take?_some ?_
  rw [htext]
  show (Operator.ofSign? c).map (·, rest) = _
  rw [hc]
  rfl

theorem no_unaryOperator (h : Begins (Operator.ofSign? · = none) ts) :
    Yields (scan .unaryOperator) ts P none ts P := by
  refine of_skip fun r hopens => scan_take?_none ?_
  have hhead := hopens.head? h
  cases htext : dropBlanks r.rest with
  | nil => rfl
  | cons c rest =>
    rw [htext] at hhead
    show (Operator.ofSign? c).map (·, rest) = none
    rw [hhead c rfl]
    rfl

theorem number {n : Literal.Numeral} {text : List Char} {v : Value} (h : n.Written text)
    (hv : n.value? = some v) (hsolid : Solid ts)
    (hnext : Begins (fun c => Literal.continuesNumber c = false ∧ c.isDigit = false) ts) :
    Yields (scan .number) (.number text :: ts) P (some v) ts P := by
  obtain ⟨c, tail, hc, -⟩ := h.first
  refine of_token (by rw [Token.number, hc]; exact List.cons_ne_nil _ _) hsolid
    fun r rest htext hlaid => ?_
  have hends := hlaid.endsNumber hnext
  have hn : Literal.numeral? (dropBlanks r.rest) = some (n, rest) := by
    rw [htext]
    exact Literal.numeral?_written h hends
  simp only [scan, Scanner.number, hn, hv]

theorem no_number (h : Begins (fun c => c.isDigit = false ∧ c ≠ '.') ts) :
    Yields (scan .number) ts P none ts P := by
  refine of_skip fun r hopens => ?_
  have hhead := hopens.head? h
  have hn : Literal.numeral? (dropBlanks r.rest) = none := by
    cases htext : dropBlanks r.rest with
    | nil => rfl
    | cons c rest =>
      rw [htext] at hhead
      obtain ⟨hdigit, hpoint⟩ := hhead c rfl
      simp [Literal.numeral?, Literal.fraction, hdigit, hpoint]
  simp only [scan, Scanner.number, hn]

theorem plainString {s text : List Char} (h : Literal.PlainText s text) (hsolid : Solid ts) :
    Yields (scan .string) (.quoted ('\'' :: (text ++ ['\''])) :: ts) P (some (String.ofList s)) ts
      P := by
  refine of_token (List.cons_ne_nil _ _) hsolid fun r rest htext _ => ?_
  have hstart : dropBlanks r.rest = '\'' :: (text ++ '\'' :: rest) := by
    rw [htext, Token.quoted, List.cons_append, List.append_assoc, List.singleton_append]
  simp only [scan, Scanner.string, hstart, Literal.plainString_written h, Scanner.endString]

theorem rawString {s : List Char} (h : '\'' ∉ s) (hsolid : Solid ts) :
    Yields (scan .string) (.quoted ('@' :: '\'' :: (s ++ ['\''])) :: ts) P (some (String.ofList s))
      ts P := by
  refine of_token (List.cons_ne_nil _ _) hsolid fun r rest htext _ => ?_
  have hstart : dropBlanks r.rest = '@' :: '\'' :: (s ++ '\'' :: rest) := by
    rw [htext, Token.quoted, List.cons_append, List.cons_append, List.append_assoc,
      List.singleton_append]
  simp only [scan, Scanner.string, hstart, Literal.rawString_written h, Scanner.endString]

theorem no_string (h : Begins (fun c => c ≠ '\'' ∧ c ≠ '@') ts) :
    Yields (scan .string) ts P none ts P := by
  refine of_skip fun r hopens => ?_
  have hhead := hopens.head? h
  unfold scan Scanner.string
  cases htext : dropBlanks r.rest with
  | nil => rfl
  | cons c rest =>
    rw [htext] at hhead
    obtain ⟨hquote, hat⟩ := hhead c rfl
    simp only
    split <;> simp_all

end Scan

end Yields

end Reader

end StackScript
