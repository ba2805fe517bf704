import StackScript.Proofs.Rendering.Literal

/-!
# Tokens and their layout in a text

A text is laid out from tokens with separators between them. Separators are runs of blanks and of
comments that end with their line. Two tokens that are words or numbers need one between them, and a
separator that is not empty begins with a blank, so that no operator runs into a comment
(`Laid`, `Renders`).

Readers skip blanks before they look at a text, and `Remain` says what they then find: exactly the
first of the tokens that remain. It holds at the start of a rendering (`Renders.remain`) and behind
every token (`Laid.remain`), unless the next token could be taken for a comment (`Solid`).
-/

namespace StackScript

/-- A token, as it is written. -/
structure Token where
  text : List Char
  /-- Words and numbers, which run together if nothing stands between them. -/
  isWordLike : Bool
  deriving DecidableEq, Repr

namespace Token

/-- A keyword or a name. -/
def word (w : String) : Token := ⟨w.toList, true⟩

/-- A number. -/
def number (text : List Char) : Token := ⟨text, true⟩

/-- A string with its quotes. -/
def quoted (text : List Char) : Token := ⟨text, false⟩

/-- An operator. -/
def operator (op : Operator) : Token := ⟨op.symbol.toList, false⟩

/-- A prefix operator, a parenthesis or another mark of one character. -/
def mark (c : Char) : Token := ⟨[c], false⟩

end Token

open Lexeme

/-! ## Texts from tokens -/

/-- A run of blanks and comments. -/
inductive IsGap : List Char → Prop
  | nil : IsGap []
  | blank {c : Char} {gap : List Char} (hc : isBlank c) (h : IsGap gap) : IsGap (c :: gap)
  | comment {line gap : List Char} (hline : '\n' ∉ line) (h : IsGap gap) :
      IsGap ('/' :: '/' :: (line ++ '\n' :: gap))

/-- What may stand between two tokens. -/
structure IsSeparator (before after : Token) (gap : List Char) : Prop where
  isGap : IsGap gap
  first : ∀ c ∈ gap.head?, isBlank c
  needed : before.isWordLike → after.isWordLike → gap ≠ []

theorem isSeparator_nil {before after : Token}
    (h : before.isWordLike = false ∨ after.isWordLike = false) : IsSeparator before after [] := by
  refine ⟨.nil, fun c hc => (by cases hc), fun hbefore hafter => ?_⟩
  rcases h with h | h
  · rw [h] at hbefore
    cases hbefore
  · rw [h] at hafter
    cases hafter

theorem isSeparator_blank {before after : Token} {gap : List Char} (h : IsGap gap) :
    IsSeparator before after (' ' :: gap) :=
  ⟨.blank (by decide) h, fun c hc => (by cases hc; decide), fun _ _ => List.cons_ne_nil _ _⟩

/-- The texts that can follow a token if these tokens remain. -/
def Laid (before : Token) : List Token → List Char → Prop
  | [], text => IsGap text
  | t :: ts, text => ∃ gap rest, text = gap ++ (t.text ++ rest) ∧ IsSeparator before t gap ∧
      Laid t ts rest

/-- The texts of tokens. -/
def Renders : List Token → List Char → Prop
  | [], text => IsGap text
  | t :: ts, text => ∃ gap rest, text = gap ++ (t.text ++ rest) ∧ IsGap gap ∧ Laid t ts rest

/-! ## Finding tokens -/

/-- Skipping blanks in a text that begins with a run of blanks and comments. -/
theorem IsGap.dropBlanks_append {gap : List Char} (h : IsGap gap) (rest : List Char) :
    dropBlanks (gap ++ rest) = dropBlanks rest := by
  have hline : ∀ {line rest : List Char}, '\n' ∉ line →
      dropComment (line ++ '\n' :: rest) = dropBlanks rest := by
    intro line rest hline
    induction line with
    | nil =>
      rw [List.nil_append, dropComment]
      exact if_pos rfl
    | cons c line ih =>
      rw [List.mem_cons, not_or] at hline
      rw [List.cons_append, dropComment, if_neg (Ne.symm hline.1), ih hline.2]
  induction h with
  | nil => rfl
  | blank hc _ ih => rw [List.cons_append, dropBlanks, if_pos hc, ih]
  | comment hline' _ ih =>
    rw [List.cons_append, List.cons_append, dropBlanks, if_neg (by decide), if_pos ⟨rfl, rfl⟩,
      dropComment, if_neg (by decide), List.append_assoc, List.cons_append, hline hline', ih]

theorem IsGap.dropBlanks {gap : List Char} (h : IsGap gap) : dropBlanks gap = [] := by
  have := h.dropBlanks_append []
  rwa [List.append_nil] at this

/-- No word goes on in a run of blanks and comments. -/
theorem IsGap.not_isWordChar {gap : List Char} (h : IsGap gap) :
    ∀ c ∈ gap.head?, isWordChar c = false := by
  have hblank : ∀ c, isBlank c → isWordChar c = false := forall_isBlank.mpr (by decide)
  intro c hc
  cases h with
  | nil => cases hc
  | blank hblank' _ =>
    cases hc
    exact hblank _ hblank'
  | comment _ _ =>
    cases hc
    decide

/-- A token that can be told from what is before it: it does not begin with a blank or a slash, and
with a character of words only if it needs a separator. -/
def Token.Starts (t : Token) : Prop :=
  ∃ c rest, t.text = c :: rest ∧ isBlank c = false ∧ c ≠ '/' ∧
    (t.isWordLike = false → isWordChar c = false)

/-- Tokens that begin with one that can be told from what is before it. A division can be told from
a comment by what follows it. -/
def Solid : List Token → Prop
  | [] => True
  | t :: ts => t.Starts ∨ t = .operator .div ∧ ∃ t' rest, ts = t' :: rest ∧ t'.Starts

theorem Token.Starts.solid {t : Token} (h : t.Starts) (ts : List Token) : Solid (t :: ts) :=
  Or.inl h

theorem solid_mark {c : Char} (hc : isBlank c = false ∧ c ≠ '/' ∧ isWordChar c = false)
    (ts : List Token) : Solid (.mark c :: ts) :=
  Or.inl ⟨c, [], rfl, hc.1, hc.2.1, fun _ => hc.2.2⟩

/-- A text that begins with the first of these tokens. -/
def Opens : List Token → List Char → Prop
  | [], text => text = []
  | t :: ts, text => ∃ rest, text = t.text ++ rest ∧ Laid t ts rest

/-- Behind the blanks of a text these tokens remain. -/
structure Remain (ts : List Token) (text : List Char) : Prop where
  solid : Solid ts
  opens : Opens ts (dropBlanks text)

theorem dropBlanks_of_first {c : Char} {rest : List Char} (hblank : isBlank c = false)
    (hcomment : ¬ (c = '/' ∧ rest.head? = some '/')) : dropBlanks (c :: rest) = c :: rest := by
  rw [dropBlanks, if_neg (by simp [hblank]), if_neg hcomment]

/-- Behind a token with another one to come there is no second slash. -/
theorem Laid.head_ne_slash {before t : Token} {ts : List Token} {text : List Char}
    (h : Laid before (t :: ts) text) (ht : t.Starts) : text.head? ≠ some '/' := by
  obtain ⟨gap, rest, rfl, hgap, -⟩ := h
  obtain ⟨c, tail, htext, -, hslash, -⟩ := ht
  cases gap with
  | nil => simpa [htext] using hslash
  | cons b gap =>
    intro hb
    cases hb
    exact absurd (hgap.first _ rfl) (by decide)

/-- A solid token is not skipped. -/
theorem Opens.dropBlanks {ts : List Token} {text : List Char} (hsolid : Solid ts)
    (h : Opens ts text) : dropBlanks text = text := by
  cases ts with
  | nil =>
    cases h
    rfl
  | cons t ts =>
    obtain ⟨rest, rfl, hrest⟩ := h
    rcases hsolid with ⟨c, tail, htext, hblank, hslash, -⟩ | ⟨rfl, t', ts', rfl, ht'⟩
    · rw [htext]
      exact dropBlanks_of_first hblank fun hc => hslash hc.1
    · exact dropBlanks_of_first (by decide) fun hc => hrest.head_ne_slash ht' hc.2

theorem remain_of_gap {gap text : List Char} {ts : List Token} (hgap : IsGap gap)
    (hsolid : Solid ts) (h : Opens ts text) : Remain ts (gap ++ text) :=
  ⟨hsolid, by rwa [hgap.dropBlanks_append, h.dropBlanks hsolid]⟩

/-- Behind a token the others remain. -/
theorem Laid.remain {before : Token} {ts : List Token} {text : List Char} (h : Laid before ts text)
    (hsolid : Solid ts) : Remain ts text := by
  cases ts with
  | nil => exact ⟨hsolid, IsGap.dropBlanks h⟩
  | cons t ts =>
    obtain ⟨gap, rest, rfl, hgap, hrest⟩ := h
    exact remain_of_gap hgap.isGap hsolid ⟨rest, rfl, hrest⟩

/-- At the start of a rendering all tokens remain. -/
theorem Renders.remain {ts : List Token} {text : List Char} (h : Renders ts text)
    (hsolid : Solid ts) : Remain ts text := by
  cases ts with
  | nil => exact ⟨hsolid, IsGap.dropBlanks h⟩
  | cons t ts =>
    obtain ⟨gap, rest, rfl, hgap, hrest⟩ := h
    exact remain_of_gap hgap hsolid ⟨rest, rfl, hrest⟩

/-- The first token begins with a character that has a property; or there is none. -/
def Begins (p : Char → Prop) : List Token → Prop
  | [] => True
  | t :: _ => ∃ c rest, t.text = c :: rest ∧ p c

theorem Begins.mono {p q : Char → Prop} {ts : List Token} (h : Begins p ts)
    (hpq : ∀ c, p c → q c) : Begins q ts := by
  cases ts with
  | nil => trivial
  | cons t ts =>
    obtain ⟨c, rest, htext, hc⟩ := h
    exact ⟨c, rest, htext, hpq c hc⟩

theorem Begins.and {p q : Char → Prop} {ts : List Token} (hp : Begins p ts) (hq : Begins q ts) :
    Begins (fun c => p c ∧ q c) ts := by
  cases ts with
  | nil => trivial
  | cons t ts =>
    obtain ⟨c, rest, htext, hc⟩ := hp
    obtain ⟨d, rest', htext', hd⟩ := hq
    cases htext.symm.trans htext'
    exact ⟨c, rest, htext, hc, hd⟩

theorem Begins.ne {p : Char → Prop} {ts : List Token} {c : Char} (h : Begins p ts) (hc : ¬ p c) :
    Begins (· ≠ c) ts :=
  h.mono fun _ hd heq => hc (heq ▸ hd)

theorem begins_mark {p : Char → Prop} {c : Char} {ts : List Token} (h : p c) :
    Begins p (.mark c :: ts) := ⟨c, [], rfl, h⟩

theorem begins_quoted {p : Char → Prop} {c : Char} {text : List Char} {ts : List Token} (h : p c) :
    Begins p (.quoted (c :: text) :: ts) := ⟨c, text, rfl, h⟩

theorem begins_word {w : String} (h : IsWord w) (ts : List Token) :
    Begins (isWordChar ·) (.word w :: ts) := by
  obtain ⟨c, rest, hw⟩ := List.exists_cons_of_ne_nil h.nonempty
  exact ⟨c, rest, hw, h.chars c (by rw [hw]; exact List.mem_cons_self)⟩

theorem Opens.head? {p : Char → Prop} {ts : List Token} {text : List Char} (h : Opens ts text)
    (hp : Begins p ts) : ∀ c ∈ text.head?, p c := by
  intro c hc
  cases ts with
  | nil =>
    cases h
    cases hc
  | cons t ts =>
    obtain ⟨rest, rfl, -⟩ := h
    obtain ⟨d, tail, htext, hd⟩ := hp
    rw [htext] at hc
    cases hc
    exact hd

/-- Behind a token stand a blank, a comment or the next token. -/
theorem Laid.head? {p : Char → Prop} {before : Token} {ts : List Token} {text : List Char}
    (h : Laid before ts text) (hp : Begins p ts) (hblank : ∀ c, isBlank c → p c) (hslash : p '/') :
    ∀ c ∈ text.head?, p c := by
  have hgap : ∀ {gap : List Char}, IsGap gap → ∀ c ∈ gap.head?, p c := by
    intro gap hgap c hc
    cases hgap with
    | nil => cases hc
    | blank hb _ =>
      cases hc
      exact hblank _ hb
    | comment _ _ =>
      cases hc
      exact hslash
  cases ts with
  | nil => exact hgap h
  | cons t ts =>
    obtain ⟨gap, rest, rfl, hsep, hrest⟩ := h
    cases gap with
    | nil =>
      have hopens : Opens (t :: ts) (t.text ++ rest) := ⟨rest, rfl, hrest⟩
      exact hopens.head? hp
    | cons b gap => exact fun c hc => hgap hsep.isGap c hc

/-- Skipping blanks changes nothing. -/
theorem Remain.skip {ts : List Token} {text : List Char} (h : Remain ts text) :
    Remain ts (dropBlanks text) :=
  ⟨h.solid, by rw [dropBlanks_idem]; exact h.opens⟩

/-- A word or a number does not run on. -/
theorem Laid.not_isWordChar {before : Token} {ts : List Token} {text : List Char}
    (h : Laid before ts text) (hbefore : before.isWordLike) (hsolid : Solid ts) :
    ∀ c ∈ text.head?, isWordChar c = false := by
  cases ts with
  | nil => exact IsGap.not_isWordChar h
  | cons t ts =>
    obtain ⟨gap, rest, rfl, hgap, -⟩ := h
    cases gap with
    | cons b gap => exact hgap.isGap.not_isWordChar
    | nil =>
      have hother : t.isWordLike = false :=
        Bool.eq_false_iff.mpr fun ht => hgap.needed hbefore ht rfl
      intro c hc
      rcases hsolid with ⟨d, tail, htext, -, -, hword⟩ | ⟨rfl, -⟩
      · rw [htext] at hc
        cases hc
        exact hword hother
      · cases hc
        decide

end StackScript
