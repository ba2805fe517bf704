import StackScript.Proofs.Source.Placed
import StackScript.Script.Reader

/-!
# Readers side by side

Two readers that go through texts in step: `Reader.Paired` says how a reader from `r` and another
one from `s` end. If the first succeeds so does the second, and a relation between the two results
and states holds; if the first refuses its text, a relation `E` says what that means for the second.
It has a rule for every way readers are put together.

What the scanners have to satisfy for two readers to stay in step is collected in `Pace`, for
expressions, and `FullPace`, for whole scripts. Two readers of one text keep the pace with any
invariant of the text that remains (`fullPace_sameText`).
-/

namespace StackScript

open Lexeme

namespace Reader

variable {α β γ δ : Type}

/-- A reader from `r` beside another one from `s`. If the first succeeds, the second does too, and
both end as `Q` says. If the first refuses its text by `e`, then `E e none` allows it whatever the
second does, or the second refuses its text by an `e'` with `E e (some e')`. -/
def Paired (E : Refusal → Option Refusal → Prop) (x : Reader α) (y : Reader β) (r s : Reading)
    (Q : α → β → Reading → Reading → Prop) : Prop :=
  match x r with
  | .ok a r' => ∃ b s', y s = .ok b s' ∧ Q a b r' s'
  | .error e _ => E e none ∨ ∃ e' s', y s = .error e' s' ∧ E e (some e')

/-- Two readers refuse their texts by `e` and `e'`, which `E` allows. -/
def Refuses (E : Refusal → Option Refusal → Prop) (e e' : Refusal) : Prop :=
  E e none ∨ E e (some e')

/-- Both readers gave the same, and a relation holds between their states. -/
def Same (R : Reading → Reading → Prop) (a b : α) (r s : Reading) : Prop := b = a ∧ R r s

/-- Both scanners gave the same, and `R'` holds between their states if they took something, else
`R`. -/
def Took (taken : α → Bool) (R R' : Reading → Reading → Prop) (a b : α) (r s : Reading) : Prop :=
  b = a ∧ if taken a then R' r s else R r s

/-- From related states two readers give the same and come to related states. -/
def InStep (E : Refusal → Option Refusal → Prop) (R : Reading → Reading → Prop)
    (x y : Reader α) : Prop :=
  ∀ r s, R r s → Paired E x y r s (Same R)

variable {E : Refusal → Option Refusal → Prop} {r s : Reading}

namespace Paired

variable {x : Reader α} {y : Reader β} {Q : α → β → Reading → Reading → Prop}

theorem of_ok {a : α} {b : β} {r' s' : Reading} (hx : x r = .ok a r') (hy : y s = .ok b s')
    (h : Q a b r' s') : Paired E x y r s Q := by
  unfold Paired
  rw [hx]
  exact ⟨b, s', hy, h⟩

theorem of_error {e e' : Refusal} {r' s' : Reading} (hx : x r = .error e r')
    (hy : y s = .error e' s') (h : Refuses E e e') : Paired E x y r s Q := by
  unfold Paired
  rw [hx]
  exact h.imp id fun h => ⟨e', s', hy, h⟩

theorem pure {a : α} {b : β} (h : Q a b r s) :
    Paired E (Pure.pure a : Reader α) (Pure.pure b : Reader β) r s Q := of_ok rfl rfl h

theorem mono_eq {P : α → β → Reading → Reading → Prop} (h : Paired E x y r s Q)
    (hQ : ∀ a b r' s', x r = .ok a r' → Q a b r' s' → P a b r' s') : Paired E x y r s P := by
  unfold Paired at h ⊢
  cases hx : x r with
  | ok a r' =>
    rw [hx] at h
    obtain ⟨b, s', hy, hQ'⟩ := h
    exact ⟨b, s', hy, hQ a b r' s' hx hQ'⟩
  | error e r' => rwa [hx] at h

theorem mono {P : α → β → Reading → Reading → Prop} (h : Paired E x y r s Q)
    (hQ : ∀ a b r' s', Q a b r' s' → P a b r' s') : Paired E x y r s P :=
  h.mono_eq fun a b r' s' _ => hQ a b r' s'

/-- More refusals may be allowed. -/
theorem weaken {E' : Refusal → Option Refusal → Prop} (h : Paired E x y r s Q)
    (hE : ∀ e o, E e o → E' e o) : Paired E' x y r s Q := by
  unfold Paired at h ⊢
  cases hx : x r with
  | ok a r' => rwa [hx] at h
  | error e r' =>
    rw [hx] at h
    rcases h with h | ⟨e', s', hy, h⟩
    · exact .inl (hE _ _ h)
    · exact .inr ⟨e', s', hy, hE _ _ h⟩

/-- The second of two readers starts where the first one has come to. -/
theorem bind_eq {f : α → Reader γ} {g : β → Reader δ} {P : γ → δ → Reading → Reading → Prop}
    (hx : Paired E x y r s Q)
    (hf : ∀ a b r' s', x r = .ok a r' → Q a b r' s' → Paired E (f a) (g b) r' s' P) :
    Paired E (x >>= f) (y >>= g) r s P := by
  have hleft : (x >>= f) r = EStateM.bind x f r := rfl
  have hright : (y >>= g) s = EStateM.bind y g s := rfl
  unfold Paired at hx ⊢
  rw [hleft, hright, EStateM.bind, EStateM.bind]
  cases hxr : x r with
  | ok a r' =>
    rw [hxr] at hx
    obtain ⟨b, s', hy, hQ⟩ := hx
    rw [hy]
    exact hf a b r' s' hxr hQ
  | error e r' =>
    rw [hxr] at hx
    rcases hx with halone | ⟨e', s', hy, hboth⟩
    · exact .inl halone
    · refine .inr ⟨e', s', ?_, hboth⟩
      rw [hy]

theorem bind {f : α → Reader γ} {g : β → Reader δ} {P : γ → δ → Reading → Reading → Prop}
    (hx : Paired E x y r s Q)
    (hf : ∀ a b r' s', Q a b r' s' → Paired E (f a) (g b) r' s' P) :
    Paired E (x >>= f) (y >>= g) r s P :=
  hx.bind_eq fun a b r' s' _ => hf a b r' s'

theorem bind_get {f : Reading → Reader α} {g : Reading → Reader β}
    (h : Paired E (f r) (g s) r s Q) : Paired E (get >>= f) (get >>= g) r s Q := h

theorem bind_setScope {t : Scope} {f : Unit → Reader α} {g : Unit → Reader β}
    (h : Paired E (f ()) (g ()) { r with scope := t } { s with scope := t } Q) :
    Paired E (setScope t >>= f) (setScope t >>= g) r s Q := h

theorem refuse {c : Complaint} (h : Refuses E ⟨c, r.rest⟩ ⟨c, s.rest⟩) :
    Paired E (Reader.refuse c : Reader α) (Reader.refuse c : Reader β) r s Q := of_error rfl rfl h

theorem refuseAt {p p' : List Char} {c : Complaint} (h : Refuses E ⟨c, p⟩ ⟨c, p'⟩) :
    Paired E (Reader.refuseAt p c : Reader α) (Reader.refuseAt p' c : Reader β) r s Q :=
  of_error rfl rfl h

/-- A choice between readers, by scanners that took something or not. -/
theorem ite_eq {test test' : Reader Bool} {yes no : Reader α} {yes' no' : Reader β}
    {R R' : Reading → Reading → Prop} (htest : Paired E test test' r s (Took id R R'))
    (hyes : ∀ r' s', test r = .ok true r' → R' r' s' → Paired E yes yes' r' s' Q)
    (hno : ∀ r' s', test r = .ok false r' → R r' s' → Paired E no no' r' s' Q) :
    Paired E (test >>= fun b => if b = true then yes else no)
      (test' >>= fun b => if b = true then yes' else no') r s Q := by
  refine htest.bind_eq fun b b' r' s' hr' ⟨hb, h⟩ => ?_
  subst hb
  cases b' with
  | true => exact hyes r' s' hr' h
  | false => exact hno r' s' hr' h

theorem ite {test test' : Reader Bool} {yes no : Reader α} {yes' no' : Reader β}
    {R R' : Reading → Reading → Prop} (htest : Paired E test test' r s (Took id R R'))
    (hyes : ∀ r' s', R' r' s' → Paired E yes yes' r' s' Q)
    (hno : ∀ r' s', R r' s' → Paired E no no' r' s' Q) :
    Paired E (test >>= fun b => if b = true then yes else no)
      (test' >>= fun b => if b = true then yes' else no') r s Q :=
  htest.ite_eq (fun r' s' _ => hyes r' s') fun r' s' _ => hno r' s'

end Paired

/-! ## What keeps two readers in step -/

/-- What two readers of expressions have to satisfy to stay in step: related states know the same
names, scanners take the same from them and come to states related by `R'`, and refusals by the
readers are allowed. `At` relates the texts from the place of a word on. -/
structure Pace (E : Refusal → Option Refusal → Prop) (At : String → List Char → List Char → Prop)
    (R R' : Reading → Reading → Prop) : Prop where
  scope : ∀ {r s}, R r s → s.scope = r.scope
  weaken : ∀ {r s}, R' r s → R r s
  /-- Loops get enough turns. -/
  turns : ∀ {r s}, R r s → s.rest.length = r.rest.length ∨
    r.rest.length ≤ s.rest.length ∧ ∀ e, E e none
  skipBlanks : ∀ {r s}, R r s → R { r with rest := dropBlanks r.rest }
    { s with rest := dropBlanks s.rest }
  symbol : ∀ {r s} (c : Char), c ≠ ';' → R r s →
    Paired E (scan (.symbol c)) (scan (.symbol c)) r s (Took id R R')
  keyword : ∀ {r s} (w : String), w ∈ keywords → R r s →
    Paired E (scan (.word w)) (scan (.word w)) r s (Took id R R')
  identifier : ∀ {r s}, R r s → Paired E (scan .identifier) (scan .identifier) r s
    fun o o' r' s' => Took Option.isSome R R' o o' r' s' ∧
      ∀ w ∈ o, At w (dropBlanks r.rest) (dropBlanks s.rest)
  binaryOperator : ∀ {r s}, R r s →
    Paired E (scan .binaryOperator) (scan .binaryOperator) r s (Took Option.isSome R R')
  unaryOperator : ∀ {r s}, R r s →
    Paired E (scan .unaryOperator) (scan .unaryOperator) r s (Took Option.isSome R R')
  string : ∀ {r s}, R r s → Paired E (scan .string) (scan .string) r s (Took Option.isSome R R')
  number : ∀ {r s}, R r s → Paired E (scan .number) (scan .number) r s (Took Option.isSome R R')
  refuse : ∀ {r s} {c : Complaint}, c.IsPlain → R r s → Refuses E ⟨c, r.rest⟩ ⟨c, s.rest⟩
  refuseWord : ∀ {c : Complaint} {w : String} {p p' : List Char}, c.word? = some w → At w p p' →
    Refuses E ⟨c, p⟩ ⟨c, p'⟩

/-- What two readers of scripts have to satisfy to stay in step. -/
structure FullPace (E : Refusal → Option Refusal → Prop)
    (At : String → List Char → List Char → Prop) (R R' : Reading → Reading → Prop) : Prop
    extends Pace E At R R' where
  semicolon : ∀ {r s}, R r s →
    Paired E (scan (.symbol ';')) (scan (.symbol ';')) r s (Took id R R')
  atEnd : ∀ {r s}, R r s → Paired E (scan .atEnd) (scan .atEnd) r s (Same R)
  /-- Names may be added, inside or outside a function. -/
  setScope : ∀ {r s} {t : Scope}, t.frame.isSome = r.scope.frame.isSome → R r s →
    R { r with scope := t } { s with scope := t }

/-! ## Readers of one text -/

section SameText

/-- Two readers are at the same place of a text, where `J` holds. -/
def AtOnce (source : List Char) (J : Reading → Prop) (r s : Reading) : Prop :=
  s = r ∧ r.rest <:+ source ∧ J r

/-- A word stands at a place of a text, the same for two readers. -/
def WordAt (source : List Char) (w : String) (p p' : List Char) : Prop :=
  p' = p ∧ p <:+ source ∧ p.takeWhile isWordChar = w.toList

/-- A property of readings that is kept as the text is read and names are added. It turns into `J'`
when a character is consumed. -/
structure Kept (J J' : Reading → Prop) : Prop where
  weaken : ∀ {r}, J' r → J r
  rest : ∀ {r rest}, rest <:+ r.rest → J r → J { r with rest }
  shorter : ∀ {r rest}, rest <:+ r.rest → rest.length < r.rest.length → J r → J' { r with rest }
  scope : ∀ {r t}, t.frame.isSome = r.scope.frame.isSome → J r → J { r with scope := t }

variable {source : List Char} {J J' : Reading → Prop}

/-- A scanner takes the same from the same text. -/
theorem paired_scan {scanner : Scanner α} {taken : α → Bool} (hscan : scanner.Advances taken)
    (hJ : Kept J J')
    (hE : ∀ e, e.OfText source → Refuses E e e) (h : AtOnce source J r s) :
    Paired E (scan scanner) (scan scanner) r s
      (Took taken (AtOnce source J) (AtOnce source J')) := by
  obtain ⟨rfl, hsuffix, hr⟩ := h
  have hwent := hscan s.rest
  cases hs : scanner s.rest with
  | ok a rest =>
    rw [hs] at hwent
    obtain ⟨hrest, hshorter⟩ := hwent
    have hok : scan scanner s = .ok a { s with rest } := by simp only [scan, hs]
    refine .of_ok hok hok ⟨rfl, ?_⟩
    by_cases htaken : taken a = true
    · rw [if_pos htaken]
      exact ⟨rfl, hrest.trans hsuffix, hJ.shorter hrest (hshorter htaken) hr⟩
    · rw [if_neg htaken]
      exact ⟨rfl, hrest.trans hsuffix, hJ.rest hrest hr⟩
  | error e rest =>
    rw [hs] at hwent
    have herror : scan scanner s = .error e { s with rest } := by simp only [scan, hs]
    exact .of_error herror herror (hE e (hwent.of_suffix hsuffix))

theorem takeWhile_of_scan {w : String} {r' : Reading}
    (h : scan .identifier r = .ok (some w) r') :
    (dropBlanks r.rest).takeWhile isWordChar = w.toList := by
  unfold scan at h
  split at h
  · rename_i hscan
    cases h
    exact Scanner.takeWhile_of_identifier hscan
  · cases h

/-- **Two readers of one text keep the pace**, as long as their refusals are allowed. These point at
what they are about. -/
theorem fullPace_sameText (hJ : Kept J J')
    (hE : ∀ e, e.OfText source → Refuses E e e) :
    FullPace E (WordAt source) (AtOnce source J) (AtOnce source J') where
  scope h := congrArg Reading.scope h.1
  weaken h := ⟨h.1, h.2.1, hJ.weaken h.2.2⟩
  turns h := .inl (by rw [h.1])
  skipBlanks h := by
    obtain ⟨rfl, hsuffix, hr⟩ := h
    exact ⟨rfl, (dropBlanks_suffix _).trans hsuffix, hJ.rest (dropBlanks_suffix _) hr⟩
  symbol c _ h := paired_scan (Scanner.advances_symbol c) hJ hE h
  keyword w hw h := paired_scan (Scanner.advances_word (isWord_of_mem_keywords hw)) hJ hE h
  identifier h := (paired_scan Scanner.advances_identifier hJ hE h).mono_eq
    fun o _ _ _ hscan htook => by
      refine ⟨htook, fun w hw => ?_⟩
      obtain ⟨rfl, hsuffix, -⟩ := h
      refine ⟨rfl, (dropBlanks_suffix _).trans hsuffix, ?_⟩
      cases hw
      exact takeWhile_of_scan hscan
  binaryOperator h := paired_scan Scanner.advances_binaryOperator hJ hE h
  unaryOperator h := paired_scan Scanner.advances_unaryOperator hJ hE h
  string h := paired_scan Scanner.advances_string hJ hE h
  number h := paired_scan Scanner.advances_number hJ hE h
  refuse hc h := by
    obtain ⟨rfl, hsuffix, -⟩ := h
    exact hE _ (.of_plain hc hsuffix)
  refuseWord hc h := by
    obtain ⟨rfl, hsuffix, hrun⟩ := h
    exact hE _ (.of_word hc hsuffix hrun)
  semicolon h := paired_scan (Scanner.advances_symbol ';') hJ hE h
  atEnd h := (paired_scan Scanner.advances_atEnd hJ hE h).mono fun _ _ _ _ h => h
  setScope ht h := by
    obtain ⟨rfl, hsuffix, hr⟩ := h
    exact ⟨rfl, hsuffix, hJ.scope ht hr⟩

end SameText

end Reader

end StackScript
