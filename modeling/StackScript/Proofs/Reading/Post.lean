import StackScript.Proofs.Source.Lexeme
import StackScript.Script.Reader

/-!
# Postconditions of readers

`Reader.Post` says what holds after a reader that succeeds, and that a reader that refuses a text
does so with a complaint about the text and not about itself. It has a rule for every way readers
are put together (`Post.bind`, `Post.loop`, `Post.commaList`, ...). What is tracked of the text is
how much of it has been consumed; a loop ends because each of its turns consumes something.
-/

namespace StackScript

/-- A complaint about the text, none about the reader. -/
def Refusal.IsProper (e : Refusal) : Prop := ∀ reason, e.complaint ≠ .internal reason

namespace Reader

variable {α β : Type}

/-- After a reader that succeeds `Q` holds, and if it refuses the text, its complaint is proper. -/
def Post (x : Reader α) (r : Reading) (Q : α → Reading → Prop) : Prop :=
  match x r with
  | .ok a r' => Q a r'
  | .error e _ => e.IsProper

namespace Post

variable {r : Reading} {x : Reader α} {Q R : α → Reading → Prop}

theorem pure {a : α} (h : Q a r) : Post (Pure.pure a : Reader α) r Q := h

theorem of_ok {a : α} {r' : Reading} (hx : x r = .ok a r') (hQ : Q a r') : Post x r Q := by
  unfold Post
  rw [hx]
  exact hQ

theorem holds {a : α} {r' : Reading} (h : Post x r Q) (hx : x r = .ok a r') : Q a r' := by
  unfold Post at h
  rwa [hx] at h

theorem mono (h : Post x r Q) (hQ : ∀ a r', Q a r' → R a r') : Post x r R := by
  unfold Post at h ⊢
  cases hx : x r with
  | ok a r' => exact hQ a r' (by rwa [hx] at h)
  | error e r' => rwa [hx] at h

theorem bind {f : α → Reader β} {R : β → Reading → Prop} (hx : Post x r Q)
    (hf : ∀ a r', Q a r' → Post (f a) r' R) : Post (x >>= f) r R := by
  have hbind : (x >>= f) r = EStateM.bind x f r := rfl
  unfold Post at hx ⊢
  rw [hbind, EStateM.bind]
  cases h : x r with
  | ok a r' => exact hf a r' (by rwa [h] at hx)
  | error e r' => rwa [h] at hx

theorem refuse {c : Complaint} (h : ∀ reason, c ≠ .internal reason) :
    Post (Reader.refuse c : Reader α) r Q := h

theorem refuseAt {place : List Char} {c : Complaint} (h : ∀ reason, c ≠ .internal reason) :
    Post (Reader.refuseAt place c : Reader α) r Q := h

theorem bind_scope {f : Scope → Reader α} (h : Post (f r.scope) r Q) :
    Post (Reader.scope >>= f) r Q := h

theorem bind_get {f : Reading → Reader α} (h : Post (f r) r Q) : Post (get >>= f) r Q := h

theorem bind_setScope {s : Scope} {f : Unit → Reader α} (h : Post (f ()) { r with scope := s } Q) :
    Post (Reader.setScope s >>= f) r Q := h

end Post

/-- A reader went from `r` to `r'`, consumed at least `n` characters and learned no names. -/
def Consumes (n : Nat) (r r' : Reading) : Prop :=
  r'.scope = r.scope ∧ r'.rest.length + n ≤ r.rest.length

theorem Consumes.trans {m n : Nat} {r r' r'' : Reading} (h : Consumes m r r')
    (h' : Consumes n r' r'') : Consumes (m + n) r r'' :=
  ⟨h'.1.trans h.1, by have := h.2; have := h'.2; omega⟩

theorem Consumes.weaken {m n : Nat} {r r' : Reading} (h : Consumes n r r') (hm : m ≤ n) :
    Consumes m r r' :=
  ⟨h.1, by have := h.2; omega⟩

theorem Consumes.refl (r : Reading) : Consumes 0 r r := ⟨rfl, Nat.le_refl _⟩

namespace Post

variable {r : Reading} {x : Reader α} {Q : α → Reading → Prop}

/-! ## Choices and loops -/

/-- A choice between two readers. -/
theorem ite {test : Reader Bool} {yes no : Reader α} {P N : Reading → Prop}
    (htest : Post test r (fun b r' => if b then P r' else N r')) (hyes : ∀ r', P r' → Post yes r' Q)
    (hno : ∀ r', N r' → Post no r' Q) :
    Post (test >>= fun b => if b = true then yes else no) r Q := by
  refine htest.bind fun b r' h => ?_
  cases b with
  | true => exact hyes r' h
  | false => exact hno r' h

/-- What holds after a turn of a loop with invariant `I`. The items are described from the end of
the loop: `M` holds of none after a last turn, and a turn that reads an item adds it in front. -/
def Turn (I : Reading → Prop) (M : Reading → List α → Reading → Prop) (r : Reading) :
    Option α → Reading → Prop
  | none, r' => M r [] r'
  | some a, r' => r'.rest.length < r.rest.length ∧ I r' ∧
      ∀ as r'', M r' as r'' → M r (a :: as) r''

/-- Each turn of a loop that reads an item consumes something, so the turns suffice. -/
theorem many {item : Reader (Option α)} {I : Reading → Prop} {M : Reading → List α → Reading → Prop}
    (hitem : ∀ r, I r → Post item r (Turn I M r)) (turns : Nat) (hI : I r)
    (hturns : r.rest.length < turns) : Post (Reader.many item turns) r (M r) := by
  induction turns generalizing r with
  | zero => exact absurd hturns (Nat.not_lt_zero _)
  | succ turns ih =>
    refine (hitem r hI).bind fun o r' h => ?_
    cases o with
    | none => exact h
    | some a =>
      obtain ⟨hlt, hI', hM⟩ := h
      exact (ih hI' (by omega)).bind fun as r'' has => hM as r'' has

theorem loop {item : Reader (Option α)} {I : Reading → Prop} {M : Reading → List α → Reading → Prop}
    (hitem : ∀ r, I r → Post item r (Turn I M r)) (hI : I r) : Post (Reader.loop item) r (M r) :=
  many hitem _ hI (Nat.lt_succ_self _)

end Post

/-! ## Scanners -/

section Scan

variable {r : Reading} {recognise : List Char → Option (α × List Char)}

theorem scan_take?_some {a : α} {rest : List Char}
    (h : recognise (Lexeme.dropBlanks r.rest) = some (a, rest)) :
    scan (.take? recognise) r = .ok (some a) { r with rest } := by
  simp only [scan, Scanner.take?, h]

theorem scan_take?_none (h : recognise (Lexeme.dropBlanks r.rest) = none) :
    scan (.take? recognise) r = .ok none { r with rest := Lexeme.dropBlanks r.rest } := by
  simp only [scan, Scanner.take?, h]

theorem scan_isSome_some {a : α} {rest : List Char}
    (h : recognise (Lexeme.dropBlanks r.rest) = some (a, rest)) :
    scan (Option.isSome <$> .take? recognise) r = .ok true { r with rest } := by
  have hmap : (Option.isSome <$> Scanner.take? recognise) r.rest = .ok true rest := by
    show EStateM.map _ _ _ = _
    simp only [EStateM.map, Scanner.take?, h, Option.isSome_some]
  simp only [scan, hmap]

theorem scan_isSome_none (h : recognise (Lexeme.dropBlanks r.rest) = none) :
    scan (Option.isSome <$> .take? recognise) r =
      .ok false { r with rest := Lexeme.dropBlanks r.rest } := by
  have hmap : (Option.isSome <$> Scanner.take? recognise) r.rest =
      .ok false (Lexeme.dropBlanks r.rest) := by
    show EStateM.map _ _ _ = _
    simp only [EStateM.map, Scanner.take?, h, Option.isSome_none]
  simp only [scan, hmap]

namespace Post

/-- A scanner took something with a property and consumed at least `n` characters, or it took
nothing. -/
def Took (P : α → Prop) (n : Nat) (r : Reading) : Option α → Reading → Prop
  | none, r' => Consumes 0 r r'
  | some a, r' => Consumes n r r' ∧ P a

theorem take? (P : α → Prop) (n : Nat)
    (h : ∀ text a rest, recognise text = some (a, rest) → rest.length + n ≤ text.length ∧ P a) :
    Post (scan (.take? recognise)) r (Took P n r) := by
  have hblanks := Lexeme.length_dropBlanks r.rest
  cases hrec : recognise (Lexeme.dropBlanks r.rest) with
  | none => exact of_ok (scan_take?_none hrec) ⟨rfl, hblanks⟩
  | some found =>
    obtain ⟨hlen, hP⟩ := h _ _ _ hrec
    exact of_ok (scan_take?_some hrec) ⟨⟨rfl, Nat.le_trans hlen hblanks⟩, hP⟩

theorem isSome_take? {n : Nat}
    (h : ∀ text a rest, recognise text = some (a, rest) → rest.length + n ≤ text.length) :
    Post (scan (Option.isSome <$> .take? recognise)) r
      (fun b r' => if b then Consumes n r r' else Consumes 0 r r') := by
  have hblanks := Lexeme.length_dropBlanks r.rest
  cases hrec : recognise (Lexeme.dropBlanks r.rest) with
  | none => exact of_ok (scan_isSome_none hrec) ⟨rfl, hblanks⟩
  | some found => exact of_ok (scan_isSome_some hrec) ⟨rfl, Nat.le_trans (h _ _ _ hrec) hblanks⟩

theorem symbol (c : Char) :
    Post (scan (.symbol c)) r (fun b r' => if b then Consumes 1 r r' else Consumes 0 r r') :=
  isSome_take? fun text d rest h => by
    rw [Lexeme.symbol?_eq_some h]
    exact Nat.le_refl _

theorem word (w : String) :
    Post (scan (.word w)) r
      (fun b r' => if b then Consumes w.toList.length r r' else Consumes 0 r r') :=
  isSome_take? fun text w' rest h => by
    rw [Lexeme.word?_eq_some h, List.length_append]
    omega

theorem identifier : Post (scan .identifier) r (Took Lexeme.IsWord 1 r) :=
  take? _ _ fun text w rest h => by
    obtain ⟨rfl, hword⟩ := Lexeme.identifier?_eq_some h
    have := List.length_pos_iff.mpr hword.nonempty
    refine ⟨?_, hword⟩
    rw [List.length_append]
    omega

theorem binaryOperator : Post (scan .binaryOperator) r (Took (· ∈ Operator.binary) 1 r) :=
  take? _ _ fun text op rest h => by
    obtain ⟨hop, rfl⟩ := Lexeme.binaryOperator?_eq_some h
    have hsymbol : ∀ op ∈ Operator.binary, 0 < op.symbol.toList.length := by decide
    have := hsymbol op hop
    refine ⟨?_, hop⟩
    rw [List.length_append]
    omega

theorem unaryOperator : Post (scan .unaryOperator) r (Took (·.isUnary) 1 r) :=
  take? _ _ fun text op rest h => by
    obtain ⟨hop, c, rfl⟩ := Lexeme.unaryOperator?_eq_some h
    exact ⟨Nat.le_refl _, hop⟩

theorem skipBlanks : Post (scan .skipBlanks) r (fun _ r' => Consumes 0 r r') :=
  of_ok rfl ⟨rfl, Lexeme.length_dropBlanks r.rest⟩

theorem atEnd : Post (scan .atEnd) r (fun _ r' => Consumes 0 r r') :=
  of_ok rfl ⟨rfl, Lexeme.length_dropBlanks r.rest⟩

/-- What holds after a reader that runs a scanner, by the result of the scanner. -/
def After (r : Reading) (Q : α → Reading → Prop) : EStateM.Result Refusal (List Char) α → Prop
  | .ok a rest => Q a { r with rest }
  | .error e _ => e.IsProper

theorem scan {s : Scanner α} {Q : α → Reading → Prop} (h : After r Q (s r.rest)) :
    Post (Reader.scan s) r Q := by
  unfold Post Reader.scan
  cases hs : s r.rest with
  | ok a rest => rwa [hs] at h
  | error e rest => rwa [hs] at h

theorem number : Post (Reader.scan .number) r (Took (fun _ => True) 1 r) := by
  have hblanks := Lexeme.length_dropBlanks r.rest
  refine scan ?_
  simp only [Scanner.number]
  cases hn : Literal.numeral? (Lexeme.dropBlanks r.rest) with
  | none => exact ⟨rfl, hblanks⟩
  | some found =>
    obtain ⟨n, rest⟩ := found
    have hlen : rest.length < (Lexeme.dropBlanks r.rest).length := Literal.numeral?_length hn
    simp only
    cases n.value? with
    | none => exact fun _ h => by cases h
    | some v => exact ⟨⟨rfl, Nat.le_trans hlen hblanks⟩, trivial⟩

/-- The end of a string literal, if it is shorter than what remains. -/
theorem endString {start : List Char} {x : Except Literal.StringError (List Char × List Char)}
    (h : ∀ s rest, x = .ok (s, rest) → rest.length + 1 ≤ r.rest.length) :
    After r (Took (fun _ => True) 1 r) (Scanner.endString start x) := by
  match x, h with
  | .ok (s, rest), h => exact ⟨⟨rfl, h s rest rfl⟩, trivial⟩
  | .error .unterminated, _ => exact fun _ h => by cases h
  | .error (.badEscape c rest), _ => exact fun _ h => by cases h

theorem string : Post (Reader.scan .string) r (Took (fun _ => True) 1 r) := by
  have hblanks := Lexeme.length_dropBlanks r.rest
  refine scan ?_
  simp only [Scanner.string]
  split
  · rename_i rest hstart
    rw [hstart] at hblanks
    exact endString fun s rest' h => by
      have := Literal.plainString_length rest h
      simp only [List.length_cons] at hblanks
      omega
  · rename_i rest hstart
    rw [hstart] at hblanks
    exact endString fun s rest' h => by
      have := Literal.rawString_length rest h
      simp only [List.length_cons] at hblanks
      omega
  · exact fun _ h => by cases h
  · exact ⟨rfl, hblanks⟩

end Post

end Scan

end Reader

end StackScript
