import StackScript.Proofs.Emission.Draft
import StackScript.Proofs.Reading.Loops
import StackScript.Proofs.Source.Numbers

/-!
# Compilers beside readers

A compiler emits instructions where a reader makes a tree. `Emits` says how a compiler ends beside a
reader: if the reader gives something so does the compiler, and a relation between the two results
and states holds; if the reader refuses the text, so does the compiler, with the same complaint
about the same place. It has a rule for every way the two are put together.

Both go through the text in step, the reader by what remains of it and the compiler by a byte
position (`Emits.scan`). Their loops are bounded, by characters and by bytes; since each turn
consumes some of the text neither bound is met (`Emits.loop`).
-/

namespace StackScript

open Lexeme
open Instr (Operands)

variable {α β γ δ : Type}

/-! ## A logic for two programs -/

/-- A compiler does from `c` what a reader does from `r`, with results and states as `Q` says. -/
def Emits (source : String) (x : Reader α) (y : Compiler β) (r : Reading) (c : Compilation)
    (Q : α → β → Reading → Compilation → Prop) : Prop :=
  match x r with
  | .ok a r' => ∃ b c', y source c = .ok b c' ∧ Q a b r' c'
  | .error e _ => ∃ c', y source c = .error ⟨e.complaint, positionOf source e.rest⟩ c'

namespace Compiler

theorem bind_ok {x : Compiler α} {f : α → Compiler β} {source : String} {c c' : Compilation} {a : α}
    (h : x source c = .ok a c') : (x >>= f) source c = f a source c' := by
  change EStateM.bind (x source) (fun a => f a source) c = _
  rw [EStateM.bind, h]

theorem bind_error {x : Compiler α} {f : α → Compiler β} {source : String} {c c' : Compilation}
    {e : Rejection} (h : x source c = .error e c') : (x >>= f) source c = .error e c' := by
  change EStateM.bind (x source) (fun a => f a source) c = _
  rw [EStateM.bind, h]

end Compiler

namespace Emits

variable {source : String} {r r' : Reading} {c c' : Compilation} {x : Reader α} {y : Compiler β}
  {Q : α → β → Reading → Compilation → Prop}

theorem of_ok {a : α} {b : β} (hx : x r = .ok a r') (hy : y source c = .ok b c')
    (h : Q a b r' c') : Emits source x y r c Q := by
  unfold Emits
  rw [hx]
  exact ⟨b, c', hy, h⟩

theorem pure {a : α} {b : β} (h : Q a b r c) :
    Emits source (Pure.pure a : Reader α) (Pure.pure b : Compiler β) r c Q := of_ok rfl rfl h

theorem mono {P : α → β → Reading → Compilation → Prop} (h : Emits source x y r c Q)
    (hQ : ∀ a b r' c', Q a b r' c' → P a b r' c') : Emits source x y r c P := by
  unfold Emits at h ⊢
  cases hx : x r with
  | ok a r' =>
    rw [hx] at h
    obtain ⟨b, c', hy, hQ'⟩ := h
    exact ⟨b, c', hy, hQ a b r' c' hQ'⟩
  | error e r' => rwa [hx] at h

/-- One after the other. What the first reader gave may be used. -/
theorem bind_eq {f : α → Reader γ} {g : β → Compiler δ}
    {P : γ → δ → Reading → Compilation → Prop} (hx : Emits source x y r c Q)
    (hf : ∀ a b r' c', x r = .ok a r' → Q a b r' c' → Emits source (f a) (g b) r' c' P) :
    Emits source (x >>= f) (y >>= g) r c P := by
  have hleft : (x >>= f) r = EStateM.bind x f r := rfl
  unfold Emits at hx ⊢
  rw [hleft, EStateM.bind]
  cases hxr : x r with
  | ok a r' =>
    rw [hxr] at hx
    obtain ⟨b, c', hy, hQ⟩ := hx
    rw [Compiler.bind_ok hy]
    exact hf a b r' c' hxr hQ
  | error e r' =>
    rw [hxr] at hx
    obtain ⟨c', hy⟩ := hx
    exact ⟨c', Compiler.bind_error hy⟩

theorem bind {f : α → Reader γ} {g : β → Compiler δ} {P : γ → δ → Reading → Compilation → Prop}
    (hx : Emits source x y r c Q)
    (hf : ∀ a b r' c', Q a b r' c' → Emits source (f a) (g b) r' c' P) :
    Emits source (x >>= f) (y >>= g) r c P :=
  hx.bind_eq fun a b r' c' _ => hf a b r' c'

/-- Nothing comes after a refusal. -/
theorem abort {f : α → Reader γ} {g : β → Compiler δ} {P : γ → δ → Reading → Compilation → Prop}
    (hx : Emits source x y r c fun _ _ _ _ => False) :
    Emits source (x >>= f) (y >>= g) r c P :=
  hx.bind fun _ _ _ _ h => h.elim

/-- The reader goes on alone, by making something of what it has read. -/
theorem map {f : α → γ} {P : γ → β → Reading → Compilation → Prop}
    (h : Emits source x y r c fun a b r' c' => P (f a) b r' c') :
    Emits source (x >>= fun a => Pure.pure (f a)) y r c P := by
  have hleft : (x >>= fun a => Pure.pure (f a)) r =
      EStateM.bind x (fun a => Pure.pure (f a)) r := rfl
  unfold Emits at h ⊢
  rw [hleft, EStateM.bind]
  cases hx : x r with
  | ok a r' =>
    rw [hx] at h
    exact h
  | error e r' =>
    rw [hx] at h
    exact h

/-- The compiler goes ahead alone. -/
theorem first {z : Compiler γ} {g : γ → Compiler β} {a : γ} (hz : z source c = .ok a c')
    (h : Emits source x (g a) r c' Q) : Emits source x (z >>= g) r c Q := by
  unfold Emits at h ⊢
  rwa [Compiler.bind_ok hz]

/-- The compiler goes on alone after both. -/
theorem last {z : β → Compiler γ} {P : α → γ → Reading → Compilation → Prop}
    (h : Emits source x y r c Q)
    (hz : ∀ a b r' c', Q a b r' c' → ∃ d c'', z b source c' = .ok d c'' ∧ P a d r' c'') :
    Emits source x (y >>= z) r c P := by
  unfold Emits at h ⊢
  cases hx : x r with
  | ok a r' =>
    rw [hx] at h
    obtain ⟨b, c', hy, hQ⟩ := h
    rw [Compiler.bind_ok hy]
    exact hz a b r' c' hQ
  | error e r' =>
    rw [hx] at h
    obtain ⟨c', hy⟩ := h
    exact ⟨c', Compiler.bind_error hy⟩

theorem refuse {complaint : Complaint} (h : c.position = positionOf source r.rest) :
    Emits source (Reader.refuse complaint : Reader α) (Compiler.refuse complaint : Compiler β) r c
      Q := ⟨c, by rw [Compiler.refuse, h]⟩

theorem refuseAt {complaint : Complaint} {place : List Char} {position : Nat}
    (h : position = positionOf source place) :
    Emits source (Reader.refuseAt place complaint : Reader α)
      (Compiler.refuseAt position complaint : Compiler β) r c Q := ⟨c, by rw [h]; rfl⟩

theorem bind_scope {f : Scope → Reader α} (h : Emits source (f r.scope) y r c Q) :
    Emits source (Reader.scope >>= f) y r c Q := h

theorem bind_setScope {s : Scope} {f : Unit → Reader α}
    (h : Emits source (f ()) y { r with scope := s } c Q) :
    Emits source (Reader.setScope s >>= f) y r c Q := h

theorem bind_get_left {f : Reading → Reader α} (h : Emits source (f r) y r c Q) :
    Emits source (get >>= f) y r c Q := h

theorem bind_get {g : Compilation → Compiler β} (h : Emits source x (g c) r c Q) :
    Emits source x (get >>= g) r c Q := h

theorem bind_modify {f : Compilation → Compilation} {g : PUnit → Compiler β}
    (h : Emits source x (g ⟨⟩) r (f c) Q) : Emits source x (modify f >>= g) r c Q := h

/-- A choice. -/
theorem ite {test : Reader Bool} {test' : Compiler Bool} {yes no : Reader α} {yes' no' : Compiler β}
    {P N : Reading → Compilation → Prop}
    (htest : Emits source test test' r c fun b b' r' c' => b' = b ∧ if b then P r' c' else N r' c')
    (hyes : ∀ r' c', P r' c' → Emits source yes yes' r' c' Q)
    (hno : ∀ r' c', N r' c' → Emits source no no' r' c' Q) :
    Emits source (test >>= fun b => if b = true then yes else no)
      (test' >>= fun b => if b = true then yes' else no') r c Q := by
  refine htest.bind fun b b' r' c' ⟨hb, h⟩ => ?_
  subst hb
  cases b' with
  | true => exact hyes r' c' h
  | false => exact hno r' c' h

end Emits

/-! ## Scanning -/

/-- A cursor does what a scanner does, which does not leave its text. -/
structure Scans (x : Cursor α) (s : Scanner α) : Prop where
  follows : Cursor.Follows x s
  suffix : ∀ {text rest : List Char} {a : α}, s text = .ok a rest → rest <:+ text

theorem Scanner.Advances.scans {x : Cursor α} {s : Scanner α} {taken : α → Bool}
    (hfollows : Cursor.Follows x s) (hs : s.Advances taken) : Scans x s := by
  refine ⟨hfollows, fun {text rest a} h => ?_⟩
  have hwent := hs text
  rw [h] at hwent
  exact hwent.1

theorem scans_skipBlanks : Scans .skipBlanks .skipBlanks :=
  Scanner.advances_skipBlanks.scans Cursor.follows_skipBlanks

theorem scans_atEnd : Scans .atEnd .atEnd := Scanner.advances_atEnd.scans Cursor.follows_atEnd

theorem scans_symbol (c : Char) : Scans (.symbol c) (.symbol c) :=
  (Scanner.advances_symbol c).scans (Cursor.follows_symbol c)

theorem scans_keyword {w : String} (hw : w ∈ keywords) : Scans (.word w) (.word w) :=
  (Scanner.advances_word (isWord_of_mem_keywords hw)).scans (Cursor.follows_word w)

theorem scans_identifier : Scans .identifier .identifier :=
  Scanner.advances_identifier.scans Cursor.follows_identifier

theorem scans_binaryOperator : Scans .binaryOperator .binaryOperator :=
  Scanner.advances_binaryOperator.scans Cursor.follows_binaryOperator

theorem scans_unaryOperator : Scans .unaryOperator .unaryOperator :=
  Scanner.advances_unaryOperator.scans Cursor.follows_unaryOperator

theorem scans_string : Scans .string .string := Scanner.advances_string.scans Cursor.follows_string

theorem scans_number : Scans .number .number := Scanner.advances_number.scans Cursor.follows_number

/-- A compiler is where a reader is. -/
structure SamePlace (source : String) (r : Reading) (c : Compilation) : Prop where
  rest : r.rest <:+ source.toList
  position : c.position = positionOf source r.rest

/-- A relation between readings and compilations that is kept as the text is read. -/
structure Moves (source : String) (P : Reading → Compilation → Prop) : Prop where
  place : ∀ {r c}, P r c → SamePlace source r c
  move : ∀ {r c} {rest : List Char}, rest <:+ r.rest → P r c →
    P { r with rest } { c with position := positionOf source rest }

/-- Moving changes no names. -/
theorem Moves.and_scope {source : String} {P : Reading → Compilation → Prop} (h : Moves source P)
    (p : Scope → Prop) : Moves source fun r c => p r.scope ∧ P r c :=
  ⟨fun hP => h.place hP.2, fun hrest hP => ⟨hP.1, h.move hrest hP.2⟩⟩

namespace Emits

variable {source : String} {P : Reading → Compilation → Prop} {r : Reading} {c : Compilation}

theorem scan {x : Cursor α} {s : Scanner α} (hP : Moves source P) (hscan : Scans x s)
    (h : P r c) :
    Emits source (Reader.scan s) (Compiler.scan x) r c fun a b r' c' => b = a ∧ P r' c' := by
  have hfollows := hscan.follows source r.rest (hP.place h).rest
  rw [← (hP.place h).position] at hfollows
  unfold Emits Reader.scan Compiler.scan
  cases hs : s r.rest with
  | ok a rest =>
    rw [hs] at hfollows
    exact ⟨a, { c with position := positionOf source rest }, by rw [hfollows]; rfl, rfl,
      hP.move (hscan.suffix hs) h⟩
  | error e rest =>
    rw [hs] at hfollows
    exact ⟨{ c with position := positionOf source rest }, by rw [hfollows]; rfl⟩

/-- A choice by what is found in the text. -/
theorem iteScan {x : Cursor Bool} {s : Scanner Bool} {yes no : Reader α} {yes' no' : Compiler β}
    {Q : α → β → Reading → Compilation → Prop} (hP : Moves source P) (hscan : Scans x s)
    (h : P r c) (hyes : ∀ r' c', P r' c' → Emits source yes yes' r' c' Q)
    (hno : ∀ r' c', P r' c' → Emits source no no' r' c' Q) :
    Emits source (Reader.scan s >>= fun b => if b = true then yes else no)
      (Compiler.scan x >>= fun b => if b = true then yes' else no') r c Q :=
  ite ((scan hP hscan h).mono fun b b' r' c' ⟨hb, h'⟩ => ⟨hb, by rw [ite_self]; exact h'⟩) hyes hno

theorem expect (hP : Moves source P) (symbol : Char) (h : P r c) :
    Emits source (Reader.expect symbol) (Compiler.expect symbol) r c fun _ _ r' c' => P r' c' :=
  iteScan hP (scans_symbol symbol) h (fun _ _ h' => .pure h') fun _ _ h' =>
    .refuse (hP.place h').position

/-- A name is found at the same place. -/
theorem name (hP : Moves source P) (what : String) (h : P r c) :
    Emits source (Reader.name what) (Compiler.name what) r c fun x y r' c' =>
      y = (x.1, positionOf source x.2) ∧ P r' c' := by
  refine (scan hP scans_skipBlanks h).bind fun _ _ r₁ c₁ ⟨_, h₁⟩ => ?_
  refine .bind_get_left (.bind_get ?_)
  refine (scan hP scans_identifier h₁).bind fun o o' r₂ c₂ ⟨ho, h₂⟩ => ?_
  subst ho
  cases o' with
  | none => exact .refuse (hP.place h₂).position
  | some word =>
    have hposition := (hP.place h₁).position
    change Emits source (if isKeyword word = true then _ else _)
      (if isKeyword word = true then _ else _) r₂ c₂ _
    split
    · exact .refuseAt hposition
    · exact .pure ⟨by rw [hposition], h₂⟩

/-! ## Loops -/

variable {σ : Type}

/-- A turn of a loop with the invariant `I`, which knows the items read so far, after some of them.
-/
def Turn (I : List α → σ → Reading → Compilation → Prop) (done : List α) (s : σ) (o : Option α)
    (o' : Option σ) (r : Reading) (c : Compilation) : Prop :=
  match o, o' with
  | none, none => I done s r c
  | some a, some s' => I (done ++ [a]) s' r c
  | _, _ => False

/-- By induction on the bound for the reader. Both bounds stay larger than what remains of the text,
the one in characters and the other one in bytes. -/
theorem turns {I : List α → σ → Reading → Compilation → Prop} {item : Reader (Option α)}
    {turn : σ → Compiler (Option σ)} (hconsuming : Reader.Consuming item)
    (hturn : ∀ done s r c, I done s r c → Emits source item (turn s) r c (Turn I done s))
    (bound bound' : Nat) {done : List α} {s : σ} (h : I done s r c)
    (hbound : r.rest.length < bound) (hbound' : utf8Length r.rest < bound') :
    Emits source (Reader.many item bound) (Compiler.turns turn bound' s) r c fun as s' r' c' =>
      I (done ++ as) s' r' c' := by
  induction bound generalizing bound' done s r c with
  | zero => exact absurd hbound (Nat.not_lt_zero _)
  | succ bound ih =>
    obtain ⟨bound', rfl⟩ := Nat.exists_eq_add_one.mpr (Nat.zero_lt_of_lt hbound')
    refine (hturn done s r c h).bind_eq fun o o' r₁ c₁ hitem h₁ => ?_
    cases o with
    | none =>
      cases o' with
      | none => exact .pure (by rwa [List.append_nil])
      | some s' => cases h₁
    | some a =>
      cases o' with
      | none => cases h₁
      | some s' =>
        obtain ⟨taken, hne, hrest⟩ := hconsuming r a r₁ hitem
        obtain ⟨d, taken, rfl⟩ := List.exists_cons_of_ne_nil hne
        have hsize : utf8Length r₁.rest < utf8Length r.rest := by
          rw [hrest, utf8Length_append, utf8Length_cons]
          have := d.utf8Size_pos
          omega
        have hlength := hconsuming.length_lt hitem
        refine ((ih bound' h₁ (by omega) (by omega)).mono fun as s'' r₂ c₂ h₂ => ?_).map
        rwa [List.append_assoc] at h₂

section Loops

variable {I : List α → σ → Reading → Compilation → Prop} (hI : ∀ done s, Moves source (I done s))

include hI

theorem loop {item : Reader (Option α)} {turn : σ → Compiler (Option σ)} {s : σ}
    (hconsuming : Reader.Consuming item)
    (hturn : ∀ done s r c, I done s r c → Emits source item (turn s) r c (Turn I done s))
    (h : I [] s r c) : Emits source (Reader.loop item) (Compiler.loop turn s) r c I := by
  have hat := (hI [] s).place h
  have hbytes : utf8Length r.rest < source.utf8ByteSize - c.position + 1 := by
    rw [hat.position, ← utf8Length_toList, positionOf]
    have := utf8Length_le_of_suffix hat.rest
    omega
  exact turns hconsuming hturn _ _ h (Nat.lt_succ_self _) hbytes

/-- Items between which `stop` and `comma` keep the invariant. -/
theorem commaList {item : Reader α} {stop : Reader Bool} {comma : Reader Unit}
    {item' : σ → Compiler σ} {stop' : Compiler Bool} {comma' : Compiler Unit} {s : σ}
    (hconsuming : Reader.Consuming (Reader.commaTurn item stop comma))
    (hitem : ∀ done s r c, I done s r c →
      Emits source item (item' s) r c fun a s' r' c' => I (done ++ [a]) s' r' c')
    (hstop : ∀ done s r c, I done s r c →
      Emits source stop stop' r c fun b b' r' c' => b' = b ∧ I done s r' c')
    (hcomma : ∀ done s r c, I done s r c →
      Emits source comma comma' r c fun _ _ r' c' => I done s r' c')
    (h : I [] s r c) :
    Emits source (Reader.commaList item stop comma) (Compiler.commaList item' stop' comma' s) r c
      I := by
  refine (hitem [] s r c h).bind fun first s₁ r₁ c₁ h₁ => .map ?_
  refine loop (fun done => hI (first :: done)) hconsuming (fun done s r c h => ?_) h₁
  refine ite ((hstop (first :: done) s r c h).mono fun b b' r' c' ⟨hb, h'⟩ =>
    ⟨hb, by rw [ite_self]; exact h'⟩) (fun r' c' h' => .pure h') fun r' c' h' => ?_
  refine (hcomma (first :: done) s r' c' h').bind fun _ _ r₂ c₂ h₂ => ?_
  exact (hitem (first :: done) s r₂ c₂ h₂).bind fun a s' r₃ c₃ h₃ => .pure h₃

theorem parenthesised {item : Reader α} {item' : σ → Compiler σ} {s : σ}
    (hconsuming : Reader.Consuming
      (Reader.commaTurn item (Reader.scan (.symbol ')')) (Reader.expect ',')))
    (hitem : ∀ done s r c, I done s r c →
      Emits source item (item' s) r c fun a s' r' c' => I (done ++ [a]) s' r' c')
    (h : I [] s r c) :
    Emits source (Reader.parenthesised item) (Compiler.parenthesised item' s) r c I :=
  iteScan (hI [] s) (scans_symbol ')') h (fun _ _ h' => .pure h') fun _ _ h' =>
    commaList hI hconsuming hitem (fun done s _ _ h => scan (hI done s) (scans_symbol ')') h)
      (fun done s _ _ h => expect (hI done s) ',' h) h'

end Loops

/-- A loop without a state of its own. -/
theorem repeatWhile {I : List α → Reading → Compilation → Prop} {item : Reader (Option α)}
    {turn : Compiler Bool} (hI : ∀ done, Moves source (I done))
    (hconsuming : Reader.Consuming item)
    (hturn : ∀ done r c, I done r c →
      Emits source item turn r c fun o b r' c' => b = o.isSome ∧ I (done ++ o.toList) r' c')
    (h : I [] r c) :
    Emits source (Reader.loop item) (Compiler.repeatWhile turn) r c
      fun as _ r' c' => I as r' c' := by
  refine loop (fun done _ => hI done) hconsuming (fun done _ r c h => ?_) h
  refine (hturn done r c h).last fun o b r' c' ⟨hb, h'⟩ => ?_
  subst hb
  cases o with
  | none => exact ⟨none, c', rfl, by rwa [Option.toList_none, List.append_nil] at h'⟩
  | some a => exact ⟨some (), c', rfl, h'⟩

end Emits

end StackScript
