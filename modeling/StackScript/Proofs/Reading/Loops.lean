import StackScript.Proofs.Reading.InStep

/-!
# The loops of the grammar

Each turn of each loop of the grammar that gives an item consumes some of the text
(`LoopOf.consuming`), so that the bound on the turns of a `loop` is never met.
-/

namespace StackScript

namespace Reader

variable {α : Type}

/-- Each turn that gives an item consumes a piece of the text. -/
def Consuming (turn : Reader (Option α)) : Prop :=
  ∀ r a r', turn r = .ok (some a) r' → ∃ taken, taken ≠ [] ∧ r.rest = taken ++ r'.rest

theorem Consuming.length_lt {turn : Reader (Option α)} (hturn : Consuming turn) {r r' : Reading}
    {a : α} (h : turn r = .ok (some a) r') : r'.rest.length < r.rest.length := by
  obtain ⟨taken, hne, hrest⟩ := hturn r a r' h
  rw [hrest, List.length_append]
  exact Nat.lt_add_of_pos_left (List.length_pos_iff.mpr hne)

/-- Fewer than `n` characters remain. -/
def Short (n : Nat) (r : Reading) : Prop := r.rest.length < n

section Remaining

variable {source : List Char}

theorem short_kept (n : Nat) : Kept (Short n) (Short n) where
  weaken h := h
  rest hrest h := Nat.lt_of_le_of_lt hrest.length_le h
  shorter hrest _ h := Nat.lt_of_le_of_lt hrest.length_le h
  scope _ h := h

theorem short_shorter (n : Nat) : Kept (Short (n + 1)) (Short n) where
  weaken h := Nat.lt_succ_of_lt h
  rest hrest h := Nat.lt_of_le_of_lt hrest.length_le h
  shorter _ hshorter h := Nat.lt_of_lt_of_le hshorter (Nat.le_of_lt_succ h)
  scope _ h := h

theorem atOnce_short_succ {n : Nat} {r s : Reading} (h : AtOnce source (Short n) r s) :
    AtOnce source (Short (n + 1)) r s := ⟨h.1, h.2.1, Nat.lt_succ_of_lt h.2.2⟩

end Remaining

/-- The loops of the grammar, by their turns. -/
inductive LoopOf (settings : Settings) : {α : Type} → Reader (Option α) → Prop
  | operators (levels : Nat) : LoopOf settings (continuation (expression settings levels))
  | arguments (levels : Nat) :
    LoopOf settings (commaTurn (expression settings levels) (scan (.symbol ')')) (expect ','))
  | parameters : LoopOf settings (commaTurn parameter (scan (.symbol ')')) (expect ','))
  | declared :
    LoopOf settings
      (commaTurn (declaration settings) (do return !(← scan (.symbol ','))) (return ()))
  | declarations : LoopOf settings (declarationGroup settings)
  | block (levels : Nat) :
    LoopOf settings
      (blockTurn (statementWith settings (expression settings levels) (body settings levels)))
  | functions : LoopOf settings (functionTurn settings)
  | statements : LoopOf settings (statementTurn settings)

section Commas

variable {E : Refusal → Option Refusal → Prop} {At : String → List Char → List Char → Prop}
  {R R' : Reading → Reading → Prop} {r s : Reading} {item : Reader α}

/-- In parentheses the comma is read where the list does not end. -/
theorem Paired.parenthesisTurn (L : FullPace E At R R') (hitem : InStep E R' item item)
    (h : R r s) :
    Paired E (Reader.commaTurn item (scan (.symbol ')')) (expect ','))
      (Reader.commaTurn item (scan (.symbol ')')) (expect ',')) r s (Took Option.isSome R R') := by
  refine commaTurn hitem ((L.symbol ')' (by decide) h).mono fun b b' r₁ s₁ ⟨hb, h₁⟩ => ⟨hb, ?_⟩)
  cases b with
  | true => exact L.weaken h₁
  | false => exact L.expect ',' h₁

/-- Behind `var` the list ends where no comma is read. -/
theorem Paired.declaredTurn (L : FullPace E At R R') (hitem : InStep E R' item item) (h : R r s) :
    Paired E (Reader.commaTurn item (do return !(← scan (.symbol ','))) (return ()))
      (Reader.commaTurn item (do return !(← scan (.symbol ','))) (return ())) r s
      (Took Option.isSome R R') := by
  refine commaTurn hitem ((L.symbol ',' (by decide) h).bind fun b b' r₁ s₁ ⟨hb, h₁⟩ => ?_)
  subst hb
  cases b' with
  | true =>
    have hcomma : Paired E (return ()) (return ()) r₁ s₁ (Same R') := .pure ⟨rfl, h₁⟩
    exact .pure ⟨rfl, hcomma⟩
  | false => exact .pure ⟨rfl, h₁⟩

end Commas

/-- Readers beside each other refuse their texts alike. -/
def Alike (e : Refusal) (o : Option Refusal) : Prop := o = some e

section SameReader

variable {source : List Char} {n : Nat} {r s : Reading} {settings : Settings}

theorem alike_pace {J J' : Reading → Prop} (hJ : Kept J J') :
    FullPace Alike (WordAt source) (AtOnce source J) (AtOnce source J') :=
  fullPace_sameText hJ fun _ _ => .inr rfl

theorem alike_deep (h : AtOnce source (Short n) r s) :
    Refuses Alike ⟨.nestingTooDeep settings.maxNesting, r.rest⟩
      ⟨.nestingTooDeep settings.maxNesting, s.rest⟩ := by
  rw [h.1]
  exact .inr rfl

theorem alike_expression (levels : Nat) :
    InStep Alike (AtOnce source (Short n)) (expression settings levels)
      (expression settings levels) :=
  .expression (alike_pace (short_kept n)).toPace alike_deep levels

theorem alike_body (levels : Nat) :
    InStep Alike (AtOnce source (Short n)) (body settings levels) (body settings levels) :=
  .body (alike_pace (short_kept n)) (fun _ => .inl rfl) alike_deep levels

theorem alike_statementWith (levels : Nat) (h : AtOnce source (Short (n + 1)) r s) :
    Paired Alike (statementWith settings (expression settings levels) (body settings levels))
      (statementWith settings (expression settings levels) (body settings levels)) r s
      (Same (AtOnce source (Short n))) :=
  .statementWith (alike_pace (short_shorter n)) (alike_pace (short_kept n))
    (alike_expression levels) (.target (alike_pace (short_kept n)) fun _ => .inl rfl)
    (alike_body levels) h

theorem alike_function :
    InStep Alike (AtOnce source (Short n)) (function settings) (function settings) :=
  .function (alike_pace (short_kept n)) (alike_pace (short_kept n))
    (fun _ h => ⟨by rw [h.1], h.2⟩) (fun _ h => ⟨by rw [h.1], h.2⟩) (alike_expression _)
    (.statement (alike_pace (short_kept n)) rfl (fun _ => .inl rfl) alike_deep)

/-- A turn of each loop, beside itself: where it gives an item, fewer characters remain. -/
theorem LoopOf.took {turn : Reader (Option α)} (hturn : LoopOf settings turn)
    (h : AtOnce source (Short (n + 1)) r s) :
    Paired Alike turn turn r s
      (Took Option.isSome (AtOnce source (Short (n + 1))) (AtOnce source (Short n))) := by
  have L : FullPace Alike (WordAt source) _ _ := alike_pace (short_shorter n)
  have L' : FullPace Alike (WordAt source) _ _ := alike_pace (short_kept n)
  cases hturn with
  | operators levels => exact .continuation L.toPace L'.toPace (alike_expression levels) h
  | arguments levels => exact .parenthesisTurn L (alike_expression levels) h
  | parameters => exact .parenthesisTurn L (.parameter L') h
  | declared => exact .declaredTurn L (.declaration L' (alike_expression _)) h
  | declarations => exact .declarationGroup L' (alike_expression _) L h
  | block levels => exact .blockTurn L (fun _ _ => alike_statementWith levels) h
  | functions => exact .functionTurn L alike_function h
  | statements => exact .statementTurn L (fun _ _ => alike_statementWith _) h

theorem LoopOf.consuming {turn : Reader (Option α)} (hturn : LoopOf settings turn) :
    Consuming turn := by
  intro r a r' hr'
  have htook := hturn.took ⟨rfl, List.suffix_refl r.rest, Nat.lt_succ_self _⟩
  unfold Paired at htook
  rw [hr'] at htook
  obtain ⟨b, s', -, -, -, ⟨taken, htaken⟩, hshort⟩ := htook
  refine ⟨taken, ?_, htaken.symm⟩
  rintro rfl
  rw [← htaken] at hshort
  exact absurd hshort (Nat.lt_irrefl _)

end SameReader

end Reader

end StackScript
