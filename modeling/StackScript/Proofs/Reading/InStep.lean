import StackScript.Proofs.Reading.Pace

/-!
# Grammars in step

The rules of the grammar, read twice side by side. If the scanners keep the pace and the readers for
what is inside a rule stay in step, then the rule does: `InStep.expression`, `InStep.body` and
`InStep.script` put this together. The two readings may differ in their settings; what these decide,
when nesting is too deep and what an assignment does with an unknown name, is left to hypotheses.
-/

namespace StackScript

open Lexeme

namespace Reader

variable {α β : Type} {E : Refusal → Option Refusal → Prop}
  {At : String → List Char → List Char → Prop} {R R' : Reading → Reading → Prop} {r s : Reading}

/-! ## Building blocks -/

theorem Paired.bind_scope {f : Scope → Reader α} {g : Scope → Reader β}
    {Q : α → β → Reading → Reading → Prop} (hscope : s.scope = r.scope)
    (h : Paired E (f r.scope) (g r.scope) r s Q) : Paired E (scope >>= f) (scope >>= g) r s Q := by
  have h' : Paired E (f r.scope) (g s.scope) r s Q := by rwa [hscope]
  exact h'

/-- Readers in step give the same when the same is made of what they read. -/
theorem Paired.map {x y : Reader α} (f : α → β) (h : Paired E x y r s (Same R)) :
    Paired E (do return f (← x)) (do return f (← y)) r s (Same R) :=
  h.bind fun a a' r' s' ⟨ha, h'⟩ => .pure ⟨by rw [ha], h'⟩

/-- What both scanners gave, when it does not matter whether they took something. -/
theorem Took.same {taken : α → Bool} {a b : α} (h : Took taken R R' a b r s)
    (hweaken : ∀ {r s}, R' r s → R r s) : Same R a b r s := by
  obtain ⟨hb, h⟩ := h
  refine ⟨hb, ?_⟩
  split at h
  · exact hweaken h
  · exact h

theorem Same.took {a b : α} (h : Same R a b r s) (taken : α → Bool) : Took taken R R a b r s :=
  ⟨h.1, by rw [ite_self]; exact h.2⟩

theorem Same.weaken {a b : α} (h : Same R' a b r s) (hweaken : ∀ {r s}, R' r s → R r s) :
    Same R a b r s := ⟨h.1, hweaken h.2⟩

section Loops

variable {E : Reading → Refusal → Option Refusal → Prop} {item item' : Reader (Option α)}
  (hitem : ∀ {r s}, R r s → Paired (E r) item item' r s fun o o' r' s' =>
    Same R o o' r' s' ∧ (o.isSome → ∀ e x, E r' e x → E r e x))
  (hrefuse : ∀ {r s} {c : Complaint}, c.IsPlain → R r s → Refuses (E r) ⟨c, r.rest⟩ ⟨c, s.rest⟩)

include hitem hrefuse

/-- A loop, in which the refusals that are allowed may depend on where it has come to: what is
allowed after an item was so before it. The second loop may have more turns, if it does not matter
how the first one refuses its text. -/
theorem Paired.many (turns turns' : Nat)
    (hturns : turns' = turns ∨ turns ≤ turns' ∧ ∀ r e, E r e none) (h : R r s) :
    Paired (E r) (Reader.many item turns) (Reader.many item' turns') r s (Same R) := by
  induction turns generalizing turns' r s with
  | zero =>
    rcases hturns with rfl | ⟨-, halone⟩
    · exact .refuse (hrefuse trivial h)
    · exact .inl (halone _ _)
  | succ turns ih =>
    obtain ⟨turns', rfl⟩ : ∃ n, turns' = n + 1 := ⟨turns' - 1, by omega⟩
    refine (hitem h).bind fun o o' r₁ s₁ ⟨⟨ho, h₁⟩, hallowed⟩ => ?_
    subst ho
    cases o' with
    | none => exact .pure ⟨rfl, h₁⟩
    | some a =>
      have hrest := ih turns' (hturns.imp (by omega) fun h => ⟨by omega, h.2⟩) h₁
      refine (hrest.weaken (hallowed rfl)).bind fun as as' r₂ s₂ ⟨has, h₂⟩ => .pure ⟨?_, h₂⟩
      rw [has]

theorem Paired.loop (hturns : s.rest.length = r.rest.length ∨
      r.rest.length ≤ s.rest.length ∧ ∀ r e, E r e none) (h : R r s) :
    Paired (E r) (Reader.loop item) (Reader.loop item') r s (Same R) :=
  Paired.many hitem hrefuse (r.rest.length + 1) (s.rest.length + 1)
    (hturns.imp (by omega) fun h => ⟨by omega, h.2⟩) h

end Loops

/-- A turn that gives an item gives what the reader for it does. -/
theorem Paired.someItem {x y : Reader α} (h : Paired E x y r s (Same R')) :
    Paired E (do return some (← x)) (do return some (← y)) r s
      (Took Option.isSome R R') :=
  h.bind fun a a' r' s' ⟨ha, h'⟩ => .pure ⟨by rw [ha], h'⟩

/-- A turn of a list with commas. Before the item both readers have come to states related by `R'`,
by looking for the end or by the comma. -/
theorem Paired.commaTurn {item item' : Reader α} {stop stop' : Reader Bool}
    {comma comma' : Reader Unit} (hitem : InStep E R' item item')
    (hstop : Paired E stop stop' r s fun b b' r₁ s₁ => b' = b ∧
      if b then R r₁ s₁ else Paired E comma comma' r₁ s₁ (Same R')) :
    Paired E (Reader.commaTurn item stop comma) (Reader.commaTurn item' stop' comma') r s
      (Took Option.isSome R R') := by
  refine hstop.bind fun b b' r₁ s₁ ⟨hb, h₁⟩ => ?_
  subst hb
  cases b' with
  | true => exact .pure ⟨rfl, h₁⟩
  | false =>
    refine Paired.bind (h₁ : Paired E comma comma' r₁ s₁ (Same R')) fun _ _ r₂ s₂ ⟨_, h₂⟩ => ?_
    exact (hitem r₂ s₂ h₂).someItem

namespace InStep

theorem loop (L : Pace E At R R') {item item' : Reader (Option α)} (hitem : InStep E R item item') :
    InStep E R (Reader.loop item) (Reader.loop item') := fun _ _ h =>
  Paired.loop (E := fun _ => E)
    (fun h => (hitem _ _ h).mono fun _ _ _ _ h => ⟨h, fun _ _ _ h => h⟩) L.refuse
    ((L.turns h).imp_right fun h => ⟨h.1, fun _ => h.2⟩) h

theorem commaList (L : Pace E At R R') {item item' : Reader α} {stop stop' : Reader Bool}
    {comma comma' : Reader Unit} (hitem : InStep E R item item') (hstop : InStep E R stop stop')
    (hcomma : InStep E R comma comma') :
    InStep E R (Reader.commaList item stop comma) (Reader.commaList item' stop' comma') := by
  intro r s h
  refine (hitem r s h).bind fun a a' r₁ s₁ ⟨ha, h₁⟩ => ?_
  subst ha
  refine (loop L (fun r s h => ?_) r₁ s₁ h₁).map _
  refine (Paired.commaTurn hitem ((hstop r s h).mono fun b b' r₁ s₁ ⟨hb, h₁⟩ => ⟨hb, ?_⟩)).mono
    fun _ _ _ _ h => h.same id
  cases b with
  | true => exact h₁
  | false => exact hcomma r₁ s₁ h₁

end InStep

/-- A character that both scanners look for is there for both or for none. -/
theorem paired_expect {c : Char} (hrefuse : ∀ {r s} {c : Complaint}, c.IsPlain → R r s →
      Refuses E ⟨c, r.rest⟩ ⟨c, s.rest⟩)
    (hsymbol : Paired E (scan (.symbol c)) (scan (.symbol c)) r s (Took id R R')) :
    Paired E (expect c) (expect c) r s (Same R') :=
  hsymbol.ite (fun _ _ h => .pure ⟨rfl, h⟩) fun _ _ h => .refuse (hrefuse trivial h)

namespace Pace

theorem expect (L : Pace E At R R') {c : Char} (hc : c ≠ ';') (h : R r s) :
    Paired E (Reader.expect c) (Reader.expect c) r s (Same R') :=
  paired_expect L.refuse (L.symbol c hc h)

/-- A name stands at related places. -/
theorem name (L : Pace E At R R') (what : String) (h : R r s) :
    Paired E (Reader.name what) (Reader.name what) r s fun x y r' s' =>
      y.1 = x.1 ∧ At x.1 x.2 y.2 ∧ R' r' s' := by
  have hskip : Paired E (scan .skipBlanks) (scan .skipBlanks) r s fun _ _ r₁ s₁ =>
      r₁ = { r with rest := dropBlanks r.rest } ∧ s₁ = { s with rest := dropBlanks s.rest } :=
    .of_ok rfl rfl ⟨rfl, rfl⟩
  refine hskip.bind fun _ _ r₁ s₁ ⟨hr₁, hs₁⟩ => ?_
  subst hr₁ hs₁
  refine .bind_get ((L.identifier (L.skipBlanks h)).bind fun o o' r₂ s₂ ⟨⟨ho, h₂⟩, hat⟩ => ?_)
  subst ho
  cases o' with
  | none => exact .refuse (L.refuse trivial h₂)
  | some w =>
    have hat := hat w rfl
    simp only [dropBlanks_idem] at hat
    show Paired E (if isKeyword w = true then _ else _) (if isKeyword w = true then _ else _)
      r₂ s₂ _
    split
    · exact .refuseAt (L.refuseWord rfl hat)
    · exact .pure ⟨rfl, hat, h₂⟩

end Pace

theorem InStep.parenthesised (L : Pace E At R R) {item item' : Reader α}
    (hitem : InStep E R item item') :
    InStep E R (Reader.parenthesised item) (Reader.parenthesised item') := by
  intro r s h
  refine (L.symbol ')' (by decide) h).ite (fun r₁ s₁ h₁ => .pure ⟨rfl, h₁⟩) fun r₁ s₁ h₁ => ?_
  refine InStep.commaList L hitem (fun r s h => ?_) (fun r s h => ?_) r₁ s₁ h₁
  · exact (L.symbol ')' (by decide) h).mono fun _ _ _ _ h => h.same L.weaken
  · exact L.expect (by decide) h

/-! ## Expressions -/

section Expressions

variable {inner inner' : Reader Expr} (L : Pace E At R R') (L' : Pace E At R' R')
  (hinner : InStep E R' inner inner')

include L' hinner

theorem InStep.call {name : String} {p p' : List Char} (hat : At name p p') :
    InStep E R' (Reader.call inner name p) (Reader.call inner' name p') := by
  intro r s h
  refine .bind_scope (L'.scope h) ?_
  cases r.scope.function? name with
  | none => exact .refuseAt (L'.refuseWord rfl hat)
  | some found =>
    obtain ⟨callee, arity⟩ := found
    refine (InStep.parenthesised L' hinner r s h).bind fun args args' r₁ s₁ ⟨hargs, h₁⟩ => ?_
    subst hargs
    show Paired E (if args'.length = arity then _ else _) (if args'.length = arity then _ else _)
      r₁ s₁ _
    split
    · exact .pure ⟨rfl, h₁⟩
    · exact .refuseAt (L'.refuseWord rfl hat)

include L

namespace Paired

theorem reference (h : R r s) :
    Paired E (Reader.reference inner) (Reader.reference inner') r s (Same R') := by
  refine (L.name "operand" h).bind fun (name, p) (name', p') r₁ s₁ ⟨hname, hat, h₁⟩ => ?_
  cases hname
  refine (L'.symbol '(' (by decide) h₁).ite (fun r₂ s₂ h₂ => ?_) fun r₂ s₂ h₂ => ?_
  · refine (InStep.call L' hinner hat r₂ s₂ h₂).bind fun call call' r₃ s₃ ⟨hcall, h₃⟩ => ?_
    subst hcall
    exact .pure ⟨rfl, h₃⟩
  · refine .bind_scope (L'.scope h₂) ?_
    cases r₂.scope.place? name with
    | none => exact .refuseAt (L'.refuseWord rfl hat)
    | some place => exact .pure ⟨rfl, h₂⟩

theorem primary (h : R r s) :
    Paired E (Reader.primary inner) (Reader.primary inner') r s (Same R') := by
  refine (L.symbol '(' (by decide) h).ite (fun r₁ s₁ h₁ => ?_) fun r₁ s₁ h₁ => ?_
  · refine (hinner r₁ s₁ h₁).bind fun e e' r₂ s₂ ⟨he, h₂⟩ => ?_
    exact (L'.expect (by decide) h₂).bind fun _ _ r₃ s₃ ⟨_, h₃⟩ => .pure ⟨by rw [he], h₃⟩
  refine (L.string h₁).bind fun found found' r₂ s₂ ⟨hfound, h₂⟩ => ?_
  subst hfound
  cases found' with
  | some text => exact .pure ⟨rfl, h₂⟩
  | none =>
  refine (L.number h₂).bind fun found found' r₃ s₃ ⟨hfound, h₃⟩ => ?_
  subst hfound
  cases found' with
  | some v => exact .pure ⟨rfl, h₃⟩
  | none =>
  refine (L.keyword "true" (by decide) h₃).ite (fun r₄ s₄ h₄ => .pure ⟨rfl, h₄⟩) fun r₄ s₄ h₄ => ?_
  refine (L.keyword "false" (by decide) h₄).ite (fun r₅ s₅ h₅ => .pure ⟨rfl, h₅⟩) fun r₅ s₅ h₅ => ?_
  exact reference L L' hinner h₅

theorem operand (h : R r s) :
    Paired E (Reader.operand inner) (Reader.operand inner') r s (Same R') := by
  refine (L.unaryOperator h).bind fun found found' r₁ s₁ ⟨hfound, h₁⟩ => ?_
  subst hfound
  cases found' with
  | none => exact primary L L' hinner h₁
  | some op => exact (primary L' L' hinner h₁).map _

theorem continuation (h : R r s) :
    Paired E (Reader.continuation inner) (Reader.continuation inner') r s
      (Took Option.isSome R R') := by
  refine (L.binaryOperator h).bind fun found found' r₁ s₁ ⟨hfound, h₁⟩ => ?_
  subst hfound
  cases found' with
  | none => exact .pure ⟨rfl, h₁⟩
  | some op =>
    exact (operand L' L' hinner h₁).bind fun e e' r₂ s₂ ⟨he, h₂⟩ => .pure ⟨by rw [he], h₂⟩

theorem chain (h : R r s) :
    Paired E (Reader.chain inner) (Reader.chain inner') r s (Same R') := by
  refine (operand L L' hinner h).bind fun first first' r₁ s₁ ⟨hfirst, h₁⟩ => ?_
  subst hfirst
  refine (InStep.loop L' (fun r s h => ?_) r₁ s₁ h₁).map _
  exact (continuation L' L' hinner h).mono fun _ _ _ _ h => h.same id

end Paired

end Expressions

/-- **Expressions stay in step**, if both readers may meet the limit on nesting. -/
theorem InStep.expression (L : Pace E At R R) {settings settings' : Settings}
    (hdeep : ∀ {r s}, R r s → Refuses E ⟨.nestingTooDeep settings.maxNesting, r.rest⟩
      ⟨.nestingTooDeep settings'.maxNesting, s.rest⟩) (levels : Nat) :
    InStep E R (Reader.expression settings levels) (Reader.expression settings' levels) := by
  induction levels with
  | zero => exact fun r s h => .of_error rfl rfl (hdeep h)
  | succ levels ih => exact fun r s h => Paired.chain L L ih h

theorem FullPace.expect (L : FullPace E At R R') (c : Char) (h : R r s) :
    Paired E (Reader.expect c) (Reader.expect c) r s (Same R') := by
  by_cases hc : c = ';'
  · subst hc
    exact paired_expect L.refuse (L.semicolon h)
  · exact L.toPace.expect hc h

theorem FullPace.took_atEnd (L : FullPace E At R R') (h : R r s) :
    Paired E (scan .atEnd) (scan .atEnd) r s (Took id R R) :=
  (L.atEnd h).mono fun _ _ _ _ h => h.took id

/-! ## Declarations -/

section Declarations

variable {settings settings' : Settings} (L' : FullPace E At R' R')
  (hexpr : InStep E R' (Reader.expression settings settings.maxNesting)
    (Reader.expression settings' settings'.maxNesting))

include L'

theorem InStep.declare {name : String} {p p' : List Char} (hat : At name p p') :
    InStep E R' (Reader.declare name p) (Reader.declare name p') := by
  intro r s h
  refine .bind_scope (L'.scope h) ?_
  split
  · rename_i frame hframe
    split
    · exact .bind_setScope (.pure ⟨rfl, L'.setScope (by rw [hframe]; rfl) h⟩)
    · exact .refuseAt (L'.refuseWord rfl hat)
  · exact .bind_setScope (.pure ⟨rfl, L'.setScope rfl h⟩)

include hexpr

theorem InStep.declaration :
    InStep E R' (Reader.declaration settings) (Reader.declaration settings') := by
  intro r s h
  refine (L'.name "variable name" h).bind fun (name, p) (name', p') r₁ s₁ ⟨hname, hat, h₁⟩ => ?_
  cases hname
  refine (declare L' hat r₁ s₁ h₁).bind fun target target' r₂ s₂ ⟨htarget, h₂⟩ => ?_
  cases htarget
  refine (L'.symbol '=' (by decide) h₂).ite (fun r₃ s₃ h₃ => ?_) fun r₃ s₃ h₃ => .pure ⟨rfl, h₃⟩
  exact (hexpr r₃ s₃ h₃).map _

theorem Paired.declarationGroup (L : FullPace E At R R') (h : R r s) :
    Paired E (Reader.declarationGroup settings) (Reader.declarationGroup settings') r s
      (Took Option.isSome R R') := by
  refine (L.keyword "var" (by decide) h).ite (fun r₁ s₁ h₁ => ?_) fun r₁ s₁ h₁ => .pure ⟨rfl, h₁⟩
  refine (InStep.commaList L'.toPace (InStep.declaration L' hexpr) (fun r s h => ?_)
    (fun r s h => .pure ⟨rfl, h⟩) r₁ s₁ h₁).bind fun decls decls' r₂ s₂ ⟨hdecls, h₂⟩ => ?_
  · exact ((L'.symbol ',' (by decide) h).mono fun _ _ _ _ h => h.same id).map _
  · exact (L'.expect ';' h₂).bind fun _ _ r₃ s₃ ⟨_, h₃⟩ => .pure ⟨by rw [hdecls], h₃⟩

theorem InStep.declarations :
    InStep E R' (Reader.declarations settings) (Reader.declarations settings') := by
  intro r s h
  refine (loop L'.toPace (fun r s h => ?_) r s h).map _
  exact (Paired.declarationGroup L' hexpr L' h).mono fun _ _ _ _ h => h.same id

end Declarations

/-! ## Statements -/

/-- Assignments find their places in step if both settings treat an unknown name alike. -/
theorem InStep.target {settings settings' : Settings} (L : FullPace E At R R')
    (hstrict : ∀ {r s}, R r s → settings.strict = settings'.strict ∨ r.scope.frame.isSome)
    {name : String} {p p' : List Char} (hat : At name p p') :
    InStep E R (Reader.target settings name p) (Reader.target settings' name p') := by
  intro r s h
  have hsame : (settings'.strict || r.scope.frame.isSome) =
      (settings.strict || r.scope.frame.isSome) := by
    rcases hstrict h with hstrict | hframe
    · rw [hstrict]
    · rw [hframe, Bool.or_true, Bool.or_true]
  refine .bind_scope (L.scope h) ?_
  cases r.scope.place? name with
  | some place => exact .pure ⟨rfl, h⟩
  | none =>
    show Paired E (if (settings.strict || r.scope.frame.isSome) = true then _ else _)
      (if (settings'.strict || r.scope.frame.isSome) = true then _ else _) r s _
    rw [hsame]
    split
    · exact .refuseAt (L.refuseWord rfl hat)
    · exact .bind_setScope (.pure ⟨rfl, L.setScope rfl h⟩)

theorem Paired.blockTurn {Q : Reading → Reading → Prop} (L : FullPace E At R R')
    {statement statement' : Reader Stmt}
    (hstatement : ∀ r s, R r s → Paired E statement statement' r s (Same Q)) (h : R r s) :
    Paired E (Reader.blockTurn statement) (Reader.blockTurn statement') r s
      (Took Option.isSome R Q) := by
  refine (L.symbol '}' (by decide) h).ite (fun r₁ s₁ h₁ => .pure ⟨rfl, L.weaken h₁⟩)
    fun r₁ s₁ h₁ => ?_
  refine (L.took_atEnd h₁).ite (fun r₂ s₂ h₂ => .refuse (L.refuse trivial h₂)) fun r₂ s₂ h₂ => ?_
  exact (hstatement r₂ s₂ h₂).someItem

theorem InStep.untilBrace (L : FullPace E At R R') {statement statement' : Reader Stmt}
    (hstatement : InStep E R statement statement') :
    InStep E R (Reader.untilBrace statement) (Reader.untilBrace statement') :=
  loop L.toPace fun _ _ h =>
    (Paired.blockTurn L hstatement h).mono fun _ _ _ _ h => h.same id

theorem InStep.bodyOf (L : FullPace E At R R') {statement statement' : Reader Stmt}
    (hstatement : InStep E R statement statement') :
    InStep E R (Reader.bodyOf statement) (Reader.bodyOf statement') := by
  intro r s h
  refine (L.symbol '{' (by decide) h).ite (fun r₁ s₁ h₁ => ?_) fun r₁ s₁ h₁ => ?_
  · exact untilBrace L hstatement r₁ s₁ (L.weaken h₁)
  · exact (hstatement r₁ s₁ h₁).map _

theorem Paired.misplacedDeclaration {p p' : List Char} (hscope : s.scope = r.scope)
    (hrefuse : ∀ text, Refuses E ⟨.expected text, p⟩ ⟨.expected text, p'⟩) :
    Paired E (Reader.misplacedDeclaration p : Reader α) (Reader.misplacedDeclaration p' : Reader α)
      r s fun _ _ _ _ => False :=
  .bind_scope hscope (.refuseAt (hrefuse _))

section Statements

variable {expr expr' : Reader Expr} {body body' : Reader (List Stmt)}

theorem InStep.returnStatement (L : FullPace E At R R) (hexpr : InStep E R expr expr') :
    InStep E R (Reader.returnStatement expr) (Reader.returnStatement expr') := by
  intro r s h
  refine (L.semicolon h).ite (fun r₁ s₁ h₁ => .pure ⟨rfl, h₁⟩) fun r₁ s₁ h₁ => ?_
  refine (hexpr r₁ s₁ h₁).bind fun e e' r₂ s₂ ⟨he, h₂⟩ => ?_
  exact (L.expect ';' h₂).bind fun _ _ r₃ s₃ ⟨_, h₃⟩ => .pure ⟨by rw [he], h₃⟩

theorem InStep.ifStatement (L : FullPace E At R R) (hexpr : InStep E R expr expr')
    (hbody : InStep E R body body') :
    InStep E R (Reader.ifStatement expr body) (Reader.ifStatement expr' body') := by
  intro r s h
  refine (hexpr r s h).bind fun test test' r₁ s₁ ⟨htest, h₁⟩ => ?_
  refine (hbody r₁ s₁ h₁).bind fun yes yes' r₂ s₂ ⟨hyes, h₂⟩ => ?_
  refine (L.keyword "else" (by decide) h₂).ite (fun r₃ s₃ h₃ => ?_) fun r₃ s₃ h₃ => ?_
  · exact (hbody r₃ s₃ h₃).bind fun no no' r₄ s₄ ⟨hno, h₄⟩ => .pure ⟨by rw [htest, hyes, hno], h₄⟩
  · exact .pure ⟨by rw [htest, hyes], h₃⟩

theorem InStep.whileStatement (hexpr : InStep E R expr expr') (hbody : InStep E R body body') :
    InStep E R (Reader.whileStatement expr body) (Reader.whileStatement expr' body') := by
  intro r s h
  refine (hexpr r s h).bind fun test test' r₁ s₁ ⟨htest, h₁⟩ => ?_
  exact (hbody r₁ s₁ h₁).bind fun b b' r₂ s₂ ⟨hb, h₂⟩ => .pure ⟨by rw [htest, hb], h₂⟩

variable {settings settings' : Settings} (L : FullPace E At R R') (L' : FullPace E At R' R')
  (hexpr : InStep E R' expr expr')
  (htarget : ∀ {name p p'}, At name p p' →
    InStep E R' (Reader.target settings name p) (Reader.target settings' name p'))

include L L' hexpr htarget

theorem Paired.plainStatement (h : R r s) :
    Paired E (Reader.plainStatement settings expr) (Reader.plainStatement settings' expr') r s
      (Same R') := by
  refine (L.name "statement" h).bind fun (name, p) (name', p') r₁ s₁ ⟨hname, hat, h₁⟩ => ?_
  cases hname
  refine (L'.symbol '(' (by decide) h₁).ite (fun r₂ s₂ h₂ => ?_) fun r₂ s₂ h₂ => ?_
  · refine (InStep.call L'.toPace hexpr hat r₂ s₂ h₂).bind fun call call' r₃ s₃ ⟨hcall, h₃⟩ => ?_
    subst hcall
    exact (L'.expect ';' h₃).bind fun _ _ r₄ s₄ ⟨_, h₄⟩ => .pure ⟨rfl, h₄⟩
  refine (L'.symbol '=' (by decide) h₂).ite (fun r₃ s₃ h₃ => ?_)
    fun r₃ s₃ h₃ => .refuse (L'.refuse trivial h₃)
  refine (hexpr r₃ s₃ h₃).bind fun e e' r₄ s₄ ⟨he, h₄⟩ => ?_
  refine (htarget hat r₄ s₄ h₄).bind fun place place' r₅ s₅ ⟨hplace, h₅⟩ => ?_
  exact (L'.expect ';' h₅).bind fun _ _ r₆ s₆ ⟨_, h₆⟩ => .pure ⟨by rw [he, hplace], h₆⟩

/-- **A statement stays in step**, if what is inside it does once a character has been consumed. -/
theorem Paired.statementWith (hbody : InStep E R' body body') (h : R r s) :
    Paired E (Reader.statementWith settings expr body) (Reader.statementWith settings' expr' body')
      r s (Same R') := by
  refine (L.keyword "return" (by decide) h).ite
    (fun r₁ s₁ h₁ => InStep.returnStatement L' hexpr r₁ s₁ h₁) fun r₁ s₁ h₁ => ?_
  refine (L.keyword "if" (by decide) h₁).ite
    (fun r₂ s₂ h₂ => InStep.ifStatement L' hexpr hbody r₂ s₂ h₂) fun r₂ s₂ h₂ => ?_
  refine (L.keyword "while" (by decide) h₂).ite
    (fun r₃ s₃ h₃ => InStep.whileStatement hexpr hbody r₃ s₃ h₃) fun r₃ s₃ h₃ => ?_
  have hskip : Paired E (scan .skipBlanks) (scan .skipBlanks) r₃ s₃ fun _ _ r₄ s₄ => R r₄ s₄ :=
    .of_ok rfl rfl (L.skipBlanks h₃)
  refine hskip.bind fun _ _ r₄ s₄ h₄ => .bind_get ?_
  refine (L.keyword "var" (by decide) h₄).ite (fun r₅ s₅ h₅ => ?_)
    fun r₅ s₅ h₅ => plainStatement L L' hexpr htarget h₅
  exact (misplacedDeclaration (L'.scope h₅) fun _ => L.refuse trivial h₄).bind
    fun _ _ _ _ hnever => hnever.elim

end Statements

/-- **Bodies stay in step**, if both readers treat unknown names alike and may meet the limit on
nesting. -/
theorem InStep.body (L : FullPace E At R R) {settings settings' : Settings}
    (hstrict : ∀ {r s}, R r s → settings.strict = settings'.strict ∨ r.scope.frame.isSome)
    (hdeep : ∀ {r s}, R r s → Refuses E ⟨.nestingTooDeep settings.maxNesting, r.rest⟩
      ⟨.nestingTooDeep settings'.maxNesting, s.rest⟩) (levels : Nat) :
    InStep E R (Reader.body settings levels) (Reader.body settings' levels) := by
  induction levels with
  | zero => exact fun r s h => .of_error rfl rfl (hdeep h)
  | succ levels ih =>
    exact bodyOf L fun r s h =>
      Paired.statementWith L L (expression L.toPace hdeep levels) (target L hstrict) ih h

/-- Statements stay in step as bodies do, with the same number of levels. -/
theorem InStep.statement (L : FullPace E At R R) {settings settings' : Settings}
    (hlevels : settings'.maxNesting = settings.maxNesting)
    (hstrict : ∀ {r s}, R r s → settings.strict = settings'.strict ∨ r.scope.frame.isSome)
    (hdeep : ∀ {r s}, R r s → Refuses E ⟨.nestingTooDeep settings.maxNesting, r.rest⟩
      ⟨.nestingTooDeep settings'.maxNesting, s.rest⟩) :
    InStep E R (Reader.statement settings) (Reader.statement settings') := by
  intro r s h
  unfold Reader.statement
  rw [hlevels]
  exact Paired.statementWith L L (expression L.toPace hdeep _) (target L hstrict)
    (body L hstrict hdeep _) h

/-! ## Functions and scripts -/

section Functions

variable {settings settings' : Settings} {F : Reading → Reading → Prop} (L : FullPace E At R R)
  (LF : FullPace E At F F)
  (henter : ∀ {r s} {t : Scope}, t.frame.isSome → R r s →
    F { r with scope := t } { s with scope := t })
  (hleave : ∀ {r s} {t : Scope}, t.frame = none → F r s →
    R { r with scope := t } { s with scope := t })
  (hexpr : InStep E F (Reader.expression settings settings.maxNesting)
    (Reader.expression settings' settings'.maxNesting))
  (hstatement : InStep E F (Reader.statement settings) (Reader.statement settings'))

theorem Paired.functionTurn (L : FullPace E At R R')
    (hfunction : InStep E R' (Reader.function settings) (Reader.function settings')) (h : R r s) :
    Paired E (Reader.functionTurn settings) (Reader.functionTurn settings') r s
      (Took Option.isSome R R') :=
  (L.keyword "function" (by decide) h).ite (fun r₁ s₁ h₁ => (hfunction r₁ s₁ h₁).someItem)
    fun _ _ h₁ => .pure ⟨rfl, h₁⟩

theorem InStep.parameter (LF : FullPace E At F F) :
    InStep E F Reader.parameter Reader.parameter := by
  intro r s h
  refine (LF.name "parameter name" h).bind fun (name, p) (name', p') r₁ s₁ ⟨hname, hat, h₁⟩ => ?_
  cases hname
  refine .bind_scope (LF.scope h₁) ?_
  split
  · exact .refuse (LF.refuse trivial h₁)
  · rename_i frame hframe
    split
    · exact .bind_setScope (.pure ⟨rfl, LF.setScope (by rw [hframe]; rfl) h₁⟩)
    · exact .refuseAt (LF.refuseWord rfl hat)

include L LF henter hleave hexpr hstatement

/-- A function is read in step by `F`, from states related by `R`. -/
theorem InStep.function : InStep E R (Reader.function settings) (Reader.function settings') := by
  intro r s h
  refine (L.name "function name" h).bind fun (name, p) (name', p') r₁ s₁ ⟨hname, hat, h₁⟩ => ?_
  cases hname
  refine .bind_scope (L.scope h₁) ?_
  show Paired E (if r₁.scope.hasFunction name = true then _ else _)
    (if r₁.scope.hasFunction name = true then _ else _) r₁ s₁ _
  split
  · exact .refuseAt (L.refuseWord rfl hat)
  refine .bind_setScope ?_
  refine (LF.expect '(' (henter rfl h₁)).bind fun _ _ r₂ s₂ ⟨_, h₂⟩ => ?_
  refine (parenthesised LF.toPace (parameter LF) r₂ s₂ h₂).bind
    fun params params' r₃ s₃ ⟨hparams, h₃⟩ => ?_
  refine (LF.expect '{' h₃).bind fun _ _ r₄ s₄ ⟨_, h₄⟩ => ?_
  refine (declarations LF hexpr r₄ s₄ h₄).bind fun decls decls' r₅ s₅ ⟨hdecls, h₅⟩ => ?_
  refine (untilBrace LF hstatement r₅ s₅ h₅).bind fun body body' r₆ s₆ ⟨hbody, h₆⟩ => ?_
  subst hparams hdecls hbody
  exact .bind_scope (LF.scope h₆) (.bind_setScope (.pure ⟨rfl, hleave rfl h₆⟩))

theorem InStep.functions :
    InStep E R (Reader.functions settings) (Reader.functions settings') :=
  loop L.toPace fun _ _ h => (Paired.functionTurn L
    (function L LF henter hleave hexpr hstatement) h).mono fun _ _ _ _ h => h.same id

end Functions

theorem Paired.statementTurn {settings settings' : Settings} {Q : Reading → Reading → Prop}
    (L : FullPace E At R R')
    (hstatement : ∀ r s, R r s →
      Paired E (Reader.statement settings) (Reader.statement settings') r s (Same Q)) (h : R r s) :
    Paired E (Reader.statementTurn settings) (Reader.statementTurn settings') r s
      (Took Option.isSome R Q) :=
  (L.took_atEnd h).ite (fun _ _ h₁ => .pure ⟨rfl, h₁⟩) fun r₁ s₁ h₁ => (hstatement r₁ s₁ h₁).someItem

theorem InStep.script {settings settings' : Settings} (L : FullPace E At R R)
    (hscope : ∀ {r s} {t : Scope}, R r s → R { r with scope := t } { s with scope := t })
    (hexpr : InStep E R (Reader.expression settings settings.maxNesting)
      (Reader.expression settings' settings'.maxNesting))
    (hstatement : InStep E R (Reader.statement settings) (Reader.statement settings')) :
    InStep E R (Reader.script settings) (Reader.script settings') := by
  intro r s h
  refine (declarations L hexpr r s h).bind fun decls decls' r₁ s₁ ⟨hdecls, h₁⟩ => ?_
  refine (functions L L (fun _ => hscope) (fun _ => hscope) hexpr hstatement r₁ s₁ h₁).bind
    fun fs fs' r₂ s₂ ⟨hfs, h₂⟩ => ?_
  refine (declarations L hexpr r₂ s₂ h₂).bind fun late late' r₃ s₃ ⟨hlate, h₃⟩ => ?_
  refine (loop L.toPace (fun r s h => ?_) r₃ s₃ h₃).bind fun body body' r₄ s₄ ⟨hbody, h₄⟩ => ?_
  · exact (Paired.statementTurn L hstatement h).mono fun _ _ _ _ h => h.same id
  · subst hdecls hfs hlate hbody
    exact .bind_scope (L.scope h₄) (.pure ⟨rfl, h₄⟩)

theorem InStep.wholeExpression {settings settings' : Settings} (L : FullPace E At R R)
    (hexpr : InStep E R (Reader.expression settings settings.maxNesting)
      (Reader.expression settings' settings'.maxNesting)) :
    InStep E R (Reader.wholeExpression settings) (Reader.wholeExpression settings') := by
  intro r s h
  refine (hexpr r s h).bind fun e e' r₁ s₁ ⟨he, h₁⟩ => ?_
  exact (L.took_atEnd h₁).ite (fun r₂ s₂ h₂ => .pure ⟨he, h₂⟩)
    fun r₂ s₂ h₂ => .refuse (L.refuse trivial h₂)

/-- What two readers in step make of a source text. -/
theorem Paired.run {source : String} {x y : Reader α}
    (h : Paired E x y ⟨source.toList, ∅⟩ ⟨source.toList, ∅⟩ (Same R)) :
    (∃ a, x.run source = .ok a ∧ y.run source = .ok a) ∨
    ∃ e, x.run source = .error (.ofRefusal source e) ∧
      (E e none ∨ ∃ e', y.run source = .error (.ofRefusal source e') ∧ E e (some e')) := by
  unfold Paired at h
  unfold Reader.run
  cases hx : x ⟨source.toList, ∅⟩ with
  | ok a r' =>
    rw [hx] at h
    obtain ⟨b, s', hy, rfl, -⟩ := h
    rw [hy]
    exact .inl ⟨b, rfl, rfl⟩
  | error e r' =>
    rw [hx] at h
    refine .inr ⟨e, rfl, h.imp id ?_⟩
    rintro ⟨e', s', hy, he⟩
    rw [hy]
    exact ⟨e', rfl, he⟩

end Reader

end StackScript
