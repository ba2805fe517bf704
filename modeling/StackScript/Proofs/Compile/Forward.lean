import StackScript.Proofs.Emission.Tracks

/-!
# Compilers go forward

`Ahead source p n y z` says that from every boundary at `p` or behind it the compilers `y` and `z`
do the same, and where they give some `a` they have come at least `n a` bytes further. It has a rule
for every way compilers are put together, and with them one for each rule of the grammar. Where a
rule contains another one, it is enough that the two agree where the rule asks for it, behind the
first byte that it has consumed (`Ahead.chain`, `Ahead.bodyOf`).
-/

namespace StackScript

variable {α β σ : Type}

theorem positionOf_lt_of_suffix {source : String} {rest text : List Char}
    (htext : text <:+ source.toList) (h : rest <:+ text) (hlt : rest.length < text.length) :
    positionOf source text < positionOf source rest := by
  obtain ⟨piece, rfl⟩ := h
  have hadd := positionOf_add htext
  have hpiece := length_le_utf8Length piece
  rw [List.length_append] at hlt
  omega

/-- From every boundary a cursor goes to a boundary that is not before it, and further if it takes
something. -/
def Cursor.Goes (x : Cursor α) (taken : α → Bool) : Prop :=
  ∀ (source : String) (position position' : Nat) (a : α), IsBoundary source position →
    x source position = .ok a position' →
      IsBoundary source position' ∧ position + (taken a).toNat ≤ position'

theorem Scanner.Advances.goes {x : Cursor α} {s : Scanner α} {taken : α → Bool}
    (hs : s.Advances taken) (hx : Cursor.Follows x s) : x.Goes taken := by
  intro source position position' a hboundary hrun
  obtain ⟨hsuffix, hposition⟩ := hboundary.textFrom
  have hwent := hs (textFrom source position)
  rw [hposition, hx source _ hsuffix] at hrun
  cases htext : s (textFrom source position) with
  | error e rest =>
    rw [htext] at hrun
    cases hrun
  | ok b rest =>
    rw [htext] at hrun hwent
    cases hrun
    obtain ⟨hrest, hlt⟩ := hwent
    refine ⟨isBoundary_positionOf (hrest.trans hsuffix), ?_⟩
    rw [hposition]
    cases htaken : taken a with
    | false => exact positionOf_le_of_suffix hrest
    | true => exact positionOf_lt_of_suffix hsuffix hrest (hlt htaken)

namespace Cursor

theorem goes_skipBlanks : Goes skipBlanks fun _ => false :=
  Scanner.advances_skipBlanks.goes follows_skipBlanks

theorem goes_atEnd : Goes atEnd fun _ => false := Scanner.advances_atEnd.goes follows_atEnd

theorem goes_symbol (c : Char) : (symbol c).Goes id :=
  (Scanner.advances_symbol c).goes (follows_symbol c)

theorem goes_keyword {w : String} (hw : w ∈ Lexeme.keywords) : (word w).Goes id :=
  (Scanner.advances_word (Lexeme.isWord_of_mem_keywords hw)).goes (follows_word w)

theorem goes_identifier : identifier.Goes Option.isSome :=
  Scanner.advances_identifier.goes follows_identifier

theorem goes_binaryOperator : binaryOperator.Goes Option.isSome :=
  Scanner.advances_binaryOperator.goes follows_binaryOperator

theorem goes_unaryOperator : unaryOperator.Goes Option.isSome :=
  Scanner.advances_unaryOperator.goes follows_unaryOperator

theorem goes_string : string.Goes Option.isSome := Scanner.advances_string.goes follows_string

theorem goes_number : number.Goes Option.isSome := Scanner.advances_number.goes follows_number

end Cursor

/-! ## A logic of going forward -/

namespace Compiler

/-- The compilation is at a boundary, at a position or behind it. -/
def Past (source : String) (position : Nat) (c : Compilation) : Prop :=
  IsBoundary source c.position ∧ position ≤ c.position

/-- From every boundary at `p` or behind it two compilers do the same, and where they give some `a`
they have come at least `n a` bytes further. -/
def Ahead (source : String) (p : Nat) (n : α → Nat) (y z : Compiler α) : Prop :=
  ∀ q, p ≤ q → ∀ c, Past source q c → z source c = y source c ∧
    ∀ a c', y source c = .ok a c' → Past source (q + n a) c'

namespace Ahead

variable {source : String} {p : Nat} {n : α → Nat} {y z : Compiler α}

theorem weaken (h : Ahead source p n y z) {p' : Nat} {n' : α → Nat} (hp : p ≤ p')
    (hn : ∀ a, n' a ≤ n a) : Ahead source p' n' y z := by
  intro q hq c hc
  obtain ⟨hsame, hpost⟩ := h q (Nat.le_trans hp hq) c hc
  refine ⟨hsame, fun a c' hy => ?_⟩
  obtain ⟨hboundary, hle⟩ := hpost a c' hy
  exact ⟨hboundary, Nat.le_trans (Nat.add_le_add_left (hn a) q) hle⟩

/-- How far it goes may be left out. -/
theorem forget (h : Ahead source p n y z) : Ahead source p (fun _ => 0) y z :=
  h.weaken (Nat.le_refl p) fun _ => Nat.zero_le _

theorem later (h : Ahead source p n y z) : Ahead source (p + 1) n y z :=
  h.weaken (Nat.le_succ p) fun a => Nat.le_refl (n a)

/-- What has been consumed before counts. -/
theorem bind {f g : α → Compiler β} {m : α → Nat} {n : β → Nat} (h : Ahead source p m y z)
    (hf : ∀ a, Ahead source (p + m a) (fun b => n b - m a) (f a) (g a)) :
    Ahead source p n (y >>= f) (z >>= g) := by
  intro q hq c hc
  obtain ⟨hsame, hpost⟩ := h q hq c hc
  cases hy : y source c with
  | ok a c₁ =>
    have hz : z source c = .ok a c₁ := hsame.trans hy
    rw [bind_ok hy, bind_ok hz]
    obtain ⟨hsame', hpost'⟩ := hf a (q + m a) (Nat.add_le_add_right hq _) c₁ (hpost a c₁ hy)
    refine ⟨hsame', fun b c' hb => ?_⟩
    obtain ⟨hboundary, hle⟩ := hpost' b c' hb
    have hle : q + m a + (n b - m a) ≤ c'.position := hle
    exact ⟨hboundary, by omega⟩
  | error e c₁ =>
    have hz : z source c = .error e c₁ := hsame.trans hy
    rw [bind_error hy, bind_error hz]
    exact ⟨rfl, fun a c' h => by cases h⟩

/-- A compiler that does not move. -/
theorem of_still (h : ∀ c a c', y source c = .ok a c' → c'.position = c.position) :
    Ahead source p (fun _ => 0) y y := by
  intro q _ c hc
  refine ⟨rfl, fun a c' hy => ?_⟩
  rw [Past, h c a c' hy]
  exact hc

theorem pure {a : α} (h : n a = 0) : Ahead source p n (Pure.pure a) (Pure.pure a) := by
  intro q _ c hc
  refine ⟨rfl, fun a' c' hy => ?_⟩
  cases hy
  rw [h]
  exact hc

theorem refuseAt (position : Nat) (complaint : Complaint) :
    Ahead source p n (Compiler.refuseAt position complaint)
      (Compiler.refuseAt position complaint) :=
  fun _ _ _ _ => ⟨rfl, fun _ _ h => by cases h⟩

theorem refuse (complaint : Complaint) :
    Ahead source p n (Compiler.refuse complaint) (Compiler.refuse complaint) :=
  fun _ _ _ _ => ⟨rfl, fun _ _ h => by cases h⟩

/-- Nothing comes after a refusal. -/
theorem abort {f g : α → Compiler β} {n : β → Nat} (h : ∀ c, ∃ e c', y source c = .error e c') :
    Ahead source p n (y >>= f) (y >>= g) := by
  intro q _ c _
  obtain ⟨e, c', hy⟩ := h c
  rw [bind_error hy, bind_error hy]
  exact ⟨rfl, fun _ _ h => by cases h⟩

theorem getState : Ahead source p (fun _ => 0) (get : Compiler Compilation) get :=
  of_still fun _ _ _ h => by cases h; rfl

theorem emit (push : Code → Nat × Code) :
    Ahead source p (fun _ => 0) (Compiler.emit push) (Compiler.emit push) :=
  of_still fun _ _ _ h => by cases h; rfl

theorem patch (change : Code → Except Code.PatchError Code) :
    Ahead source p (fun _ => 0) (Compiler.patch change) (Compiler.patch change) := by
  refine of_still fun c a c' h => ?_
  unfold Compiler.patch at h
  split at h <;> cases h
  rfl

theorem modifyState {f : Compilation → Compilation} (hf : ∀ c, (f c).position = c.position) :
    Ahead source p (fun _ => 0) (modify f : Compiler PUnit) (modify f) :=
  of_still fun c _ _ h => by cases h; exact hf c

theorem scan {x : Cursor α} {taken : α → Bool} (hx : x.Goes taken) :
    Ahead source p (fun a => (taken a).toNat) (Compiler.scan x) (Compiler.scan x) := by
  intro q _ c hc
  refine ⟨rfl, fun a c' h => ?_⟩
  unfold Compiler.scan at h
  cases hrun : x source c.position with
  | error e position =>
    rw [hrun] at h
    cases h
  | ok b position =>
    rw [hrun] at h
    cases h
    obtain ⟨hboundary, hle⟩ := hx source _ _ _ hc.1 hrun
    exact ⟨hboundary, Nat.le_trans (Nat.add_le_add_right hc.2 _) hle⟩

/-- A choice by what is found in the text. -/
theorem iteScan {x : Cursor Bool} {taken : Bool → Bool} {yes no yes' no' : Compiler α}
    (hx : x.Goes taken)
    (hyes : Ahead source (p + (taken true).toNat) (fun b => n b - (taken true).toNat) yes yes')
    (hno : Ahead source (p + (taken false).toNat) (fun b => n b - (taken false).toNat) no no') :
    Ahead source p n (Compiler.scan x >>= fun b => if b = true then yes else no)
      (Compiler.scan x >>= fun b => if b = true then yes' else no') := by
  refine bind (scan hx) fun b => ?_
  cases b with
  | true => exact hyes
  | false => exact hno

theorem expect (c : Char) : Ahead source p (fun _ => 1) (Compiler.expect c) (Compiler.expect c) :=
  iteScan (Cursor.goes_symbol c) (pure rfl) (refuse _)

theorem name (what : String) :
    Ahead source p (fun _ => 1) (Compiler.name what) (Compiler.name what) := by
  refine bind (scan Cursor.goes_skipBlanks) fun _ => bind getState fun c => ?_
  refine bind (scan Cursor.goes_identifier) fun o => ?_
  cases o with
  | none => exact refuse _
  | some word =>
    change Ahead source _ _ (if Lexeme.isKeyword word = true then _ else _)
      (if Lexeme.isKeyword word = true then _ else _)
    split
    · exact refuseAt _ _
    · exact pure rfl

/-! ## Lists -/

section Loops

variable {turn turn' : σ → Compiler (Option σ)}

theorem turns (h : ∀ s, Ahead source p (fun _ => 0) (turn s) (turn' s)) (bound : Nat) (s : σ) :
    Ahead source p (fun _ => 0) (Compiler.turns turn bound s) (Compiler.turns turn' bound s) := by
  induction bound generalizing s with
  | zero => exact refuse _
  | succ bound ih =>
    refine bind (h s) fun o => ?_
    cases o with
    | none => exact pure rfl
    | some s' => exact ih s'

theorem loop (h : ∀ s, Ahead source p (fun _ => 0) (turn s) (turn' s)) (s : σ) :
    Ahead source p (fun _ => 0) (Compiler.loop turn s) (Compiler.loop turn' s) :=
  fun q hq c hc => turns h _ s q hq c hc

end Loops

theorem whileTurn {turn turn' : Compiler Bool} {m : Bool → Nat} (h : Ahead source p m turn turn')
    (s : Unit) :
    Ahead source p (fun o => if o.isSome then m true else 0) (Compiler.whileTurn turn s)
      (Compiler.whileTurn turn' s) := by
  refine bind h fun b => ?_
  cases b with
  | true => exact pure (Nat.sub_self _)
  | false => exact pure (Nat.zero_sub _)

theorem repeatWhile {turn turn' : Compiler Bool} (h : Ahead source p (fun _ => 0) turn turn') :
    Ahead source p (fun _ => 0) (Compiler.repeatWhile turn) (Compiler.repeatWhile turn') :=
  loop (fun s => (whileTurn h s).forget) ()

/-- A turn that goes on has consumed something. -/
theorem consumingTurn {turn : Compiler Bool} (h : Ahead source p Bool.toNat turn turn) (s : Unit) :
    Ahead source p (fun o => o.isSome.toNat) (Compiler.whileTurn turn s)
      (Compiler.whileTurn turn s) :=
  (whileTurn h s).weaken (Nat.le_refl p) fun o => by cases o <;> exact Nat.le_refl _

section Commas

variable {item item' : σ → Compiler σ} {stop : Compiler Bool} {comma : Compiler Unit}
  {m : Bool → Nat} {k : Nat} (hstop : Ahead source p m stop stop)
  (hcomma : Ahead source (p + m false) (fun _ => k) comma comma) (hone : 1 ≤ m false + k)

include hstop hcomma hone

/-- A turn that goes on has consumed what separates the items. -/
theorem commaTurn (hitem : ∀ s, Ahead source (p + 1) (fun _ => 0) (item s) (item' s)) (s : σ) :
    Ahead source p (fun o => o.isSome.toNat) (Compiler.commaTurn item stop comma s)
      (Compiler.commaTurn item' stop comma s) := by
  refine bind hstop fun b => ?_
  cases b with
  | true => exact pure (Nat.zero_sub _)
  | false =>
    refine bind hcomma fun _ =>
      bind ((hitem s).weaken (by omega) fun _ => Nat.le_refl 0) fun s' => ?_
    exact pure (by change 1 - m false - k - 0 = 0; omega)

theorem commaList (hitem : ∀ s, Ahead source p (fun _ => 0) (item s) (item' s)) (s : σ) :
    Ahead source p (fun _ => 0) (Compiler.commaList item stop comma s)
      (Compiler.commaList item' stop comma s) := by
  refine bind (hitem s) fun s' => loop (fun s => ?_) s'
  exact (commaTurn hstop hcomma hone
    (fun s => (hitem s).later) s).forget

end Commas

theorem parenthesised {item item' : σ → Compiler σ}
    (hitem : ∀ s, Ahead source p (fun _ => 0) (item s) (item' s)) (s : σ) :
    Ahead source p (fun _ => 0) (Compiler.parenthesised item s)
      (Compiler.parenthesised item' s) := by
  refine iteScan (Cursor.goes_symbol ')') (pure rfl) ?_
  exact commaList (scan (Cursor.goes_symbol ')')) (expect ',') (Nat.le_refl 1) hitem s

/-! ## Variables and returns -/

theorem noteLocal (index : Nat) (name : String) :
    Ahead source p (fun _ => 0) (Compiler.noteLocal index name) (Compiler.noteLocal index name) :=
  modifyState fun _ => rfl

theorem emitLoad (name : String) (position : Nat) :
    Ahead source p (fun _ => 0) (Compiler.emitLoad name position)
      (Compiler.emitLoad name position) := by
  refine bind getState fun c => ?_
  split
  · exact bind (emit _) fun _ => noteLocal _ _
  · exact bind (emit _) fun _ => pure rfl
  · exact refuseAt _ _

theorem storeTarget (settings : Settings) (name : String) (position : Nat) :
    Ahead source p (fun _ => 0) (Compiler.storeTarget settings name position)
      (Compiler.storeTarget settings name position) := by
  refine bind getState fun c => ?_
  split
  · exact pure rfl
  · split
    · exact refuseAt _ _
    · exact bind (modifyState fun _ => rfl) fun _ => pure rfl

theorem emitStore (settings : Settings) (name : String) (position : Nat) :
    Ahead source p (fun _ => 0) (Compiler.emitStore settings name position)
      (Compiler.emitStore settings name position) := by
  refine bind (storeTarget settings name position) fun target => ?_
  cases target with
  | frame => exact bind (emit _) fun _ => noteLocal _ _
  | global slot => exact bind (emit _) fun _ => pure rfl

theorem emitReturn :
    Ahead source p (fun _ => 0) Compiler.emitReturn Compiler.emitReturn :=
  bind (emit _) fun _ => modifyState fun _ => rfl

/-! ## Expressions -/

section Expressions

variable {inner inner' : Compiler Unit}

theorem closed (h : Ahead source p (fun _ => 0) inner inner') :
    Ahead source p (fun _ => 0) (Compiler.closed inner) (Compiler.closed inner') :=
  bind h fun _ => bind (emit _) fun _ => pure rfl

theorem call (h : Ahead source p (fun _ => 0) inner inner') (name : String) (position : Nat) :
    Ahead source p (fun _ => 0) (Compiler.call inner name position)
      (Compiler.call inner' name position) := by
  refine bind getState fun c => ?_
  cases c.function? name with
  | none => exact refuseAt _ _
  | some function =>
    refine bind (emit _) fun _ => bind (parenthesised (fun found => ?_) 0) fun found => ?_
    · exact bind (closed h) fun _ => pure rfl
    · split
      · exact bind (emit _) fun _ => pure rfl
      · exact refuseAt _ _

variable (h : Ahead source (p + 1) (fun _ => 0) inner inner')

include h

theorem reference :
    Ahead source p (fun _ => 1) (Compiler.reference inner) (Compiler.reference inner') := by
  refine bind (name "operand") fun found => ?_
  exact iteScan (Cursor.goes_symbol '(') (call h _ _).later (emitLoad _ _)

theorem primary :
    Ahead source p (fun _ => 1) (Compiler.primary inner) (Compiler.primary inner') := by
  refine iteScan (Cursor.goes_symbol '(') ?_ ?_
  · exact bind (emit _) fun _ => bind h fun _ =>
      bind (expect ')').forget fun _ => bind (emit _) fun _ => pure rfl
  refine bind (scan Cursor.goes_string) fun o => ?_
  cases o with
  | some v => exact bind (emit _) fun _ => pure rfl
  | none =>
    refine bind (scan Cursor.goes_number) fun o => ?_
    cases o with
    | some v => exact bind (emit _) fun _ => pure rfl
    | none =>
      refine iteScan (Cursor.goes_keyword (by decide)) (bind (emit _) fun _ => pure rfl) ?_
      refine iteScan (Cursor.goes_keyword (by decide)) (bind (emit _) fun _ => pure rfl) ?_
      exact reference h

theorem operand :
    Ahead source p (fun _ => 1) (Compiler.operand inner) (Compiler.operand inner') := by
  refine bind (scan Cursor.goes_unaryOperator) fun o => ?_
  cases o with
  | none => exact primary h
  | some op =>
    refine bind (emit _) fun _ => ?_
    exact (primary (p := p + 1) h.later).forget

theorem continuation :
    Ahead source p (fun b => b.toNat) (Compiler.continuation inner)
      (Compiler.continuation inner') := by
  refine bind (scan Cursor.goes_binaryOperator) fun o => ?_
  cases o with
  | none => exact pure rfl
  | some op =>
    refine bind (emit _) fun _ => bind (m := fun _ => 0) ?_ fun _ => pure rfl
    exact (operand (p := p + 1) h.later).forget

/-- An expression asks for what is inside it behind its first byte. -/
theorem chain : Ahead source p (fun _ => 1) (Compiler.chain inner) (Compiler.chain inner') := by
  refine bind (operand h) fun _ => repeatWhile ?_
  exact (continuation (p := p + 1) h.later).forget

end Expressions

variable {settings : Settings}

theorem enter :
    Ahead source p (fun _ => 0) (Compiler.enter settings) (Compiler.enter settings) := by
  refine bind getState fun c => ?_
  split
  · exact abort fun _ => ⟨_, _, rfl⟩
  · exact modifyState fun _ => rfl

theorem leave : Ahead source p (fun _ => 0) Compiler.leave Compiler.leave :=
  modifyState fun _ => rfl

/-- A level is opened and closed again. -/
theorem nested {y z : Compiler Unit} {k : Nat} (h : Ahead source p (fun _ => k) y z) :
    Ahead source p (fun _ => k) (Compiler.nested settings y) (Compiler.nested settings z) :=
  bind enter fun _ => bind h fun _ => leave.weaken (Nat.le_refl _) fun _ => by omega

theorem expression (levels : Nat) :
    Ahead source p (fun _ => 0) (Compiler.expression settings levels)
      (Compiler.expression settings levels) := by
  induction levels generalizing p with
  | zero => exact nested (refuse _)
  | succ levels ih => exact (nested (chain ih)).forget

/-! ## Declarations -/

theorem declare (name : String) (position : Nat) :
    Ahead source p (fun _ => 0) (Compiler.declare name position)
      (Compiler.declare name position) := by
  refine bind getState fun c => ?_
  split
  · split
    · exact refuseAt _ _
    · exact bind (modifyState fun _ => rfl) fun _ => bind (emit _) fun _ => pure rfl
  · exact modifyState fun _ => rfl

theorem declaration :
    Ahead source p (fun _ => 0) (Compiler.declaration settings)
      (Compiler.declaration settings) := by
  refine bind (name "variable name").forget fun found => bind (declare _ _) fun _ => ?_
  refine iteScan (Cursor.goes_symbol '=') ?_ (pure rfl)
  exact bind (closed (expression _)) fun _ => emitStore _ _ _

/-- The list of a `var` goes on where a comma is found. -/
theorem noComma :
    Ahead source p (fun b => (!b).toNat) (do return !(← Compiler.scan (.symbol ',')))
      (do return !(← Compiler.scan (.symbol ','))) := by
  refine bind (scan (Cursor.goes_symbol ',')) fun b => ?_
  cases b <;> exact pure rfl

theorem declarationGroup :
    Ahead source p (fun b => b.toNat) (Compiler.declarationGroup settings)
      (Compiler.declarationGroup settings) := by
  refine iteScan (Cursor.goes_keyword (by decide)) ?_ (pure rfl)
  refine bind (m := fun _ => 0) (commaList noComma (k := 0) (pure rfl) (Nat.le_refl 1)
    (fun _ => declaration) ()) fun _ => ?_
  exact bind (expect ';').forget fun _ => pure rfl

theorem declarations :
    Ahead source p (fun _ => 0) (Compiler.declarations settings) (Compiler.declarations settings) :=
  repeatWhile declarationGroup.forget

/-! ## Statements -/

section Statements

variable {expr expr' body body' single single' : Compiler Unit}

theorem returnStatement (h : Ahead source p (fun _ => 0) expr expr') :
    Ahead source p (fun _ => 0) (Compiler.returnStatement expr)
      (Compiler.returnStatement expr') := by
  refine iteScan (Cursor.goes_symbol ';') (bind (emit _) fun _ => emitReturn) ?_
  exact bind (closed h) fun _ => bind (expect ';').forget fun _ => emitReturn

theorem ifStatement (h : Ahead source p (fun _ => 0) expr expr')
    (hbody : Ahead source p (fun _ => 0) body body') :
    Ahead source p (fun _ => 0) (Compiler.ifStatement expr body)
      (Compiler.ifStatement expr' body') := by
  refine bind (closed h) fun _ => bind (emit _) fun _ => bind hbody fun _ => ?_
  refine iteScan (Cursor.goes_keyword (by decide)) ?_ (patch _)
  exact bind (emit _) fun _ => bind (patch _) fun _ => bind hbody.later fun _ => patch _

theorem whileStatement (h : Ahead source p (fun _ => 0) expr expr')
    (hbody : Ahead source p (fun _ => 0) body body') :
    Ahead source p (fun _ => 0) (Compiler.whileStatement expr body)
      (Compiler.whileStatement expr' body') :=
  bind getState fun _ => bind (closed h) fun _ => bind (emit _) fun _ => bind hbody fun _ =>
    bind (emit _) fun _ => bind (patch _) fun _ => patch _

theorem plainStatement (h : Ahead source (p + 1) (fun _ => 0) expr expr') :
    Ahead source p (fun _ => 1) (Compiler.plainStatement settings expr)
      (Compiler.plainStatement settings expr') := by
  refine bind (name "statement") fun found => iteScan (Cursor.goes_symbol '(') ?_ ?_
  · refine bind (call h _ _).later fun _ => ?_
    exact bind (expect ';').forget fun _ => bind (emit _) fun _ => pure rfl
  refine iteScan (Cursor.goes_symbol '=') ?_ (refuse _)
  refine bind (closed h).later fun _ => bind (emitStore _ _ _) fun _ => ?_
  exact bind (expect ';').forget fun _ => pure rfl

theorem statementWith (h : Ahead source (p + 1) (fun _ => 0) expr expr')
    (hbody : Ahead source (p + 1) (fun _ => 0) body body') :
    Ahead source p (fun _ => 1) (Compiler.statementWith settings expr body)
      (Compiler.statementWith settings expr' body') := by
  refine iteScan (Cursor.goes_keyword (by decide)) (returnStatement h) ?_
  refine iteScan (Cursor.goes_keyword (by decide)) (ifStatement h hbody) ?_
  refine iteScan (Cursor.goes_keyword (by decide)) (whileStatement h hbody) ?_
  refine bind (scan Cursor.goes_skipBlanks) fun _ => bind getState fun c => ?_
  refine iteScan (Cursor.goes_keyword (by decide)) ?_ (plainStatement h)
  exact abort fun _ => ⟨_, _, rfl⟩

theorem blockTurn (h : Ahead source p (fun _ => 1) single single') :
    Ahead source p (fun b => b.toNat) (Compiler.blockTurn single) (Compiler.blockTurn single') := by
  refine iteScan (Cursor.goes_symbol '}') (pure rfl) (iteScan Cursor.goes_atEnd ?_ ?_)
  · exact abort fun _ => ⟨_, _, rfl⟩
  · exact bind h fun _ => pure rfl

theorem untilBrace (h : Ahead source p (fun _ => 1) single single') :
    Ahead source p (fun _ => 0) (Compiler.untilBrace single) (Compiler.untilBrace single') :=
  repeatWhile (blockTurn h).forget

/-- A body asks for what is inside its statements behind its first byte. -/
theorem bodyOf (h : Ahead source p (fun _ => 1) single single') :
    Ahead source p (fun _ => 1) (Compiler.bodyOf single) (Compiler.bodyOf single') := by
  refine iteScan (Cursor.goes_symbol '{') ?_ h
  exact untilBrace h.later

end Statements

theorem body (levels : Nat) :
    Ahead source p (fun _ => 0) (Compiler.body settings levels)
      (Compiler.body settings levels) := by
  induction levels generalizing p with
  | zero => exact nested (refuse _)
  | succ levels ih =>
    exact (nested (bodyOf (statementWith (expression levels) ih))).forget

theorem statement :
    Ahead source p (fun _ => 1) (Compiler.statement settings) (Compiler.statement settings) :=
  statementWith (expression _) (body _)

/-! ## Functions -/

theorem parameter (frame : Frame) :
    Ahead source p (fun _ => 0) (Compiler.parameter frame) (Compiler.parameter frame) := by
  refine bind (name "parameter name").forget fun found => ?_
  obtain ⟨param, position⟩ := found
  dsimp only
  cases frame.addParameter? param with
  | none => exact refuseAt _ _
  | some frame' => exact pure rfl

theorem forM {act : α → Compiler Unit}
    (h : ∀ a, Ahead source p (fun _ => 0) (act a) (act a)) (as : List α) :
    Ahead source p (fun _ => 0) (as.forM act) (as.forM act) := by
  induction as with
  | nil => exact pure rfl
  | cons a as ih => exact bind (h a) fun _ => ih

theorem fixLocal (frame : Frame) (fixup : Nat × String) :
    Ahead source p (fun _ => 0) (Compiler.fixLocal frame fixup)
      (Compiler.fixLocal frame fixup) := by
  unfold Compiler.fixLocal
  cases (frame.find? fixup.2).bind (·.offset) with
  | none => exact refuse _
  | some offset => exact patch _

theorem finishFunction :
    Ahead source p (fun _ => 0) Compiler.finishFunction Compiler.finishFunction := by
  refine bind getState fun c => ?_
  split
  · exact refuse _
  · exact bind (modifyState fun _ => rfl) fun _ => bind (forM (fixLocal _) _) fun _ =>
      bind (forM (fun _ => patch _) _) fun _ => modifyState fun _ => rfl

theorem function :
    Ahead source p (fun _ => 0) (Compiler.function settings) (Compiler.function settings) := by
  refine bind (name "function name").forget fun found => bind getState fun c => ?_
  obtain ⟨name, position⟩ := found
  change Ahead source _ _ (if c.functions.any (·.name == name) = true then _ else _)
    (if c.functions.any (·.name == name) = true then _ else _)
  split
  · exact abort fun _ => ⟨_, _, rfl⟩
  · refine bind (expect '(').forget fun _ =>
      bind (parenthesised parameter _) fun frame => bind (modifyState fun _ => rfl) fun _ => ?_
    refine bind (expect '{').forget fun _ =>
      bind declarations fun _ => bind (untilBrace statement) fun _ => ?_
    exact bind (emit _) fun _ => bind (emit _) fun _ => bind emitReturn fun _ => finishFunction

theorem functionTurn :
    Ahead source p (fun b => b.toNat) (Compiler.functionTurn settings)
      (Compiler.functionTurn settings) :=
  iteScan (Cursor.goes_keyword (by decide)) (bind function fun _ => pure rfl) (pure rfl)

theorem statementTurn :
    Ahead source p (fun b => b.toNat) (Compiler.statementTurn settings)
      (Compiler.statementTurn settings) :=
  iteScan Cursor.goes_atEnd (pure rfl) (bind statement fun _ => pure rfl)

end Ahead

end Compiler

end StackScript
