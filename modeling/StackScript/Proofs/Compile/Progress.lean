import StackScript.Proofs.Compile.Compiled
import StackScript.Proofs.Compile.Forward

/-!
# Compiling ends, with as much code as text

A compiler cannot go round in circles. Each turn of each of its loops that is not the last consumes
some of the text (`LoopOf.consuming`), so that the bound on the turns of a `loop` is never met: the
loop ends as it would without one (`Consuming.repeats_iff`). Each rule that contains itself asks for
what is inside it only after it has consumed something (`DescentOf.descends`). And every instruction
is paid for by a byte: **`compile_ends_isWithin`** puts this together.
-/

namespace StackScript

namespace Compiler

variable {σ : Type} {settings : Settings} {source : String}

/-! ## Loops without a bound -/

/-- What a loop makes of a text if nothing bounds its turns. -/
inductive Repeats (source : String) (turn : σ → Compiler (Option σ)) :
    σ → Compilation → EStateM.Result Rejection Compilation σ → Prop
  | stop {s : σ} {c c' : Compilation} (h : turn s source c = .ok none c') :
    Repeats source turn s c (.ok s c')
  | refuse {s : σ} {c c' : Compilation} {e : Rejection} (h : turn s source c = .error e c') :
    Repeats source turn s c (.error e c')
  | next {s s' : σ} {c c' : Compilation} {result : EStateM.Result Rejection Compilation σ}
    (h : turn s source c = .ok (some s') c') (hrest : Repeats source turn s' c' result) :
    Repeats source turn s c result

/-- Each turn after which there is another one consumes a piece of the text. -/
def Consuming (source : String) (turn : σ → Compiler (Option σ)) : Prop :=
  ∀ s c s' c', IsBoundary source c.position → turn s source c = .ok (some s') c' →
    IsBoundary source c'.position ∧ c.position < c'.position

section Loops

variable {turn : σ → Compiler (Option σ)} {s s' : σ} {c c' : Compilation}
  {result : EStateM.Result Rejection Compilation σ}

theorem turns_stop (bound : Nat) (h : turn s source c = .ok none c') :
    turns turn (bound + 1) s source c = .ok s c' := bind_ok h

theorem turns_refuse (bound : Nat) {e : Rejection} (h : turn s source c = .error e c') :
    turns turn (bound + 1) s source c = .error e c' := bind_error h

theorem turns_next (bound : Nat) (h : turn s source c = .ok (some s') c') :
    turns turn (bound + 1) s source c = turns turn bound s' source c' := bind_ok h

/-- By induction on the bound, which stays larger than the text that remains. -/
theorem Consuming.repeats_turns (hturn : Consuming source turn) (bound : Nat)
    (hc : IsBoundary source c.position) (hbound : utf8Length source.toList < bound + c.position) :
    Repeats source turn s c (turns turn bound s source c) := by
  induction bound generalizing s c with
  | zero => exact absurd hc.le (by omega)
  | succ bound ih =>
    cases h : turn s source c with
    | error e c' =>
      rw [turns_refuse bound h]
      exact .refuse h
    | ok o c' =>
      cases o with
      | none =>
        rw [turns_stop bound h]
        exact .stop h
      | some s' =>
        obtain ⟨hc', hlt⟩ := hturn s c s' c' hc h
        rw [turns_next bound h]
        exact .next h (ih hc' (by omega))

theorem Repeats.eq_turns (h : Repeats source turn s c result) (hturn : Consuming source turn)
    (bound : Nat) (hc : IsBoundary source c.position)
    (hbound : utf8Length source.toList < bound + c.position) :
    result = turns turn bound s source c := by
  induction bound generalizing s c with
  | zero => exact absurd hc.le (by omega)
  | succ bound ih =>
    cases h with
    | stop h => exact (turns_stop bound h).symm
    | refuse h => exact (turns_refuse bound h).symm
    | next h hrest =>
      obtain ⟨hc', hlt⟩ := hturn _ _ _ _ hc h
      rw [turns_next bound h, ← ih hrest hc' (by omega)]

/-- **The bound on the turns of a loop makes no difference** if each turn consumes something: the
loop ends without it, and as with it. -/
theorem Consuming.repeats_iff (hturn : Consuming source turn) (hc : IsBoundary source c.position) :
    Repeats source turn s c result ↔ result = loop turn s source c := by
  have hbound : utf8Length source.toList < source.utf8ByteSize - c.position + 1 + c.position := by
    rw [utf8Length_toList]
    omega
  refine ⟨fun h => h.eq_turns hturn _ hc hbound, fun h => ?_⟩
  rw [h]
  exact hturn.repeats_turns _ hc hbound

end Loops

/-! ## The loops of the compiler -/

/-- The loops of the compiler, by their turns. -/
inductive LoopOf (settings : Settings) : {σ : Type} → (σ → Compiler (Option σ)) → Prop
  | operators (levels : Nat) :
    LoopOf settings (whileTurn (continuation (expression settings levels)))
  | arguments (levels : Nat) :
    LoopOf settings
      (commaTurn (fun found => do closed (expression settings levels); return found + 1)
        (scan (.symbol ')')) (expect ','))
  | parameters : LoopOf settings (commaTurn parameter (scan (.symbol ')')) (expect ','))
  | declared :
    LoopOf settings
      (commaTurn (fun () => declaration settings) (do return !(← scan (.symbol ','))) (return ()))
  | declarations : LoopOf settings (whileTurn (declarationGroup settings))
  | block (levels : Nat) :
    LoopOf settings
      (whileTurn (blockTurn
        (statementWith settings (expression settings levels) (body settings levels))))
  | functions : LoopOf settings (whileTurn (functionTurn settings))
  | statements : LoopOf settings (whileTurn (statementTurn settings))

theorem LoopOf.ahead {turn : σ → Compiler (Option σ)} (hturn : LoopOf settings turn) (p : Nat)
    (s : σ) : Ahead source p (fun o => o.isSome.toNat) (turn s) (turn s) := by
  cases hturn with
  | operators levels =>
    exact .consumingTurn (.continuation (.expression levels)) s
  | arguments levels =>
    exact .commaTurn (.scan (Cursor.goes_symbol ')')) (.expect ',') (Nat.le_refl 1)
      (fun _ => .bind (.closed (.expression levels)) fun _ => .pure rfl) s
  | parameters =>
    exact .commaTurn (.scan (Cursor.goes_symbol ')')) (.expect ',') (Nat.le_refl 1) .parameter s
  | declared =>
    exact .commaTurn (k := 0) .noComma (.pure rfl) (Nat.le_refl 1) (fun _ => .declaration) s
  | declarations =>
    exact .consumingTurn .declarationGroup s
  | block levels =>
    exact .consumingTurn (.blockTurn (.statementWith (.expression levels) (.body levels))) s
  | functions =>
    exact .consumingTurn .functionTurn s
  | statements =>
    exact .consumingTurn .statementTurn s

theorem LoopOf.consuming {turn : σ → Compiler (Option σ)} (hturn : LoopOf settings turn)
    (source : String) : Consuming source turn := by
  intro s c s' c' hc h
  exact (hturn.ahead c.position s c.position (Nat.le_refl _) c ⟨hc, Nat.le_refl _⟩).2 _ _ h

/-! ## Rules that contain themselves -/

/-- The compiler `outer` is `rule` with `inner` inside, and asks `inner` only where a piece of the
text has been consumed: any other compiler that does the same there will do. -/
def Descends (source : String) (rule : Compiler Unit → Compiler Unit)
    (inner outer : Compiler Unit) : Prop :=
  ∀ (inner' : Compiler Unit) (c : Compilation), IsBoundary source c.position →
    (∀ d : Compilation, IsBoundary source d.position → c.position < d.position →
      inner' source d = inner source d) →
    rule inner' source c = outer source c

/-- The rules of the grammar that contain others of a level less. -/
inductive DescentOf (settings : Settings) :
    (Compiler Unit → Compiler Unit) → Compiler Unit → Compiler Unit → Prop
  | expression (levels : Nat) :
    DescentOf settings (fun inner => nested settings (chain inner)) (expression settings levels)
      (expression settings (levels + 1))
  | test (levels : Nat) :
    DescentOf settings
      (fun inner => nested settings (bodyOf (statementWith settings inner (body settings levels))))
      (expression settings levels) (body settings (levels + 1))
  | body (levels : Nat) :
    DescentOf settings
      (fun inner =>
        nested settings (bodyOf (statementWith settings (expression settings levels) inner)))
      (body settings levels) (body settings (levels + 1))

/-- A compiler that does the same as another one behind a position. -/
theorem Ahead.of_eq {p : Nat} {y z : Compiler Unit} (hself : Ahead source p (fun _ => 0) y y)
    (h : ∀ d : Compilation, IsBoundary source d.position → p ≤ d.position →
      z source d = y source d) : Ahead source p (fun _ => 0) y z :=
  fun q hq c hc => ⟨h c hc.1 (Nat.le_trans hq hc.2), (hself q hq c hc).2⟩

theorem DescentOf.descends {rule : Compiler Unit → Compiler Unit} {inner outer : Compiler Unit}
    (hdescent : DescentOf settings rule inner outer) (source : String) :
    Descends source rule inner outer := by
  intro inner' c hc hinner
  have hstart : Past source c.position c := ⟨hc, Nat.le_refl _⟩
  cases hdescent with
  | expression levels =>
    have hexpr := Ahead.of_eq (.expression levels) hinner
    exact (Ahead.nested (.chain hexpr) _ (Nat.le_refl _) c hstart).1
  | test levels =>
    have hexpr := Ahead.of_eq (.expression levels) hinner
    exact (Ahead.nested (.bodyOf (.statementWith hexpr (.body levels))) _ (Nat.le_refl _) c
      hstart).1
  | body levels =>
    have hbody := Ahead.of_eq (.body levels) hinner
    exact (Ahead.nested (.bodyOf (.statementWith (.expression levels) hbody)) _ (Nat.le_refl _) c
      hstart).1

end Compiler

open Compiler

/-! ## Sizes -/

/-- A program of at most so many instructions, or a complaint that is about the text and not about
the compiler. -/
def IsWithin (bound : Nat) : Except Diagnostic Program → Prop
  | .ok p => p.code.size ≤ bound
  | .error d => ∀ reason, d.complaint ≠ .internal reason

theorem isWithin_compile (settings : Settings) (source : String) :
    IsWithin (utf8Length source.toList + 4) (compile settings source) := by
  cases h : compile settings source with
  | ok p =>
    obtain ⟨s, -, hsize, rfl⟩ := compile_eq_ok h
    have hlength := length_le_utf8Length source.toList
    change s.program.code.size ≤ _
    rw [Script.size_program]
    omega
  | error d =>
    rw [compile_eq] at h
    exact (Reader.Post.script settings source.toList).run_eq_error h

theorem isWithin_compileExpression (settings : Settings) (source : String) :
    IsWithin (utf8Length source.toList + 2) (compileExpression settings source) := by
  cases h : compileExpression settings source with
  | ok p =>
    obtain ⟨e, -, hsize, rfl⟩ := compileExpression_eq_ok h
    have hlength := length_le_utf8Length source.toList
    change e.program.code.size ≤ _
    rw [Expr.size_program]
    omega
  | error d =>
    rw [compileExpression_eq] at h
    exact (Reader.Post.wholeExpression settings source.toList).run_eq_error h

/-- **Compiling ends on every text, and the code is no longer than the text.** With any settings and
on any text, each turn of each loop that is not its last consumes a piece of the text, so that the
loop ends without a bound on its turns; each rule that contains itself does so only behind a piece
of the text that it has consumed; and the programs have at most four instructions more than the text
has bytes, those of expressions two. -/
theorem compile_ends_isWithin (settings : Settings) (source : String) :
    (∀ {σ : Type} {turn : σ → Compiler (Option σ)}, LoopOf settings turn →
      Consuming source turn ∧
        ∀ s c result, IsBoundary source c.position →
          (Repeats source turn s c result ↔ result = loop turn s source c)) ∧
    (∀ {rule : Compiler Unit → Compiler Unit} {inner outer : Compiler Unit},
      DescentOf settings rule inner outer → Descends source rule inner outer) ∧
    IsWithin (utf8Length source.toList + 4) (compile settings source) ∧
    IsWithin (utf8Length source.toList + 2) (compileExpression settings source) := by
  refine ⟨fun hturn => ?_, fun hdescent => hdescent.descends source,
    isWithin_compile settings source, isWithin_compileExpression settings source⟩
  have hconsuming := hturn.consuming source
  exact ⟨hconsuming, fun s c result hc => hconsuming.repeats_iff hc⟩

-- Both bounds are met.
example : (compile .standard "").toOption.map (·.code.size) = some 4 ∧
    (compileExpression .standard "1").toOption.map (·.code.size) = some 3 := by
  decide +kernel

end StackScript
