import StackScript.Proofs.Emission.Tracks
import StackScript.Proofs.Reading.Expression

/-!
# Emitting expressions

The compiler emits the code of the expression that is read (`EmitsExpr.expression`), by induction on
the levels that may be opened; the rules of the grammar follow each other as in `Compiler`. An
operator is emitted between its operands before it is known where it stands in the tree, and it is
where the code of the tree has it (`Expr.code_extendAll`).
-/

namespace StackScript

namespace Expr

theorem argsCode_append (s : Site) (args more : List Expr) :
    argsCode s (args ++ more) = argsCode s args ++ argsCode s more := by
  induction args with
  | nil => rfl
  | cons e rest ih => simp [argsCode, ih]

theorem code_extendAll (s : Site) (e : Expr) (ops : List (Operator × Expr)) (op : Operator)
    (operand : Expr) :
    (e.extendAll (ops ++ [(op, operand)])).code s =
      (e.extendAll ops).code s ++ .operator op :: operand.code s := by
  rw [extendAll_append]
  exact code_extend s (e.extendAll ops) op operand

end Expr

/-- A compiler emits the code of the expression that a reader reads. -/
abbrev EmitsExpr (g : Stage) (levels : Nat) : Reader Expr → Compiler Unit → Prop :=
  EmitsCode g levels fun e s _ => e.code s

namespace EmitsExpr

variable {g : Stage} {levels : Nat} {t : Site → List Instr} {r : Reading} {c : Compilation}
  {inner : Reader Expr} {inner' : Compiler Unit}

/-- An expression with its end. -/
theorem closed (hinner : EmitsExpr g levels inner inner') :
    EmitsCode g levels (fun e s _ => e.closedCode s) inner (Compiler.closed inner') := by
  intro t r c h
  refine (hinner t r c h).last fun e _ r' c' h' => ?_
  refine ⟨(), _, Compiler.bind_ok (Compiler.emit_push _ _ _), (h'.push _).congr fun s _ => ?_⟩
  exact List.append_assoc _ _ _

/-- A literal is a single instruction. -/
theorem literal (h : Tracks g levels t r c) (v : Value) :
    Emits g.source (pure (Expr.literal v) : Reader Expr)
      (Compiler.emit (·.pushValue v) >>= fun _ => pure ()) r c fun e _ r' c' =>
        Tracks g levels (fun s => t s ++ e.code s) r' c' :=
  .emit h fun _ h' => .pure h'

section Rules

variable (hinner : EmitsExpr g levels inner inner')
  (hargs : Reader.Consuming
    (Reader.commaTurn inner (Reader.scan (.symbol ')')) (Reader.expect ',')))

include hinner hargs

theorem call (h : Tracks g levels t r c) (name : String) (place : List Char) :
    Emits g.source (Reader.call inner name place)
      (Compiler.call inner' name (positionOf g.source place)) r c fun a _ r' c' =>
        Tracks g levels (fun s => t s ++ (Expr.call name a.1 a.2).code s) r' c' := by
  refine .bind_scope (.bind_get ?_)
  rw [h.function? name]
  cases r.scope.function? name with
  | none => exact .refuseAt rfl
  | some found =>
    obtain ⟨callee, arity⟩ := found
    refine .emit h fun c₁ h₁ => ?_
    refine (Emits.parenthesised (I := fun args found r c => found = args.length ∧
      Tracks g levels (fun s => t s ++ .operator .prepareCall :: Expr.argsCode s args) r c)
      (fun args found => Tracks.moves.and_scope fun _ => found = args.length) hargs ?_
      ⟨rfl, h₁⟩).bind fun args n r₂ c₂ h₂ => ?_
    · rintro args _ r c ⟨rfl, h⟩
      refine ((closed hinner) _ r c h).last fun e _ r' c' h' => ⟨_, c', rfl, ?_, ?_⟩
      · rw [List.length_append, List.length_singleton]
      · refine h'.congr fun s _ => ?_
        simp [Expr.argsCode_append, Expr.argsCode, Expr.closedCode]
    · obtain ⟨rfl, h₂⟩ := h₂
      change Emits g.source (if args.length = arity then _ else _)
        (if args.length = arity then _ else _) r₂ c₂ _
      split
      · refine .emit h₂ fun c₃ h₃ => .pure (h₃.congr fun s hs => ?_)
        rw [Expr.code, List.append_assoc, List.cons_append, Site.entry, hs.entries]
      · exact .refuseAt rfl

theorem reference : EmitsExpr g levels (Reader.reference inner) (Compiler.reference inner') := by
  intro t r c h
  refine (Emits.name Tracks.moves "operand" h).bind fun found found' r₁ c₁ ⟨hfound, h₁⟩ => ?_
  subst hfound
  obtain ⟨name, place⟩ := found
  refine .iteScan Tracks.moves (scans_symbol '(') h₁ (fun r₂ c₂ h₂ => ?_) fun r₂ c₂ h₂ => ?_
  · exact (call hinner hargs h₂ name place).map
  · refine .bind_scope ?_
    cases hp : r₂.scope.place? name with
    | some p =>
      obtain ⟨c₃, hrun, h₃⟩ := h₂.load hp (positionOf g.source place)
      exact .of_ok rfl hrun h₃
    | none =>
      have hresolve := h₂.resolve? name
      rw [hp] at hresolve
      refine .bind_get ?_
      rw [hresolve]
      exact .refuseAt rfl

theorem primary : EmitsExpr g levels (Reader.primary inner) (Compiler.primary inner') := by
  intro t r c h
  refine .iteScan Tracks.moves (scans_symbol '(') h (fun r₁ c₁ h₁ => ?_) fun r₁ c₁ h₁ => ?_
  · refine .emit h₁ fun c₂ h₂ => ?_
    refine (hinner _ r₁ c₂ h₂).bind fun e _ r₃ c₃ h₃ => ?_
    refine (Emits.expect Tracks.moves ')' h₃).bind fun _ _ r₄ c₄ h₄ => ?_
    refine .emit h₄ fun c₅ h₅ => .pure (h₅.congr fun s _ => ?_)
    simp [Expr.code]
  refine (Emits.scan Tracks.moves scans_string h₁).bind fun o o' r₂ c₂ ⟨ho, h₂⟩ => ?_
  subst ho
  cases o' with
  | some v => exact literal h₂ _
  | none =>
    refine (Emits.scan Tracks.moves scans_number h₂).bind fun o o' r₃ c₃ ⟨ho, h₃⟩ => ?_
    subst ho
    cases o' with
    | some v => exact literal h₃ _
    | none =>
      refine .iteScan Tracks.moves (scans_keyword (by decide)) h₃ (fun r₄ c₄ h₄ => ?_)
        fun r₄ c₄ h₄ => ?_
      · exact literal h₄ _
      refine .iteScan Tracks.moves (scans_keyword (by decide)) h₄ (fun r₅ c₅ h₅ => ?_)
        fun r₅ c₅ h₅ => ?_
      · exact literal h₅ _
      exact reference hinner hargs _ r₅ c₅ h₅

theorem operand : EmitsExpr g levels (Reader.operand inner) (Compiler.operand inner') := by
  intro t r c h
  refine (Emits.scan Tracks.moves scans_unaryOperator h).bind fun o o' r₁ c₁ ⟨ho, h₁⟩ => ?_
  subst ho
  cases o' with
  | none => exact primary hinner hargs t r₁ c₁ h₁
  | some op =>
    refine .emit h₁ fun c₂ h₂ => ?_
    refine ((primary hinner hargs _ r₁ c₂ h₂).mono fun e _ r₃ c₃ h₃ => ?_).map
    refine h₃.congr fun s _ => ?_
    rw [List.append_assoc]
    rfl

theorem chain (hoperators : Reader.Consuming (Reader.continuation inner)) :
    EmitsExpr g levels (Reader.chain inner) (Compiler.chain inner') := by
  intro t r c h
  refine (operand hinner hargs t r c h).bind fun first _ r₁ c₁ h₁ => .map ?_
  refine Emits.repeatWhile (I := fun ops r c =>
    Tracks g levels (fun s => t s ++ (first.extendAll ops).code s) r c)
    (fun _ => Tracks.moves) hoperators (fun ops r c h => ?_) h₁
  refine (Emits.scan Tracks.moves scans_binaryOperator h).bind fun o o' r₂ c₂ ⟨ho, h₂⟩ => ?_
  subst ho
  cases o' with
  | none => exact .pure ⟨rfl, by rwa [Option.toList_none, List.append_nil]⟩
  | some op =>
    refine .emit h₂ fun c₃ h₃ => ?_
    refine (operand hinner hargs _ r₂ c₃ h₃).bind fun e _ r₄ c₄ h₄ => .pure ⟨rfl, ?_⟩
    refine h₄.congr fun s _ => ?_
    simp [Expr.code_extendAll]

end Rules

/-- **The code of an expression is emitted as it is read.** -/
theorem expression {settings : Settings} (hlimit : g.limit = settings.maxNesting) (levels : Nat) :
    EmitsExpr g levels (Reader.expression settings levels)
      (Compiler.expression settings levels) := by
  induction levels with
  | zero => exact EmitsCode.tooDeep hlimit
  | succ levels ih =>
    exact EmitsCode.nested hlimit
      (chain ih (Reader.LoopOf.arguments levels).consuming
        (Reader.LoopOf.operators levels).consuming)

end EmitsExpr

end StackScript
