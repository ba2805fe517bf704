import StackScript.Proofs.Compile.Compiled
import StackScript.Proofs.Machine.Later
import StackScript.Proofs.Reading.Blanks
import StackScript.Proofs.Reading.InStep
import StackScript.Proofs.Rendering.Yields
import StackScript.Proofs.Script.Grouped
import StackScript.Proofs.Source.Ending

/-!
# Expressions and scripts that return them

A text that is compiled as an expression can also be put into a script that returns its value. The
script reads the same tree: the two readers stay in step although one text goes on behind the
expression (`expression_behind`). Its program has the code of the expression one instruction later,
behind the jump over no functions, and runs in the same way.
-/

namespace StackScript

open Lexeme

namespace Reader

/-! ## The end behind an expression -/

/-- Two readers, of which the second has `ending` behind the text of the first, or what blanks have
left of it. -/
def Behind (r s : Reading) : Prop :=
  s.scope = r.scope ∧ (s.rest = r.rest ++ ending ∨ s.rest = closed r.rest)

/-- It does not matter how the first reader refuses its text. -/
def Whatever (_ : Refusal) (o : Option Refusal) : Prop := o = none

section Behind

variable {α : Type} {r s : Reading}

theorem Behind.dropBlanks (h : Behind r s) :
    Lexeme.dropBlanks s.rest = closed (Lexeme.dropBlanks r.rest) := by
  obtain ⟨-, hrest | hrest⟩ := h
  · rw [hrest, dropBlanks_ending]
  · rw [hrest]
    cases r.rest with
    | nil => rfl
    | cons c rest => exact dropBlanks_ending (c :: rest)

theorem behind_scan {scanner : Scanner α} (hscan : scanner.Extends) (taken : α → Bool)
    (h : Behind r s) :
    Paired Whatever (scan scanner) (scan scanner) r s (Took taken Behind Behind) := by
  cases hr : scanner r.rest with
  | error e rest =>
    have herror : scan scanner r = .error e { r with rest } := by simp only [scan, hr]
    unfold Paired
    rw [herror]
    exact .inl rfl
  | ok a rest =>
    obtain ⟨rest', hs, hrest⟩ := hscan h.dropBlanks hr
    have hr' : scan scanner r = .ok a { r with rest } := by simp only [scan, hr]
    have hs' : scan scanner s = .ok a { s with rest := rest' } := by simp only [scan, hs]
    have hbehind : Same Behind a a { r with rest } { s with rest := rest' } := ⟨rfl, h.1, hrest⟩
    exact .of_ok hr' hs' (hbehind.took taken)

/-- No scanner that reads expressions goes over the end of the first text. -/
theorem behind_pace : Pace Whatever (fun _ _ _ => True) Behind Behind where
  scope h := h.1
  weaken h := h
  turns h := by
    refine .inr ⟨?_, fun _ => rfl⟩
    obtain ⟨-, hrest | hrest⟩ := h
    · rw [hrest, List.length_append]
      exact Nat.le_add_right _ _
    · rw [hrest]
      exact length_le_closed _
  skipBlanks h := ⟨h.1, .inr h.dropBlanks⟩
  symbol c hc h := behind_scan (Scanner.extends_isSome_take? (stable_symbol hc)) id h
  keyword w hw h :=
    behind_scan (Scanner.extends_isSome_take? (stable_word (isWord_of_mem_keywords hw))) id h
  identifier h := (behind_scan (Scanner.extends_take? stable_identifier) Option.isSome h).mono
    fun _ _ _ _ h => ⟨h, fun _ _ => trivial⟩
  binaryOperator h := behind_scan (Scanner.extends_take? stable_binaryOperator) Option.isSome h
  unaryOperator h := behind_scan (Scanner.extends_take? stable_unaryOperator) Option.isSome h
  string h := behind_scan Scanner.extends_string Option.isSome h
  number h := behind_scan Scanner.extends_number Option.isSome h
  refuse _ _ := .inl rfl
  refuseWord _ _ := .inl rfl

/-- **An expression is read as if its text ended.** -/
theorem expression_behind (settings : Settings) (levels : Nat) :
    InStep Whatever Behind (expression settings levels) (expression settings levels) :=
  .expression behind_pace (fun _ => .inl rfl) levels

end Behind

/-! ## Scripts that return an expression -/

section Returning

variable {α β : Type} {settings : Settings} {e : Expr} {r r' : Reading}

theorem bind_of_ok {x : Reader α} {f : α → Reader β} {a : α} (h : x r = .ok a r') :
    (x >>= f) r = f a r' := by
  show EStateM.bind x f r = _
  rw [EStateM.bind, h]

/-- Where nothing or a semicolon remains there is no expression. -/
theorem operand_refuses (inner : Reader Expr) (h : r.rest = [] ∨ ∃ rest, r.rest = ';' :: rest) :
    operand inner r = .error ⟨.expected "operand", r.rest⟩ r := by
  obtain ⟨text, scope⟩ := r
  rcases h with rfl | ⟨rest, rfl⟩ <;> rfl

/-- What is read as a whole expression, without the text behind it. -/
theorem expression_of_whole (h : wholeExpression settings r = .ok e r') :
    ∃ r₁, expression settings settings.maxNesting r = .ok e r₁ ∧ dropBlanks r₁.rest = [] := by
  obtain ⟨e', r₁, hexpr, hrest⟩ := bind_eq_ok.mp h
  obtain ⟨b, r₂, hscan, hend⟩ := bind_eq_ok.mp hrest
  have hatEnd : scan .atEnd r₁ = .ok (dropBlanks r₁.rest).isEmpty r₁.skip := rfl
  rw [hatEnd] at hscan
  cases hempty : (dropBlanks r₁.rest).isEmpty with
  | false =>
    rw [hempty] at hscan
    cases hscan
    cases hend
  | true =>
    rw [hempty] at hscan
    cases hscan
    cases hend
    exact ⟨r₁, hexpr, List.isEmpty_iff.mp hempty⟩

theorem chain_skipsBlanks (inner : Reader Expr) : SkipsBlanks (chain inner) :=
  ((SkipsBlanks.take? unaryOperator?).bind _).bind _

/-- An expression begins with something else than a semicolon. -/
theorem expression_opens {levels : Nat} (h : expression settings levels r = .ok e r') :
    ∃ c rest, dropBlanks r.rest = c :: rest ∧ c ≠ ';' := by
  cases levels with
  | zero => cases h
  | succ levels =>
    have hskip := (chain_skipsBlanks _ r).trans h
    obtain ⟨_, _, hoperand, -⟩ := bind_eq_ok.mp hskip
    cases htext : dropBlanks r.rest with
    | nil =>
      cases (operand_refuses (r := r.skip) _ (.inl htext)).symm.trans hoperand
    | cons c rest =>
      refine ⟨c, rest, rfl, ?_⟩
      rintro rfl
      cases (operand_refuses (r := r.skip) _ (.inr ⟨rest, htext⟩)).symm.trans hoperand

/-- What a `return` reads of the text of an expression. -/
theorem returnStatement_of_whole {text : List Char}
    (h : wholeExpression settings ⟨text, ∅⟩ = .ok e r') :
    returnStatement (expression settings settings.maxNesting) ⟨' ' :: (text ++ ending), ∅⟩ =
      .ok (.ret (some e)) ⟨[], ∅⟩ := by
  obtain ⟨r₁, hexpr, hend⟩ := expression_of_whole h
  have hscope : r₁.scope = ∅ :=
    ((Post.expression settings settings.maxNesting _ Scope.valid_empty).holds hexpr).consumes.1
  have hblanks : dropBlanks (' ' :: (text ++ ending)) = closed (dropBlanks text) :=
    dropBlanks_ending text
  cases hlevels : settings.maxNesting with
  | zero =>
    rw [hlevels] at hexpr
    cases hexpr
  | succ n =>
    rw [hlevels] at hexpr
    have hskip : expression settings (n + 1) (Reading.skip ⟨text, ∅⟩) = .ok e r₁ :=
      (chain_skipsBlanks _ ⟨text, ∅⟩).trans hexpr
    have hsemicolon : scan (.symbol ';') ⟨' ' :: (text ++ ending), ∅⟩ =
        .ok false ⟨closed (dropBlanks text), ∅⟩ := by
      obtain ⟨c, rest, htext, hc⟩ := expression_opens hexpr
      rw [← hblanks]
      refine scan_isSome_none ?_
      rw [hblanks, htext]
      exact if_neg hc
    have hbehind : Behind (Reading.skip ⟨text, ∅⟩) ⟨closed (dropBlanks text), ∅⟩ :=
      ⟨rfl, .inr rfl⟩
    have hpaired := expression_behind settings (n + 1) _ _ hbehind
    unfold Paired at hpaired
    rw [hskip] at hpaired
    obtain ⟨_, s₁, hs₁, rfl, hbehind₁⟩ := hpaired
    have hlast : scan (.symbol ';') s₁ = .ok true ⟨[], ∅⟩ := by
      rw [← hscope, ← hbehind₁.1]
      refine scan_isSome_some (a := ';') ?_
      rw [hbehind₁.dropBlanks, hend]
      rfl
    have hexpect : expect ';' s₁ = .ok () ⟨[], ∅⟩ := bind_of_ok hlast
    exact (bind_of_ok hsemicolon).trans ((bind_of_ok hs₁).trans (bind_of_ok hexpect))

end Returning

end Reader

/-- The script that returns the value of an expression. -/
def Script.returning (e : Expr) : Script := ⟨[], [], [], [], [.ret (some e)]⟩

open Reader in
/-- **The text of an expression can be returned by a script.** -/
theorem Reader.script_returning {settings : Settings} {text : List Char} {e : Expr} {r : Reading}
    (h : wholeExpression settings ⟨text, ∅⟩ = .ok e r) :
    script settings ⟨"return ".toList ++ (text ++ ending), ∅⟩ = .ok (.returning e) ⟨[], ∅⟩ := by
  have hkeyword : scan (.word "return") ⟨"return ".toList ++ (text ++ ending), ∅⟩ =
      .ok true ⟨' ' :: (text ++ ending), ∅⟩ := rfl
  have hstatement : statement settings ⟨"return ".toList ++ (text ++ ending), ∅⟩ =
      .ok (.ret (some e)) ⟨[], ∅⟩ :=
    (bind_of_ok hkeyword).trans (returnStatement_of_whole h)
  have hmore : scan .atEnd ⟨"return ".toList ++ (text ++ ending), ∅⟩ =
      .ok false ⟨"return ".toList ++ (text ++ ending), ∅⟩ := rfl
  have hitem : statementTurn settings ⟨"return ".toList ++ (text ++ ending), ∅⟩ =
      .ok (some (.ret (some e))) ⟨[], ∅⟩ :=
    (bind_of_ok hmore).trans (bind_of_ok hstatement)
  have hbody : loop (statementTurn settings) ⟨"return ".toList ++ (text ++ ending), ∅⟩ =
      .ok [.ret (some e)] ⟨[], ∅⟩ :=
    (bind_of_ok hitem).trans rfl
  -- neither a declaration nor a function begins with `return`
  have hdecls : declarations settings ⟨"return ".toList ++ (text ++ ending), ∅⟩ =
      .ok [] ⟨"return ".toList ++ (text ++ ending), ∅⟩ := rfl
  have hfunctions : functions settings ⟨"return ".toList ++ (text ++ ending), ∅⟩ =
      .ok [] ⟨"return ".toList ++ (text ++ ending), ∅⟩ := rfl
  exact (bind_of_ok hdecls).trans ((bind_of_ok hfunctions).trans
    ((bind_of_ok hdecls).trans (bind_of_ok hbody)))

/-! ## Their programs -/

section Programs

variable {e : Expr} {l : Limits}

/-- Where no names are in view an expression is made of constants. -/
theorem Expr.plain_of_wellFormed {e : Expr} (h : e.WellFormed (.top [] [])) : e.Plain := by
  match e with
  | .literal v => trivial
  | .var name place => cases h
  | .group e => exact Expr.plain_of_wellFormed (e := e) h
  | .call name callee args => exact absurd (Names.callee_lt_of_function? h.1) (Nat.not_lt_zero _)
  | .unary op e => exact ⟨h.1, h.2.1, plain_of_wellFormed h.2.2⟩
  | .binary op lhs rhs =>
    obtain ⟨hop, -, -, hl, hr⟩ := h
    exact ⟨hop, plain_of_wellFormed hl, plain_of_wellFormed hr⟩

/-- An expression of constants only computes. -/
theorem Expr.Plain.computes (site : Site) {e : Expr} (h : e.Plain) :
    ∀ i ∈ e.code site, i.Computes := by
  match e with
  | .literal v => exact List.forall_mem_singleton.mpr trivial
  | .group e =>
    have hclose : ∀ i ∈ [Instr.operator .closeParen], i.Computes :=
      List.forall_mem_singleton.mpr nofun
    exact List.forall_mem_cons.mpr
      ⟨nofun, List.forall_mem_append.mpr ⟨Expr.Plain.computes site (e := e) h, hclose⟩⟩
  | .unary op e =>
    refine List.forall_mem_cons.mpr ⟨?_, Expr.Plain.computes site h.2.2⟩
    rintro rfl
    cases h.1
  | .binary op lhs rhs =>
    obtain ⟨hop, hl, hr⟩ := h
    refine List.forall_mem_append.mpr ⟨hl.computes site,
      List.forall_mem_cons.mpr ⟨?_, hr.computes site⟩⟩
    rintro rfl
    revert hop
    decide

theorem Expr.Plain.closedCode_computes (site : Site) (h : e.Plain) :
    ∀ i ∈ e.closedCode site, i.Computes :=
  List.forall_mem_append.mpr
    ⟨h.computes site, List.forall_mem_singleton.mpr nofun⟩

/-- The code of an expression stands behind the jump over no functions. -/
theorem Script.codeAt_returning (e : Expr) :
    CodeAt (Script.returning e).program 0
      (.jump 1 :: (e.closedCode (.top []) ++ [.ret 0 0] ++ (Site.top []).defaultReturn)) := by
  have hmain : (Script.returning e).mainCode =
      e.closedCode (.top []) ++ [.ret 0 0] ++ (Site.top []).defaultReturn :=
    congrArg (· ++ (Site.top []).defaultReturn) (List.append_nil _)
  rw [← hmain]
  exact (Script.returning e).codeAt_program

open Machine in
/-- **A returned expression runs as the expression on its own**, behind a jump. -/
theorem Script.runFor_returning (he : e.Plain) (hbound : l.maxSteps = none) :
    ∃ fuel result result', runFor l e.program fuel idle = some result ∧
      runFor l (Script.returning e).program (fuel + 1) idle = some result' ∧
      EndsLater result result' := by
  have hcode := Script.codeAt_returning e
  have hjump : tick l (Script.returning e).program idle = .ok none idle.later :=
    (tick_eq_step (m := idle) hbound hcode.head).trans rfl
  have hsame : CodeAt e.program 0 (e.closedCode (.top []) ++ [.ret 0 0]) := .ofList
  obtain ⟨result, result', hrun, hrun', hends⟩ := runFor_later (m := idle) hbound
    (he.closedCode_computes _) hsame hcode.tail.left List.not_mem_nil
  refine ⟨_, result, result', hrun, ?_, hends⟩
  rw [runFor, hjump]
  exact hrun'

end Programs

/-! ## The two ways to compile an expression -/

theorem compileExpression_read {settings : Settings} {source : String} {p : Program}
    (h : compileExpression settings source = .ok p) :
    ∃ e r, Reader.wholeExpression settings ⟨source.toList, ∅⟩ = .ok e r ∧
      e.WellFormed (.top [] []) ∧ p = e.program := by
  rw [compileExpression_eq] at h
  unfold Reader.run at h
  split at h
  · rename_i e r hread
    have hwf := (Reader.Post.wholeExpression settings source.toList).holds hread
    exact ⟨e, r, hread, hwf.1, (Except.ok.inj h).symm⟩
  · cases h

/-- The results of two runs: the same value, or faults of the same cause in the same calls, in the
second run at the next instruction. -/
inductive AgreesLater : Except Fault Value → Except Fault Value → Prop
  | value (v : Value) : AgreesLater (.ok v) (.ok v)
  | fault (c : Cause) (index : Nat) (calls : List String) :
    AgreesLater (.error ⟨c, some index, calls⟩) (.error ⟨c, some (index + 1), calls⟩)

open Machine in
theorem Machine.EndsLater.ended {result result' : EStateM.Result Fault Machine Value}
    (h : EndsLater result result') :
    AgreesLater (ended result).1 (ended result').1 ∧
      (ended result').2.steps = (ended result).2.steps + 1 := by
  cases h with
  | value v m => exact ⟨.value v, rfl⟩
  | fault c index m => exact ⟨.fault c index m.calls.toList, rfl⟩

/-- **An expression on its own and a script that returns it agree.** If a text is accepted as an
expression, then the script that returns it is accepted too, with the text on a line of its own.
Without a bound on steps, and under any other limits, both programs end: with the same value or by
the same cause, one instruction later in the script, which takes exactly one step more. -/
theorem expression_as_return {settings : Settings} {source : String} {p : Program}
    (h : compileExpression settings source = .ok p) :
    ∃ q, compile settings ("return " ++ source ++ "\n;") = .ok q ∧
      ∀ limits : Limits, limits.maxSteps = none → ∀ m m' : Machine, ∃ fuel r r' m₁ m₁',
        m.run? limits p fuel = some (r, m₁) ∧ m'.run? limits q (fuel + 1) = some (r', m₁') ∧
        AgreesLater r r' ∧ m₁'.steps = m₁.steps + 1 := by
  obtain ⟨e, _, hread, hwf, rfl⟩ := compileExpression_read h
  have htext : ("return " ++ source ++ "\n;").toList =
      "return ".toList ++ (source.toList ++ ending) := by
    rw [String.toList_append, String.toList_append, List.append_assoc]
    rfl
  have hq : compile settings ("return " ++ source ++ "\n;") = .ok (Script.returning e).program := by
    rw [compile_eq]
    unfold Reader.run
    rw [htext, Reader.script_returning hread]
    rfl
  refine ⟨_, hq, fun limits hbound m m' => ?_⟩
  obtain ⟨fuel, result, result', hrun, hrun', hends⟩ :=
    Script.runFor_returning (Expr.plain_of_wellFormed hwf) hbound
  refine ⟨fuel, _, _, _, _, ?_, ?_, hends.ended⟩
  · rw [Machine.run?_eq (check_compiled (.inr h)).1]
    exact congrArg (Option.map Machine.ended) hrun
  · rw [Machine.run?_eq (check_compiled (.inl hq)).1]
    exact congrArg (Option.map Machine.ended) hrun'

/-- A division by zero, and behind it a comment that nothing ends. -/
theorem expression_as_return_comment :
    ∃ p q, compileExpression .standard "-(7) / 0 // %" = .ok p ∧
      compile .standard "return -(7) / 0 // %\n;" = .ok q ∧
      ∃ fuel r r' m₁ m₁', Machine.idle.run? .standard p fuel = some (r, m₁) ∧
        Machine.idle.run? .standard q (fuel + 1) = some (r', m₁') ∧ AgreesLater r r' ∧
        m₁'.steps = m₁.steps + 1 := by
  have hok : (compileExpression .standard "-(7) / 0 // %").isOk := by decide +kernel
  cases hp : compileExpression .standard "-(7) / 0 // %" with
  | error d =>
    rw [hp] at hok
    cases hok
  | ok p =>
    obtain ⟨q, hq, hruns⟩ := expression_as_return hp
    exact ⟨p, q, rfl, hq, hruns .standard rfl .idle .idle⟩

end StackScript
