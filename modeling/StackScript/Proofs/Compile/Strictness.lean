import StackScript.Proofs.Compile.Located
import StackScript.Proofs.Reading.Blanks

/-!
# What strictness refuses

Strict and lax reading of a source text, side by side. Inside functions they agree, since there an
unknown name is refused either way. Outside they agree up to the first assignment to an unknown
name, and this assignment is what strict reading complains about.

Where such an assignment stands is said by what is read in front of it: the declarations and
functions of the script, the statements before it, and the tests of the statements around it
(`AssignsOutside`).
-/

namespace StackScript

namespace Reader

/-! ## Assignments outside functions -/

mutual

/-- The statement at a reading, with `levels` levels for what is inside it, is an assignment outside
functions to a name that is not known, or has one inside it. The name stands at the front of
`place`. -/
inductive StatementAssigns (settings : Settings) (name : String) (place : List Char) :
    (levels : Nat) → Reading → Prop
  | target {levels : Nat} {r r₁ r₂ r₃ : Reading} {e : Expr} :
    Reader.name "statement" r = .ok (name, place) r₁ → scan (.symbol '=') r₁ = .ok true r₂ →
    expression settings levels r₂ = .ok e r₃ → r₃.scope.frame = none →
    r₃.scope.place? name = none → StatementAssigns settings name place levels r
  | ifBody {levels : Nat} {r r₁ r₂ : Reading} {test : Expr} :
    scan (.word "if") r = .ok true r₁ → expression settings levels r₁ = .ok test r₂ →
    BodyAssigns settings name place levels r₂ → StatementAssigns settings name place levels r
  | elseBody {levels : Nat} {r r₁ r₂ r₃ r₄ : Reading} {test : Expr} {yes : List Stmt} :
    scan (.word "if") r = .ok true r₁ → expression settings levels r₁ = .ok test r₂ →
    body settings levels r₂ = .ok yes r₃ → scan (.word "else") r₃ = .ok true r₄ →
    BodyAssigns settings name place levels r₄ → StatementAssigns settings name place levels r
  | whileBody {levels : Nat} {r r₁ r₂ : Reading} {test : Expr} :
    scan (.word "while") r = .ok true r₁ → expression settings levels r₁ = .ok test r₂ →
    BodyAssigns settings name place levels r₂ → StatementAssigns settings name place levels r

/-- A body has such an assignment inside it. -/
inductive BodyAssigns (settings : Settings) (name : String) (place : List Char) :
    (levels : Nat) → Reading → Prop
  | single {levels : Nat} {r r₁ : Reading} :
    scan (.symbol '{') r = .ok false r₁ → StatementAssigns settings name place levels r₁ →
    BodyAssigns settings name place (levels + 1) r
  | block {levels : Nat} {r r₁ : Reading} :
    scan (.symbol '{') r = .ok true r₁ → StatementsAssign settings name place levels r₁ →
    BodyAssigns settings name place (levels + 1) r

/-- One of the statements from a reading on has such an assignment. -/
inductive StatementsAssign (settings : Settings) (name : String) (place : List Char) :
    (levels : Nat) → Reading → Prop
  | here {levels : Nat} {r : Reading} :
    StatementAssigns settings name place levels r → StatementsAssign settings name place levels r
  | later {levels : Nat} {r r₁ : Reading} {st : Stmt} :
    statementWith settings (expression settings levels) (body settings levels) r = .ok st r₁ →
    StatementsAssign settings name place levels r₁ → StatementsAssign settings name place levels r

end

/-- Outside the functions of a source text stands an assignment to a name that is not known there,
with the name at the front of `place`. -/
def AssignsOutside (settings : Settings) (source : List Char) (name : String) (place : List Char) :
    Prop :=
  ∃ decls functions late r₁ r₂ r₃,
    declarations settings ⟨source, ∅⟩ = .ok decls r₁ ∧
    Reader.functions settings r₁ = .ok functions r₂ ∧
    declarations settings r₂ = .ok late r₃ ∧
    StatementsAssign settings name place settings.maxNesting r₃

/-! ## Strict and lax reading -/

/-- Both readers refuse their text alike, or the first one alone refuses an assignment of which `P`
holds. -/
def AgreeOr (source : List Char) (P : String → List Char → Prop) (e : Refusal) :
    Option Refusal → Prop
  | none => ∃ name, e.complaint = .undeclaredVariable name ∧ e.rest <:+ source ∧ P name e.rest
  | some e' => e' = e

theorem AgreeOr.imp {source : List Char} {P P' : String → List Char → Prop}
    (h : ∀ name place, P name place → P' name place) (e : Refusal) (o : Option Refusal)
    (he : AgreeOr source P e o) : AgreeOr source P' e o := by
  cases o with
  | none =>
    obtain ⟨name, hname, hsuffix, hP⟩ := he
    exact ⟨name, hname, hsuffix, h name e.rest hP⟩
  | some e' => exact he

/-- A reading inside a function or outside. -/
def IsInside (inside : Bool) (r : Reading) : Prop := r.scope.frame.isSome = inside

section Agree

variable {source : List Char} {P : String → List Char → Prop} {inside : Bool} {n levels : Nat}
  {r s : Reading}

theorem isInside_kept (inside : Bool) : Kept (IsInside inside) (IsInside inside) where
  weaken h := h
  rest _ h := h
  shorter _ _ h := h
  scope ht h := ht.trans h

theorem agree_pace : FullPace (AgreeOr source P) (WordAt source)
    (AtOnce source (IsInside inside)) (AtOnce source (IsInside inside)) :=
  fullPace_sameText (isInside_kept inside) fun _ _ => .inr rfl

theorem agree_deep {limit : Nat} (h : AtOnce source (IsInside inside) r s) :
    Refuses (AgreeOr source P) ⟨.nestingTooDeep limit, r.rest⟩ ⟨.nestingTooDeep limit, s.rest⟩ := by
  obtain ⟨rfl, -⟩ := h
  exact .inr rfl

theorem agree_expression (levels : Nat) :
    InStep (AgreeOr source P) (AtOnce source (IsInside inside)) (expression ⟨true, n⟩ levels)
      (expression ⟨false, n⟩ levels) := by
  refine .expression agree_pace.toPace (fun h => ?_) levels
  exact agree_deep h

theorem agree_declarations : InStep (AgreeOr source P) (AtOnce source (IsInside inside))
    (declarations ⟨true, n⟩) (declarations ⟨false, n⟩) :=
  .declarations agree_pace (agree_expression n)

/-- Inside a function an unknown name is refused in any case, so functions are read alike. -/
theorem agree_functions : InStep (AgreeOr source P) (AtOnce source (IsInside false))
    (functions ⟨true, n⟩) (functions ⟨false, n⟩) := by
  refine .functions agree_pace (F := AtOnce source (IsInside true)) agree_pace ?_ ?_
    (agree_expression n) (.statement agree_pace rfl (fun h => .inr h.2.2) agree_deep)
  · rintro r s t ht ⟨rfl, hsuffix, -⟩
    exact ⟨rfl, hsuffix, ht⟩
  · rintro r s t ht ⟨rfl, hsuffix, -⟩
    exact ⟨rfl, hsuffix, by rw [IsInside, ht]; rfl⟩

/-- The target of an assignment outside functions is the same, or the name is not known. -/
theorem agree_target {name : String} {place place' : List Char}
    (hat : WordAt source name place place') (h : AtOnce source (IsInside false) r s)
    (hP : r.scope.frame = none → r.scope.place? name = none → P name place) :
    Paired (AgreeOr source P) (target ⟨true, n⟩ name place) (target ⟨false, n⟩ name place') r s
      (Same (AtOnce source (IsInside false))) := by
  refine .bind_scope (agree_pace (P := P).scope h) ?_
  cases hplace : r.scope.place? name with
  | some p => exact .pure ⟨rfl, h⟩
  | none =>
    have hframe : r.scope.frame.isNone := Option.isSome_eq_false_iff.mp h.2.2
    exact .inl ⟨name, rfl, hat.2.1, hP (Option.isNone_iff_eq_none.mp hframe) hplace⟩

end Agree

/-! ## Statements outside functions -/

section Outside

variable {source : List Char} {n levels : Nat} {r s : Reading}

/-- Two readers are outside functions, at the same place of the source text. -/
abbrev Outside (source : List Char) : Reading → Reading → Prop := AtOnce source (IsInside false)

/-- Strict and lax reading agree on statements with `levels` levels, up to an assignment. -/
def AgreeOnStatement (source : List Char) (n levels : Nat) : Prop :=
  ∀ {r s}, Outside source r s →
    Paired (AgreeOr source fun name place => StatementAssigns ⟨true, n⟩ name place levels r)
      (statementWith ⟨true, n⟩ (expression ⟨true, n⟩ levels) (body ⟨true, n⟩ levels))
      (statementWith ⟨false, n⟩ (expression ⟨false, n⟩ levels) (body ⟨false, n⟩ levels))
      r s (Same (Outside source))

/-- Strict and lax reading agree on bodies with `levels` levels, up to an assignment. -/
def AgreeOnBody (source : List Char) (n levels : Nat) : Prop :=
  ∀ {r s}, Outside source r s →
    Paired (AgreeOr source fun name place => BodyAssigns ⟨true, n⟩ name place levels r)
      (body ⟨true, n⟩ levels) (body ⟨false, n⟩ levels) r s (Same (Outside source))

theorem agree_plainStatement (h : Outside source r s) :
    Paired (AgreeOr source fun name place => StatementAssigns ⟨true, n⟩ name place levels r)
      (plainStatement ⟨true, n⟩ (expression ⟨true, n⟩ levels))
      (plainStatement ⟨false, n⟩ (expression ⟨false, n⟩ levels)) r s (Same (Outside source)) := by
  refine (agree_pace.name "statement" h).bind_eq
    fun (name, p) (name', p') r₁ s₁ hname ⟨hsame, hat, h₁⟩ => ?_
  cases hsame
  refine (agree_pace.symbol '(' (by decide) h₁).ite_eq (fun r₂ s₂ _ h₂ => ?_)
    fun r₂ s₂ hopen h₂ => ?_
  · refine (InStep.call agree_pace.toPace (agree_expression levels) hat r₂ s₂ h₂).bind
      fun call call' r₃ s₃ ⟨hcall, h₃⟩ => ?_
    subst hcall
    exact (agree_pace.expect ';' h₃).bind fun _ _ r₄ s₄ ⟨_, h₄⟩ => .pure ⟨rfl, h₄⟩
  obtain rfl := eq_skip_of_scan hopen
  refine (agree_pace.symbol '=' (by decide) h₂).ite_eq (fun r₃ s₃ hequals h₃ => ?_)
    fun r₃ s₃ _ h₃ => .refuse (agree_pace.refuse trivial h₃)
  have hequals := (SkipsBlanks.isSome_take? _ r₁).symm.trans hequals
  refine (agree_expression levels r₃ s₃ h₃).bind_eq fun e e' r₄ s₄ hexpr ⟨he, h₄⟩ => ?_
  refine (agree_target hat h₄ fun hframe hplace => .target hname hequals hexpr hframe hplace).bind
    fun place place' r₅ s₅ ⟨hplace, h₅⟩ => ?_
  exact (agree_pace.expect ';' h₅).bind fun _ _ r₆ s₆ ⟨_, h₆⟩ => .pure ⟨by rw [he, hplace], h₆⟩

theorem agree_ifStatement (hbody : AgreeOnBody source n levels) {r₁ s₁ : Reading}
    (hif : scan (.word "if") r = .ok true r₁) (h : Outside source r₁ s₁) :
    Paired (AgreeOr source fun name place => StatementAssigns ⟨true, n⟩ name place levels r)
      (ifStatement (expression ⟨true, n⟩ levels) (body ⟨true, n⟩ levels))
      (ifStatement (expression ⟨false, n⟩ levels) (body ⟨false, n⟩ levels)) r₁ s₁
      (Same (Outside source)) := by
  refine (agree_expression levels r₁ s₁ h).bind_eq fun test test' r₂ s₂ hread ⟨htest, h₂⟩ => ?_
  refine ((hbody h₂).weaken (AgreeOr.imp fun _ _ h => .ifBody hif hread h)).bind_eq
    fun yes yes' r₃ s₃ hread' ⟨hyes, h₃⟩ => ?_
  refine (agree_pace.keyword "else" (by decide) h₃).ite_eq (fun r₄ s₄ helse h₄ => ?_)
    fun r₄ s₄ _ h₄ => .pure ⟨by rw [htest, hyes], h₄⟩
  refine ((hbody h₄).weaken (AgreeOr.imp fun _ _ h => .elseBody hif hread hread' helse h)).bind
    fun no no' r₅ s₅ ⟨hno, h₅⟩ => .pure ⟨by rw [htest, hyes, hno], h₅⟩

theorem agree_whileStatement (hbody : AgreeOnBody source n levels) {r₁ s₁ : Reading}
    (hwhile : scan (.word "while") r = .ok true r₁) (h : Outside source r₁ s₁) :
    Paired (AgreeOr source fun name place => StatementAssigns ⟨true, n⟩ name place levels r)
      (whileStatement (expression ⟨true, n⟩ levels) (body ⟨true, n⟩ levels))
      (whileStatement (expression ⟨false, n⟩ levels) (body ⟨false, n⟩ levels)) r₁ s₁
      (Same (Outside source)) := by
  refine (agree_expression levels r₁ s₁ h).bind_eq fun test test' r₂ s₂ hread ⟨htest, h₂⟩ => ?_
  exact ((hbody h₂).weaken (AgreeOr.imp fun _ _ h => .whileBody hwhile hread h)).bind
    fun b b' r₃ s₃ ⟨hb, h₃⟩ => .pure ⟨by rw [htest, hb], h₃⟩

theorem agree_statement (hbody : AgreeOnBody source n levels) :
    AgreeOnStatement source n levels := by
  intro r s h
  refine (agree_pace.keyword "return" (by decide) h).ite_eq
    (fun r₁ s₁ _ h₁ => InStep.returnStatement agree_pace (agree_expression levels) r₁ s₁ h₁)
    fun r₁ s₁ hno h₁ => ?_
  obtain rfl := eq_skip_of_scan hno
  refine (agree_pace.keyword "if" (by decide) h₁).ite_eq (fun r₂ s₂ hif h₂ => ?_)
    fun r₂ s₂ hno h₂ => ?_
  · exact agree_ifStatement hbody ((SkipsBlanks.isSome_take? _ r).symm.trans hif) h₂
  obtain rfl := eq_skip_of_scan hno
  rw [r.skip_skip] at h₂ ⊢
  refine (agree_pace.keyword "while" (by decide) h₂).ite_eq (fun r₃ s₃ hwhile h₃ => ?_)
    fun r₃ s₃ hno h₃ => ?_
  · exact agree_whileStatement hbody ((SkipsBlanks.isSome_take? _ r).symm.trans hwhile) h₃
  obtain rfl := eq_skip_of_scan hno
  rw [r.skip_skip] at h₃ ⊢
  obtain rfl := h₃.1
  have hskip : Paired
      (AgreeOr source fun name place => StatementAssigns ⟨true, n⟩ name place levels r)
      (scan .skipBlanks) (scan .skipBlanks) r.skip r.skip
      fun _ _ r₄ s₄ => r₄ = r.skip ∧ s₄ = r.skip := .of_ok rfl rfl ⟨r.skip_skip, r.skip_skip⟩
  refine hskip.bind fun _ _ r₄ s₄ ⟨hr₄, hs₄⟩ => .bind_get ?_
  subst hr₄ hs₄
  refine (agree_pace.keyword "var" (by decide) h₃).ite_eq (fun r₅ s₅ _ h₅ => ?_)
    fun r₅ s₅ hno h₅ => ?_
  · exact (Paired.misplacedDeclaration (congrArg Reading.scope h₅.1)
      fun _ => agree_pace.refuse trivial h₃).bind fun _ _ _ _ hnever => hnever.elim
  · obtain rfl := eq_skip_of_scan hno
    obtain rfl := h₅.1
    rw [r.skip_skip]
    exact (agree_plainStatement ⟨rfl, h.2⟩).of_skip ((SkipsBlanks.name _).bind _)
      ((SkipsBlanks.name _).bind _)

/-- Both readers refuse their text alike, or the first one alone refuses an assignment in one of the
statements from a reading on. -/
abbrev AgreeOrLater (source : List Char) (n levels : Nat) (r : Reading) :
    Refusal → Option Refusal → Prop :=
  AgreeOr source fun name place => StatementsAssign ⟨true, n⟩ name place levels r

/-- The last part of a turn of a loop over statements. -/
theorem agree_turn (hstatement : AgreeOnStatement source n levels) (h : Outside source r s) :
    Paired (AgreeOrLater source n levels r)
      (do return some (← statementWith ⟨true, n⟩ (expression ⟨true, n⟩ levels)
        (body ⟨true, n⟩ levels)))
      (do return some (← statementWith ⟨false, n⟩ (expression ⟨false, n⟩ levels)
        (body ⟨false, n⟩ levels)))
      r.skip s.skip fun o o' r' s' => Same (Outside source) o o' r' s' ∧
        (o.isSome → ∀ e x, AgreeOrLater source n levels r' e x →
          AgreeOrLater source n levels r e x) := by
  refine Paired.of_skip ((SkipsBlanks.statementWith _ _ _).bind _)
    ((SkipsBlanks.statementWith _ _ _).bind _) ?_
  refine ((hstatement h).weaken (AgreeOr.imp fun _ _ h => .here h)).bind_eq
    fun st st' r₁ s₁ hread ⟨hst, h₁⟩ => .pure ⟨⟨by rw [hst], h₁⟩, fun _ => ?_⟩
  exact AgreeOr.imp fun _ _ h => .later hread h

theorem agree_untilBrace (hstatement : AgreeOnStatement source n levels) (h : Outside source r s) :
    Paired (AgreeOrLater source n levels r)
      (untilBrace (statementWith ⟨true, n⟩ (expression ⟨true, n⟩ levels) (body ⟨true, n⟩ levels)))
      (untilBrace
        (statementWith ⟨false, n⟩ (expression ⟨false, n⟩ levels) (body ⟨false, n⟩ levels)))
      r s (Same (Outside source)) := by
  refine Paired.loop (E := AgreeOrLater source n levels) (fun {r s} h => ?_) agree_pace.refuse
    (.inl (by rw [h.1])) h
  refine (agree_pace.symbol '}' (by decide) h).ite_eq
    (fun r₁ s₁ _ h₁ => .pure ⟨⟨rfl, h₁⟩, fun hnone => by cases hnone⟩) fun r₁ s₁ hopen h₁ => ?_
  obtain rfl := eq_skip_of_scan hopen
  obtain rfl := h₁.1
  refine (agree_pace.took_atEnd h₁).ite_eq
    (fun r₂ s₂ _ h₂ => .refuse (agree_pace.refuse trivial h₂)) fun r₂ s₂ hmore h₂ => ?_
  obtain rfl := h₂.1
  obtain rfl := eq_skip_of_atEnd hmore
  rw [r.skip_skip]
  exact agree_turn hstatement ⟨rfl, h.2⟩

/-- **Strict and lax reading agree on bodies outside functions**, up to an assignment. -/
theorem agree_body (n levels : Nat) : AgreeOnBody source n levels := by
  induction levels with
  | zero => exact fun h => .of_error rfl rfl (agree_deep h)
  | succ levels ih =>
    intro r s h
    refine (agree_pace.symbol '{' (by decide) h).ite_eq (fun r₁ s₁ hopen h₁ => ?_)
      fun r₁ s₁ hopen h₁ => ?_
    · exact (agree_untilBrace (agree_statement ih) h₁).weaken
        (AgreeOr.imp fun _ _ h => .block hopen h)
    · exact ((agree_statement ih h₁).weaken (AgreeOr.imp fun _ _ h => .single hopen h)).map _

theorem agree_statements (h : Outside source r s) :
    Paired (AgreeOrLater source n n r)
      (loop (statementTurn ⟨true, n⟩)) (loop (statementTurn ⟨false, n⟩)) r s
      (Same (Outside source)) := by
  refine Paired.loop (E := AgreeOrLater source n n) (fun {r s} h => ?_) agree_pace.refuse
    (.inl (by rw [h.1])) h
  refine (agree_pace.took_atEnd h).ite_eq
    (fun r₁ s₁ _ h₁ => .pure ⟨⟨rfl, h₁⟩, fun hnone => by cases hnone⟩) fun r₁ s₁ hmore h₁ => ?_
  obtain rfl := h₁.1
  obtain rfl := eq_skip_of_atEnd hmore
  exact agree_turn (agree_statement (agree_body n n)) ⟨rfl, h.2⟩

/-- **Strict and lax reading agree on a script**, up to an assignment outside its functions. -/
theorem agree_script (source : List Char) (n : Nat) :
    Paired (AgreeOr source (AssignsOutside ⟨true, n⟩ source)) (script ⟨true, n⟩) (script ⟨false, n⟩)
      ⟨source, ∅⟩ ⟨source, ∅⟩ (Same (Outside source)) := by
  have h : Outside source ⟨source, ∅⟩ ⟨source, ∅⟩ := ⟨rfl, List.suffix_refl _, rfl⟩
  refine (agree_declarations _ _ h).bind_eq fun decls decls' r₁ s₁ hread₁ ⟨hdecls, h₁⟩ => ?_
  refine (agree_functions r₁ s₁ h₁).bind_eq fun fs fs' r₂ s₂ hread₂ ⟨hfs, h₂⟩ => ?_
  refine (agree_declarations r₂ s₂ h₂).bind_eq fun late late' r₃ s₃ hread₃ ⟨hlate, h₃⟩ => ?_
  refine ((agree_statements h₃).weaken (AgreeOr.imp fun _ _ h =>
    ⟨decls, fs, late, r₁, r₂, r₃, hread₁, hread₂, hread₃, h⟩)).bind
      fun block block' r₄ s₄ ⟨hblock, h₄⟩ => ?_
  subst hdecls hfs hlate hblock
  exact .bind_scope (congrArg Reading.scope h₄.1) (.pure ⟨rfl, h₄⟩)

end Outside

end Reader

open Reader

/-- **Lax compiling extends strict compiling.** They give the same, program or diagnostic, unless
the strict one complains about the target of an assignment outside all functions, of which the name
is not known there. In particular they agree on every text that is accepted strictly. -/
theorem lax_extends_strict (n : Nat) (source : String) :
    (compile ⟨false, n⟩ source = compile ⟨true, n⟩ source ∨
      ∃ d name before after, compile ⟨true, n⟩ source = .error d ∧
        d.complaint = .undeclaredVariable name ∧ source.toList = before ++ after ∧
        d.position = utf8Length before ∧ AssignsOutside ⟨true, n⟩ source.toList name after) ∧
    ∀ p, compile ⟨true, n⟩ source = .ok p → compile ⟨false, n⟩ source = .ok p := by
  have hrun := (agree_script source.toList n).run
  rw [compile_eq, compile_eq]
  rcases hrun with ⟨a, hstrict, hlax⟩ |
    ⟨e, hstrict, ⟨name, hname, hsuffix, hassigns⟩ | ⟨e', hlax, rfl⟩⟩
  · rw [hstrict, hlax]
    exact ⟨.inl rfl, fun _ h => h⟩
  · rw [hstrict]
    obtain ⟨before, hsource⟩ := hsuffix
    refine ⟨.inr ⟨_, name, before, e.rest, rfl, hname, hsource.symm, ?_, hassigns⟩,
      fun p hp => by cases hp⟩
    show utf8Length source.toList - utf8Length e.rest = utf8Length before
    rw [← hsource, utf8Length_append, Nat.add_sub_cancel]
  · rw [hstrict, hlax]
    exact ⟨.inl rfl, fun _ h => h⟩

/-- The first assignment to a name stands in a branch, after a function in which it is a local. -/
def branchText : String :=
  "function f() \x7b var x = 1; x = 2; return x; \x7d if (true) \x7b x = f(); \x7d return x;"

theorem lax_extends_strict_branch :
    (compile ⟨false, 8⟩ branchText).isOk ∧
    (∃ d after, compile ⟨true, 8⟩ branchText = .error d ∧ d.complaint = .undeclaredVariable "x" ∧
      AssignsOutside ⟨true, 8⟩ branchText.toList "x" after) ∧
    ∃ p, compile ⟨true, 8⟩ ("var x; " ++ branchText) = .ok p ∧
      compile ⟨false, 8⟩ ("var x; " ++ branchText) = .ok p := by
  have hlax : (compile ⟨false, 8⟩ branchText).isOk := by decide +kernel
  have hstrict : (match compile ⟨true, 8⟩ branchText with
      | .ok _ => false
      | .error d => d.complaint = .undeclaredVariable "x" : Bool) := by
    decide +kernel
  have hdeclared : (compile ⟨true, 8⟩ ("var x; " ++ branchText)).isOk := by decide +kernel
  refine ⟨hlax, ?_, ?_⟩
  · rcases (lax_extends_strict 8 branchText).1 with heq |
      ⟨d, name, before, after, hd, hname, -, -, h⟩
    · rw [heq] at hlax
      cases hd : compile ⟨true, 8⟩ branchText with
      | ok p =>
        rw [hd] at hstrict
        cases hstrict
      | error d =>
        rw [hd] at hlax
        cases hlax
    · rw [hd] at hstrict
      have hx := of_decide_eq_true hstrict
      rw [hname] at hx
      cases hx
      exact ⟨d, after, hd, hname, h⟩
  · cases hp : compile ⟨true, 8⟩ ("var x; " ++ branchText) with
    | error d =>
      rw [hp] at hdeclared
      cases hdeclared
    | ok p => exact ⟨p, rfl, (lax_extends_strict 8 _).2 p hp⟩

end StackScript
