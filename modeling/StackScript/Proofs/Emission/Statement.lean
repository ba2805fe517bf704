import StackScript.Proofs.Emission.Expression
import StackScript.Proofs.Reading.Statement

/-!
# Emitting declarations and statements

The compiler emits the code of the declarations and statements that are read
(`EmitsCode.declarations`, `EmitsCode.body`, `EmitsCode.statement`). A jump is reserved where it
stands and patched when its target is reached; the draft then has the instruction that the code of
the tree has there.
-/

namespace StackScript

namespace Tracks

variable {g : Stage} {levels : Nat} {t : Site → List Instr} {r : Reading} {c : Compilation}

theorem isSome_frame (h : Tracks g levels t r c) :
    r.scope.frame.isSome = c.current.isSome := by
  rw [h.frame, Option.isSome_map]

/-- A local is added to the function that is being compiled. -/
theorem addLocal (h : Tracks g levels t r c) {f : OpenFunction} {name : String} {frame : Frame}
    (hf : c.current = some f) (hadd : f.frame.addLocal? name = some frame) :
    Tracks g levels t { r with scope := { r.scope with frame := some frame } }
      { c with current := some { f with frame } } := by
  have hframe : r.scope.frame = some f.frame := h.frame_eq_some hf
  refine { h with
    place := ⟨h.place.rest, h.place.position⟩
    frame := rfl
    valid := h.valid.addLocal hframe hadd
    inside := ?_
    regular := ?_
    pending := fun s hs => ?_ }
  · obtain ⟨-, rfl⟩ := Frame.addLocal?_eq_some_iff.mp hadd
    simpa only [hf, Option.map_some] using h.inside
  · rintro _ ⟨⟩
    exact (h.regular f hf).addLocal hadd
  · have hpending := h.pending s hs
    simp only [Compilation.fixups, hf, Option.map_some, Option.getD_some] at hpending ⊢
    rwa [(h.regular f hf).fixups_addLocal hadd]

/-- A global is declared outside all functions. -/
theorem addGlobal (h : Tracks g levels t r c) (hf : c.current = none) (name : String) :
    Tracks g levels t
      { r with scope := ⟨(r.scope.globals.declare name).2, r.scope.functions, none⟩ }
      { c with globals := (c.globals.declare name).2 } :=
  { h with
    place := ⟨h.place.rest, h.place.position⟩
    globals := by rw [h.globals]
    frame := by rw [hf, Option.map_none]
    valid := Scope.valid_of_frame_none rfl }

theorem place?_addGlobal (h : Tracks g levels t r c) (hf : c.current = none) (name : String) :
    Scope.place? ⟨(r.scope.globals.declare name).2, r.scope.functions, none⟩ name =
      some (.global (r.scope.globals.declare name).1) := by
  have hframe : r.scope.frame = none := h.frame_eq_none hf
  have hnames := (Scope.declare_names hframe name).1
  rw [hframe] at hnames
  rw [Scope.place?_eq (h.addGlobal hf name).valid, hnames]
  exact (Scope.declare_names hframe name).2

theorem place?_addLocal (h : Tracks g levels t r c) {f : OpenFunction} {name : String}
    {frame : Frame} (hf : c.current = some f) (hadd : f.frame.addLocal? name = some frame) :
    { r.scope with frame := some frame }.place? name = some (.frame f.frame.vars.length) := by
  have hframe : r.scope.frame = some f.frame := h.frame_eq_some hf
  rw [Scope.place?_eq (h.addLocal hf hadd).valid, (Scope.addLocal_names hframe hadd).1]
  exact (Scope.addLocal_names hframe hadd).2.2

end Tracks

/-! ## Code of lists -/

theorem Decl.listCode_append (s : Site) (decls more : List Decl) :
    Decl.listCode s (decls ++ more) = Decl.listCode s decls ++ Decl.listCode s more :=
  List.flatMap_append

theorem Stmt.blockCode_snoc (s : Site) (start : Nat) (body : List Stmt) (st : Stmt) :
    Stmt.blockCode s start (body ++ [st]) = Stmt.blockCode s start body ++
      st.code s (start + (Stmt.blockCode s start body).length) := by
  induction body generalizing start with
  | nil => simp [Stmt.blockCode]
  | cons first rest ih => simp [Stmt.blockCode, ih, Nat.add_assoc]

variable {g : Stage} {levels : Nat} {t : Site → List Instr} {r : Reading} {c : Compilation}
  {settings : Settings}

/-! ## Declarations -/

/-- A declared name is known at once, also in its own initial value. -/
theorem Emits.declare (h : Tracks g levels t r c) (name : String) (place : List Char) :
    Emits g.source (Reader.declare name place)
      (Compiler.declare name (positionOf g.source place)) r c fun p _ r' c' =>
        r'.scope.place? name = some p ∧ Tracks g levels (fun s => t s ++ p.room) r' c' := by
  refine .bind_scope (.bind_get ?_)
  cases hf : c.current with
  | none =>
    have hframe : r.scope.frame = none := h.frame_eq_none hf
    rw [hframe]
    have h' := h.addGlobal hf name
    have hplace := h.place?_addGlobal hf name
    refine .bind_setScope (.of_ok rfl rfl ⟨hplace, ?_⟩)
    exact h'.append_nil
  | some f =>
    have hframe : r.scope.frame = some f.frame := h.frame_eq_some hf
    rw [hframe]
    cases hadd : f.frame.addLocal? name with
    | none =>
      simp only [hadd]
      exact .refuseAt rfl
    | some frame =>
      simp only [hadd]
      refine .bind_setScope (.bind_modify (.emit (h.addLocal hf hadd) fun c' h' => .pure ⟨?_, h'⟩))
      exact h.place?_addLocal hf hadd

/-- The variable of an assignment. Outside all functions a new one may be made. -/
theorem Emits.target (h : Tracks g levels t r c) (name : String) (place : List Char) :
    Emits g.source (Reader.target settings name place)
      (Compiler.emitStore settings name (positionOf g.source place)) r c fun p _ r' c' =>
        Tracks g levels (fun s => t s ++ [p.store s]) r' c' := by
  refine .bind_scope ?_
  cases hp : r.scope.place? name with
  | some p =>
    obtain ⟨c', hrun, h'⟩ := h.store hp settings (positionOf g.source place)
    exact .of_ok rfl hrun h'
  | none =>
    have htarget : Compiler.storeTarget settings name (positionOf g.source place) g.source c =
        (if (settings.strict || c.current.isSome) = true then
            Compiler.refuseAt (positionOf g.source place) (.undeclaredVariable name)
          else do
            modify fun c' => { c' with globals := (c.globals.declare name).2 }
            return .global (c.globals.declare name).1 : Compiler VariableRef) g.source c := by
      rw [Compiler.storeTarget, Compiler.bind_get, h.resolve? name, hp]
      rfl
    change Emits g.source
      (if (settings.strict || r.scope.frame.isSome) = true then _ else _) _ r c _
    rw [h.isSome_frame]
    split at htarget
    · rename_i hknown
      rw [if_pos hknown]
      exact ⟨c, Compiler.bind_error htarget⟩
    · rename_i hnew
      have hcurrent : c.current = none := by
        cases hf : c.current with
        | none => rfl
        | some f => simp [hf] at hnew
      rw [if_neg hnew]
      have hframe : r.scope.frame = none := h.frame_eq_none hcurrent
      have h' := (h.addGlobal hcurrent name).push (.setGlobal (c.globals.declare name).1)
      refine .of_ok rfl ((Compiler.bind_ok htarget).trans
        (Compiler.bind_ok (Compiler.emit_push _ _ _))) ?_
      rw [h.globals] at h' ⊢
      rw [hframe]
      exact h'

namespace EmitsCode

section Declarations

variable (hlimit : g.limit = settings.maxNesting)

include hlimit

theorem declaration :
    EmitsCode g settings.maxNesting (fun d s _ => d.code s) (Reader.declaration settings)
      (Compiler.declaration settings) := by
  intro t r c h
  refine (Emits.name Tracks.moves "variable name" h).bind fun found found' r₁ c₁ ⟨hfound, h₁⟩ => ?_
  subst hfound
  obtain ⟨name, place⟩ := found
  refine (Emits.declare h₁ name place).bind fun p _ r₂ c₂ h₂ => ?_
  refine .iteScan (Tracks.moves.and_scope (·.place? name = some p)) (scans_symbol '=') h₂
    (fun r₃ c₃ h₃ => ?_) fun r₃ c₃ h₃ => ?_
  · obtain ⟨hp, h₃⟩ := h₃
    have hread := Reader.Post.expression settings settings.maxNesting r₃ h₃.valid
    refine (EmitsExpr.closed (EmitsExpr.expression hlimit _) _ r₃ c₃ h₃).bind_eq
      fun e _ r₄ c₄ he h₄ => ?_
    rw [← (hread.holds he).consumes.1] at hp
    obtain ⟨c₅, hrun, h₅⟩ := h₄.store hp settings (positionOf g.source place)
    refine .of_ok rfl hrun (h₅.congr fun s _ => ?_)
    simp [Decl.code, Decl.initCode]
  · refine .pure (h₃.2.congr fun s _ => ?_)
    simp [Decl.code, Decl.initCode]

theorem declarationGroup (h : Tracks g settings.maxNesting t r c) :
    Emits g.source (Reader.declarationGroup settings) (Compiler.declarationGroup settings) r c
      fun o b r' c' => b = o.isSome ∧
        Tracks g settings.maxNesting (fun s => t s ++ Decl.listCode s (o.getD [])) r' c' := by
  refine .iteScan Tracks.moves (scans_keyword (by decide)) h (fun r₁ c₁ h₁ => ?_) fun r₁ c₁ h₁ => ?_
  · refine (Emits.commaList (I := fun decls (_ : Unit) r c =>
      Tracks g settings.maxNesting (fun s => t s ++ Decl.listCode s decls) r c)
      (fun _ _ => Tracks.moves) (.declared : Reader.LoopOf settings _).consuming
      (fun decls _ r c h => ?_) (fun decls _ r c h => ?_) (fun decls _ r c h => .pure h)
      h₁.append_nil).bind fun decls _ r₂ c₂ h₂ => ?_
    · refine (declaration hlimit _ r c h).mono fun d _ r' c' h' => h'.congr fun s _ => ?_
      simp [Decl.listCode]
    · refine (Emits.scan Tracks.moves (scans_symbol ',') h).bind fun b b' r' c' hfound => ?_
      exact .pure ⟨by rw [hfound.1], hfound.2⟩
    · exact (Emits.expect Tracks.moves ';' h₂).bind fun _ _ r₃ c₃ h₃ => .pure ⟨rfl, h₃⟩
  · exact .pure ⟨rfl, h₁.append_nil⟩

theorem declarations :
    EmitsCode g settings.maxNesting (fun decls s _ => Decl.listCode s decls)
      (Reader.declarations settings) (Compiler.declarations settings) := by
  intro t r c h
  refine .map (Emits.repeatWhile (I := fun groups r c =>
    Tracks g settings.maxNesting (fun s => t s ++ Decl.listCode s groups.flatten) r c)
    (fun _ => Tracks.moves) (.declarations : Reader.LoopOf settings _).consuming
    (fun groups r c h => ?_) h.append_nil)
  refine (declarationGroup hlimit h).mono fun o b r' c' ⟨hb, h'⟩ => ⟨hb, h'.congr fun s _ => ?_⟩
  cases o with
  | none => simp [Decl.listCode]
  | some decls => simp [Decl.listCode_append]

end Declarations

/-! ## Statements -/

/-- Where a body starts behind a test and a jump. -/
def bodyStart (t : Site → List Instr) (test : Expr) (s : Site) : Nat :=
  (t s).length + (test.closedCode s).length + 1

/-- The code of a body behind a test and a jump. -/
def bodyBehind (t : Site → List Instr) (test : Expr) (body : List Stmt) (s : Site) : List Instr :=
  Stmt.blockCode s (bodyStart t test s) body

/-- Where the second body starts, behind the first one and another jump. -/
def otherStart (t : Site → List Instr) (test : Expr) (body : List Stmt) (s : Site) : Nat :=
  bodyStart t test s + (bodyBehind t test body s).length + 1

section Statements

variable {expr : Reader Expr} {expr' : Compiler Unit} {body : Reader (List Stmt)}
  {body' : Compiler Unit}
  (hexpr : EmitsExpr g levels expr expr')
  (hbody : EmitsCode g levels (fun b s start => Stmt.blockCode s start b) body body')
  (hargs : Reader.Consuming
    (Reader.commaTurn expr (Reader.scan (.symbol ')')) (Reader.expect ',')))

include hexpr

theorem returnStatement :
    EmitsCode g levels (fun st s start => st.code s start) (Reader.returnStatement expr)
      (Compiler.returnStatement expr') := by
  intro t r c h
  refine .iteScan Tracks.moves (scans_symbol ';') h (fun r₁ c₁ h₁ => ?_) fun r₁ c₁ h₁ => ?_
  · refine .emit h₁ fun c₂ h₂ => ?_
    obtain ⟨c₃, hrun, h₃⟩ := h₂.ret
    exact .of_ok rfl hrun (h₃.congr fun s _ => by simp [Stmt.code])
  · refine (EmitsExpr.closed hexpr t r₁ c₁ h₁).bind fun e _ r₂ c₂ h₂ => ?_
    refine (Emits.expect Tracks.moves ';' h₂).bind fun _ _ r₃ c₃ h₃ => ?_
    obtain ⟨c₄, hrun, h₄⟩ := h₃.ret
    exact .of_ok rfl hrun (h₄.congr fun s _ => by simp [Stmt.code])

include hbody

theorem ifStatement :
    EmitsCode g levels (fun st s start => st.code s start) (Reader.ifStatement expr body)
      (Compiler.ifStatement expr' body') := by
  intro t r c h
  refine (EmitsExpr.closed hexpr t r c h).bind fun test _ r₁ c₁ h₁ => ?_
  refine .emit h₁ fun c₂ h₂ => ?_
  refine (hbody _ r₁ c₂ h₂).bind fun yes _ r₃ c₃ h₃ => ?_
  have htest := fun s hs => h₁.size_eq (s := s) hs
  have h₃ : Tracks g levels (fun s => t s ++ test.closedCode s ++
      .jumpIfFalse Instr.unpatched :: bodyBehind t test yes s) r₃ c₃ :=
    h₃.congr fun s _ => by simp [bodyBehind, bodyStart, Nat.add_assoc]
  refine .iteScan Tracks.moves (scans_keyword (by decide)) h₃ (fun r₄ c₄ h₄ => ?_)
    fun r₄ c₄ h₄ => ?_
  · have hyes : ∀ s, g.Fits s → c₄.code.size = (t s ++ test.closedCode s ++
        .jumpIfFalse (otherStart t test yes s) :: bodyBehind t test yes s).length := by
      intro s hs
      simp [h₄.size_eq hs]
    refine .emit h₄ fun c₅ h₅ => ?_
    obtain ⟨c₆, hrun, h₆⟩ := h₅.patchJumpHere htest (fun s _ => List.append_assoc _ _ _) rfl
    refine .first hrun ((hbody _ r₄ c₆ h₆).bind fun no _ r₇ c₇ h₇ => ?_)
    -- the second jump stands behind the first body, where the first jump has its target already
    have h₇ : Tracks g levels (fun s =>
        (t s ++ test.closedCode s ++
          .jumpIfFalse (otherStart t test yes s) :: bodyBehind t test yes s) ++
            .jump Instr.unpatched :: Stmt.blockCode s (otherStart t test yes s) no) r₇ c₇ :=
      h₇.congr fun s _ => by
        simp [Instr.withOperands, otherStart, bodyStart, Nat.add_assoc, Nat.add_comm 1]
    obtain ⟨c₈, hrun, h₈⟩ := h₇.patchJumpHere hyes (fun s _ => rfl) rfl
    refine .of_ok rfl hrun (h₈.congr fun s _ => ?_)
    simp [Stmt.code, Instr.withOperands, bodyBehind, otherStart, bodyStart, Nat.add_assoc,
      Nat.add_comm 1, Nat.add_comm 2]
  · obtain ⟨c₅, hrun, h₅⟩ := h₄.patchJumpHere htest (fun s _ => rfl) rfl
    refine .of_ok rfl hrun (h₅.congr fun s _ => ?_)
    simp [Stmt.code, Instr.withOperands, bodyBehind, bodyStart, Nat.add_assoc, Nat.add_comm 1]

theorem whileStatement :
    EmitsCode g levels (fun st s start => st.code s start) (Reader.whileStatement expr body)
      (Compiler.whileStatement expr' body') := by
  intro t r c h
  refine .bind_get ?_
  refine (EmitsExpr.closed hexpr t r c h).bind fun test _ r₁ c₁ h₁ => ?_
  refine .emit h₁ fun c₂ h₂ => ?_
  refine (hbody _ r₁ c₂ h₂).bind fun b _ r₃ c₃ h₃ => ?_
  have h₃ : Tracks g levels (fun s => t s ++ test.closedCode s ++
      .jumpIfFalse Instr.unpatched :: bodyBehind t test b s) r₃ c₃ :=
    h₃.congr fun s _ => by simp [bodyBehind, bodyStart, Nat.add_assoc]
  refine .emit h₃ fun c₄ h₄ => ?_
  obtain ⟨c₅, hback, h₅⟩ :=
    h₄.patchJump c.code.size (fun s hs => h₃.size_eq hs) (fun s _ => rfl) rfl
  refine .first hback ?_
  obtain ⟨c₆, hexit, h₆⟩ := h₅.patchJumpHere (fun s hs => h₁.size_eq hs)
    (fun s _ => List.append_assoc _ _ _) rfl
  refine .of_ok rfl hexit (h₆.congr fun s hs => ?_)
  simp [Stmt.code, Instr.withOperands, bodyBehind, bodyStart, h.size_eq hs, Nat.add_assoc,
    Nat.add_comm 1]

end Statements

/-- A declaration among statements is refused. -/
theorem misplacedDeclaration {α β : Type} {Q : α → β → Reading → Compilation → Prop}
    (h : Tracks g levels t r c) (place : List Char) :
    Emits g.source (Reader.misplacedDeclaration place : Reader α)
      (Compiler.misplacedDeclaration (positionOf g.source place) : Compiler β) r c Q := by
  refine .bind_scope (.bind_get ?_)
  rw [h.isSome_frame]
  exact .refuseAt rfl

section Statements

variable {expr : Reader Expr} {expr' : Compiler Unit} {body : Reader (List Stmt)}
  {body' : Compiler Unit} {single : Reader Stmt} {single' : Compiler Unit}

section

variable (hexpr : EmitsExpr g levels expr expr')
  (hargs : Reader.Consuming
    (Reader.commaTurn expr (Reader.scan (.symbol ')')) (Reader.expect ',')))

include hexpr hargs

theorem plainStatement :
    EmitsCode g levels (fun st s start => st.code s start) (Reader.plainStatement settings expr)
      (Compiler.plainStatement settings expr') := by
  intro t r c h
  refine (Emits.name Tracks.moves "statement" h).bind fun found found' r₁ c₁ ⟨hfound, h₁⟩ => ?_
  subst hfound
  obtain ⟨name, place⟩ := found
  refine .iteScan Tracks.moves (scans_symbol '(') h₁ (fun r₂ c₂ h₂ => ?_) fun r₂ c₂ h₂ => ?_
  · refine (EmitsExpr.call hexpr hargs h₂ name place).bind fun call _ r₃ c₃ h₃ => ?_
    refine (Emits.expect Tracks.moves ';' h₃).bind fun _ _ r₄ c₄ h₄ => ?_
    refine .emit h₄ fun c₅ h₅ => .pure (h₅.congr fun s _ => ?_)
    simp [Stmt.code]
  refine .iteScan Tracks.moves (scans_symbol '=') h₂ (fun r₃ c₃ h₃ => ?_) fun r₃ c₃ h₃ => ?_
  · refine (EmitsExpr.closed hexpr _ r₃ c₃ h₃).bind fun e _ r₄ c₄ h₄ => ?_
    refine (Emits.target h₄ name place).bind fun p _ r₅ c₅ h₅ => ?_
    refine (Emits.expect Tracks.moves ';' h₅).bind fun _ _ r₆ c₆ h₆ => .pure ?_
    exact h₆.congr fun s _ => by simp [Stmt.code]
  · exact .refuse h₃.place.position

theorem statementWith
    (hbody : EmitsCode g levels (fun b s start => Stmt.blockCode s start b) body body') :
    EmitsCode g levels (fun st s start => st.code s start)
      (Reader.statementWith settings expr body) (Compiler.statementWith settings expr' body') := by
  intro t r c h
  refine .iteScan Tracks.moves (scans_keyword (by decide)) h (fun r₁ c₁ h₁ => ?_) fun r₁ c₁ h₁ => ?_
  · exact returnStatement hexpr t r₁ c₁ h₁
  refine .iteScan Tracks.moves (scans_keyword (by decide)) h₁ (fun r₂ c₂ h₂ => ?_)
    fun r₂ c₂ h₂ => ?_
  · exact ifStatement hexpr hbody t r₂ c₂ h₂
  refine .iteScan Tracks.moves (scans_keyword (by decide)) h₂ (fun r₃ c₃ h₃ => ?_)
    fun r₃ c₃ h₃ => ?_
  · exact whileStatement hexpr hbody t r₃ c₃ h₃
  refine (Emits.scan Tracks.moves scans_skipBlanks h₃).bind fun _ _ r₄ c₄ ⟨_, h₄⟩ => ?_
  refine .bind_get_left (.bind_get ?_)
  have hposition := h₄.place.position
  refine .iteScan Tracks.moves (scans_keyword (by decide)) h₄ (fun r₅ c₅ h₅ => ?_)
    fun r₅ c₅ h₅ => ?_
  · rw [hposition]
    exact .abort (misplacedDeclaration h₅ r₄.rest)
  · exact plainStatement hexpr hargs t r₅ c₅ h₅

end

section

variable (hsingle : EmitsCode g levels (fun st s start => st.code s start) single single')
  (hblock : Reader.Consuming (Reader.blockTurn single))

include hsingle hblock

theorem untilBrace :
    EmitsCode g levels (fun b s start => Stmt.blockCode s start b) (Reader.untilBrace single)
      (Compiler.untilBrace single') := by
  intro t r c h
  refine Emits.repeatWhile (I := fun b r c =>
    Tracks g levels (fun s => t s ++ Stmt.blockCode s (t s).length b) r c)
    (fun _ => Tracks.moves) hblock (fun b r c h => ?_)
    h.append_nil
  refine .iteScan Tracks.moves (scans_symbol '}') h (fun r₁ c₁ h₁ => ?_) fun r₁ c₁ h₁ => ?_
  · exact .pure ⟨rfl, by rwa [Option.toList_none, List.append_nil]⟩
  refine .iteScan Tracks.moves scans_atEnd h₁ (fun r₂ c₂ h₂ => ?_) fun r₂ c₂ h₂ => ?_
  · exact .abort (.refuse h₂.place.position)
  · refine (hsingle _ r₂ c₂ h₂).bind fun st _ r₃ c₃ h₃ => .pure ⟨rfl, h₃.congr fun s _ => ?_⟩
    rw [Option.toList_some, Stmt.blockCode_snoc, List.append_assoc, List.length_append]

theorem bodyOf :
    EmitsCode g levels (fun b s start => Stmt.blockCode s start b) (Reader.bodyOf single)
      (Compiler.bodyOf single') := by
  intro t r c h
  refine .iteScan Tracks.moves (scans_symbol '{') h (fun r₁ c₁ h₁ => ?_) fun r₁ c₁ h₁ => ?_
  · exact untilBrace hsingle hblock t r₁ c₁ h₁
  · refine .map ((hsingle t r₁ c₁ h₁).mono fun st _ r₂ c₂ h₂ => h₂.congr fun s _ => ?_)
    simp [Stmt.blockCode]

end

end Statements

/-- **The code of a body is emitted as it is read.** -/
theorem body (hlimit : g.limit = settings.maxNesting) (levels : Nat) :
    EmitsCode g levels (fun b s start => Stmt.blockCode s start b) (Reader.body settings levels)
      (Compiler.body settings levels) := by
  induction levels with
  | zero => exact EmitsCode.tooDeep hlimit
  | succ levels ih =>
    refine EmitsCode.nested hlimit (bodyOf ?_ (Reader.LoopOf.block levels).consuming)
    exact statementWith (EmitsExpr.expression hlimit levels)
      (Reader.LoopOf.arguments levels).consuming ih

theorem statement (hlimit : g.limit = settings.maxNesting) :
    EmitsCode g settings.maxNesting (fun st s start => st.code s start)
      (Reader.statement settings) (Compiler.statement settings) :=
  statementWith (EmitsExpr.expression hlimit _) (Reader.LoopOf.arguments _).consuming
    (body hlimit _)

end EmitsCode

end StackScript
