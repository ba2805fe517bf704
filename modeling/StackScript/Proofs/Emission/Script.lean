import StackScript.Compile
import StackScript.Proofs.Emission.Statement
import StackScript.Proofs.Reading.Script
import StackScript.Proofs.Scope.Offsets
import StackScript.Proofs.Script.Checked

/-!
# Emitting programs

When a function is complete its frame is known and all that waits for it is filled in
(`Tracks.finish`). So outside all functions nothing waits, and what has been emitted is the code of
what has been read. At the end of the text that is the program of the script:

**`compile_eq`**: compiling a text is reading it as a script and generating the code of that, also
where it is refused. The same holds of expressions (`compileExpression_eq`).
-/

namespace StackScript

open Instr (Operands)

/-! ## Completing functions -/

/-- Fix-ups are made one after another. -/
theorem Compiler.forM_pending {β : Type} (fixup : β → Nat × Operands) (act : β → Compiler Unit)
    (xs : List β) (source : String) {final : List Instr} {later : List (Nat × Operands)}
    (hact : ∀ x ∈ xs, ∀ (c : Compilation) (code : Code),
      c.code.patchOperands (fixup x).1 (fixup x).2 = .ok code →
        act x source c = .ok () { c with code })
    {c : Compilation} (h : c.code.Pending (xs.map fixup ++ later) final) :
    ∃ code, xs.forM act source c = .ok () { c with code } ∧ code.Pending later final := by
  induction xs generalizing c with
  | nil => exact ⟨c.code, rfl, h⟩
  | cons x xs ih =>
    obtain ⟨code, hpatch, hpending⟩ := h.patch
    obtain ⟨code', hrest, hpending'⟩ :=
      ih (fun y hy => hact y (List.mem_cons_of_mem _ hy)) (c := { c with code }) hpending
    have hfirst := hact x List.mem_cons_self c code hpatch
    exact ⟨code', (Compiler.bind_ok hfirst).trans hrest, hpending'⟩

/-- The offset that a variable is assigned is the one at the site of its function. -/
theorem OpenFunction.Regular.offset_eq {f : OpenFunction} (h : f.Regular) {x : Nat × String}
    (hx : x ∈ f.localFixups) {s : Site} (hs : s.params = f.frame.params) :
    (f.frame.assignOffsets.find? x.2).bind (·.offset) = some (f.offset s x.2) := by
  obtain ⟨v, hv⟩ := h.known x hx
  have hkind := h.parametersFirst.kind v (List.mem_of_find?_eq_some hv)
  rw [← Frame.offset?, Frame.offset?_assignOffsets, offset, hv]
  simp only [Option.map_some, Option.getD_some, Site.offset, hs, hkind]

namespace Tracks

variable {g : Stage} {levels : Nat} {t : Site → List Instr} {r : Reading} {c : Compilation}

/-- **A complete function waits for nothing.** Its variables get the offsets that the code of the
function has at the site with the final number of locals. -/
theorem finish (h : Tracks g levels t r c) {f : OpenFunction} (hf : c.current = some f) {s : Site}
    (hs : g.Fits s) (hlocals : s.locals = f.frame.locals) :
    Compiler.finishFunction g.source c =
      .ok () { c with
        code := .ofList (t s)
        functions := g.functions ++ [f.frame.toEntry f.entry]
        current := none } := by
  have hparams : s.params = f.frame.params := by
    rw [hs.params, ← h.inside, hf]
    rfl
  have hregular := h.regular f hf
  have hpending := h.pending s hs
  rw [Compilation.fixups, hf] at hpending
  obtain ⟨code, haccesses, hcode⟩ := Compiler.forM_pending _
    (Compiler.fixLocal f.frame.assignOffsets) f.localFixups g.source (fun x hx c code hpatch => by
      rw [Compiler.fixLocal, hregular.offset_eq hx hparams]
      exact Compiler.patch_ok hpatch) (c := { c with current := none }) hpending
  rw [← List.append_nil (List.map _ f.returnFixups)] at hcode
  obtain ⟨code', hreturns, hdone⟩ := Compiler.forM_pending
    (fun index => (index, .counts s.params s.locals))
    (fun index => Compiler.patch (·.patchReturn index s.params s.locals)) f.returnFixups g.source
    (fun index _ c code hpatch => Compiler.patch_ok hpatch) (c := { c with code, current := none })
    hcode
  have hlocals' : f.frame.locals = f.frame.assignOffsets.locals := by
    rw [Frame.locals, Frame.locals, Frame.assignOffsets, List.length_map]
  rw [hdone.eq_ofList, hparams, hlocals, hlocals'] at hreturns
  rw [Compiler.finishFunction, Compiler.bind_get, hf, ← h.functions, Frame.toEntry, hlocals']
  exact (Compiler.bind_ok haccesses).trans ((Compiler.bind_ok hreturns).trans rfl)

/-- Both leave the function, which is complete. -/
theorem leave (h : Tracks g levels t r c) {f : OpenFunction} (hf : c.current = some f) {s : Site}
    (hs : g.Fits s) (hlocals : s.locals = f.frame.locals) :
    ∃ c', Compiler.finishFunction g.source c = .ok () c' ∧
      Tracks { g with functions := g.functions ++ [f.frame.toEntry f.entry], inside := none } levels
        (fun _ => t s)
        { r with scope :=
          ⟨r.scope.globals, r.scope.functions ++ [⟨f.frame.name, f.frame.params⟩], none⟩ } c' :=
  ⟨_, h.finish hf hs hlocals,
    { place := ⟨h.place.rest, h.place.position⟩
      globals := h.globals
      functions := rfl
      signatures := by rw [h.signatures, List.map_append]; rfl
      frame := rfl
      valid := Scope.valid_of_frame_none rfl
      inside := rfl
      depth := h.depth
      regular := fun _ hf => by cases hf
      pending := fun _ _ => Code.Pending.of_ofList (t s) }⟩

end Tracks

/-! ## Headers -/

/-- The header of a function is read. The reader has its frame in scope already; the compiler keeps
it to itself and is still outside all functions. -/
structure Heading (g : Stage) (levels : Nat) (t : Site → List Instr) (outer : Scope) (name : String)
    (params : List String) (frame : Frame) (r : Reading) (c : Compilation) : Prop where
  inParams : Reader.InParams outer name params r.scope
  opened : r.scope.frame = some frame
  kind : ∀ v ∈ frame.vars, v.isParameter
  tracks : Tracks g levels t { r with scope := outer } c

namespace Heading

variable {g : Stage} {levels : Nat} {t : Site → List Instr} {outer : Scope} {name : String}
  {params : List String} {frame : Frame} {r : Reading} {c : Compilation}

theorem moves : Moves g.source (Heading g levels t outer name params frame) where
  place h := ⟨h.tracks.place.rest, h.tracks.place.position⟩
  move hrest h := { h with tracks := Tracks.moves.move (r := ⟨_, outer⟩) hrest h.tracks }

theorem frame_eq (h : Heading g levels t outer name params frame r c) :
    r.scope = { outer with frame := some frame } ∧ frame.params = params.length ∧
      frame.names = params ∧ frame.Numbered := by
  obtain ⟨f, hscope, -, hparams, hnames, hnumbered⟩ := h.inParams.frame
  have hframe := h.opened
  rw [hscope] at hframe
  cases hframe
  exact ⟨hscope, hparams, hnames, hnumbered⟩

theorem parametersFirst (h : Heading g levels t outer name params frame r c) :
    frame.ParametersFirst := by
  obtain ⟨-, hparams, hnames, hnumbered⟩ := h.frame_eq
  have hlength : frame.params = frame.vars.length := by
    rw [hparams, ← hnames, Frame.length_names]
  refine ⟨Nat.le_of_eq hlength, fun v hv => ?_⟩
  obtain ⟨i, hi⟩ := List.mem_iff_getElem?.mp hv
  rw [h.kind v hv, hnumbered i v hi, eq_comm, decide_eq_true_iff, hlength]
  exact (List.getElem?_eq_some_iff.mp hi).1

theorem parameter (h : Heading g levels t outer name params frame r c) :
    Emits g.source Reader.parameter (Compiler.parameter frame) r c fun param frame' r' c' =>
      Heading g levels t outer name (params ++ [param]) frame' r' c' := by
  refine (Emits.name moves "parameter name" h).bind_eq fun found found' r₁ c₁ hfound h₁ => ?_
  obtain ⟨rfl, h₁⟩ := h₁
  obtain ⟨param, place⟩ := found
  have hname := ((Reader.Post.name "parameter name").holds hfound).2
  refine .bind_scope ?_
  rw [h₁.opened]
  dsimp only
  cases hadd : frame.addParameter? param with
  | none => exact .refuseAt rfl
  | some frame' =>
    refine .bind_setScope (.pure ⟨h₁.inParams.add h₁.opened hname hadd, rfl, fun v hv => ?_,
      h₁.tracks⟩)
    obtain ⟨-, rfl⟩ := Frame.addParameter?_eq_some_iff.mp hadd
    rcases List.mem_append.mp hv with hold | hnew
    · exact h₁.kind v hold
    · rw [List.mem_singleton.mp hnew]
      rfl

/-- The compiler enters the function. -/
theorem enter (h : Heading g levels t outer name params frame r c) (hg : g.inside = none)
    (hnew : outer.hasFunction name = false) (entry : Nat) :
    Tracks { g with inside := some (entry, params.length) } levels (fun _ => t (.top g.entries)) r
      { c with current := some ⟨frame, entry, [], []⟩ } := by
  obtain ⟨hscope, hparams, -, -⟩ := h.frame_eq
  have hinside := h.tracks.inside
  have hcurrent : c.current = none := by
    rwa [hg, Option.map_eq_none_iff] at hinside
  have htracks := h.tracks
  refine {
    place := ⟨htracks.place.rest, htracks.place.position⟩
    globals := by rw [hscope]; exact htracks.globals
    functions := htracks.functions
    signatures := by rw [hscope]; exact htracks.signatures
    frame := h.opened
    valid := h.inParams.scopeValid hnew
    inside := by rw [Option.map_some, hparams]
    depth := htracks.depth
    regular := ?_
    pending := fun s _ => ?_ }
  · rintro _ ⟨⟩
    exact ⟨h.parametersFirst, fun x hx => by cases hx⟩
  · have hpending := htracks.pending _ ((Stage.fits_iff_top hg).mpr rfl)
    rwa [Compilation.fixups, hcurrent] at hpending

end Heading

/-! ## Functions -/

/-- Where the body of a function ends, its frame is what the table of functions says. -/
theorem Scope.toEntry_of_names {s : Scope} {k : Names} {f : FunctionDef} {frame : Frame}
    (hframe : s.frame = some frame)
    (h : s.names = (f.names k).declare (f.decls.map (·.name))) (entry : Nat) :
    frame.toEntry entry = f.toEntry entry := by
  simp only [names, hframe, FunctionDef.names, Names.declare, Option.map_some, Option.toList_some,
    Names.mk.injEq, Option.some.injEq] at h
  obtain ⟨-, hfunctions, hnames⟩ := h
  have hsignature := List.singleton_inj.mp (List.append_inj' hfunctions rfl).2
  have hname : frame.name = f.name := congrArg Signature.name hsignature
  have hparams : frame.params = f.params.length := congrArg Signature.arity hsignature
  have hlength := congrArg List.length hnames
  rw [Frame.length_names, List.length_append, List.length_map] at hlength
  rw [Frame.toEntry, FunctionDef.toEntry, Frame.locals, hname, hparams, hlength,
    Nat.add_sub_cancel_left]

namespace FunctionDef

theorem layout_snoc (entries : List Nat) (start : Nat) (fs : List FunctionDef) (f : FunctionDef) :
    layout entries start (fs ++ [f]) =
      ((layout entries start fs).1 ++ [start + (layout entries start fs).2.length],
        (layout entries start fs).2 ++
          f.code ((layout entries start fs).1 ++ [start + (layout entries start fs).2.length])
            (start + (layout entries start fs).2.length)) := by
  induction fs generalizing entries start with
  | nil => simp [layout]
  | cons first rest ih => simp [layout, ih, Nat.add_assoc]

theorem length_layout_fst (start : Nat) (fs : List FunctionDef) :
    (layout [] start fs).1.length = fs.length := by
  rw [layout_length, List.length_nil, Nat.zero_add]

/-- The table of functions that are laid out from an index. -/
def table (start : Nat) (fs : List FunctionDef) : List FunctionEntry :=
  (fs.zip (layout [] start fs).1).map fun (f, start) => f.toEntry start

theorem map_entry_table (start : Nat) (fs : List FunctionDef) :
    (table start fs).map (·.entry) = (layout [] start fs).1 := by
  rw [table, List.map_map]
  exact List.map_snd_zip (by rw [length_layout_fst])

theorem table_snoc (start : Nat) (fs : List FunctionDef) (f : FunctionDef) :
    table start (fs ++ [f]) =
      table start fs ++ [f.toEntry (start + (layout [] start fs).2.length)] := by
  rw [table, layout_snoc, List.zip_append (length_layout_fst start fs).symm, List.map_append]
  rfl

end FunctionDef

/-- Outside all functions, when some are complete. -/
def Stage.outside (source : String) (settings : Settings) (complete : List FunctionEntry) : Stage :=
  ⟨source, settings.maxNesting, complete, none⟩

/-- Outside all functions, `code` has been emitted. -/
abbrev Outside (source : String) (settings : Settings) (complete : List FunctionEntry)
    (code : List Instr) : Reading → Compilation → Prop :=
  Tracks (.outside source settings complete) settings.maxNesting fun _ => code

variable {source : String} {settings : Settings} {complete : List FunctionEntry}
  {code : List Instr} {r : Reading} {c : Compilation}

theorem Outside.moves : Moves source (Outside source settings complete code) :=
  Tracks.moves (g := .outside source settings complete)

theorem Outside.size_eq (h : Outside source settings complete code r c) :
    c.code.size = code.length := Tracks.size_eq h ((Stage.fits_iff_top rfl).mpr rfl)

/-- The header of a function begins. -/
theorem Outside.heading (h : Outside source settings complete code r c) (name : String) :
    Heading (.outside source settings complete) settings.maxNesting (fun _ => code) r.scope name []
      (.empty name) { r with scope := { r.scope with frame := some (.empty name) } } c :=
  ⟨.empty r.scope name, rfl, fun _ hv => (by cases hv), h⟩

/-- At the end of a function its frame is the one that the reader knows, and what has been emitted
is the code of the function at its site. -/
theorem Tracks.completeFunction {t : Site → List Instr} {entry : Nat} {k : Names} (f : FunctionDef)
    (h : Tracks { Stage.outside source settings complete with
      inside := some (entry, f.params.length) } settings.maxNesting t r c)
    (hnames : r.scope.names = (f.names k).declare (f.decls.map (·.name))) :
    ∃ c', Compiler.finishFunction source c = .ok () c' ∧
      Outside source settings (complete ++ [f.toEntry entry])
        (t (f.site (complete.map (·.entry) ++ [entry])))
        { r with scope :=
          ⟨r.scope.globals, r.scope.functions ++ [⟨f.name, f.params.length⟩], none⟩ } c' := by
  obtain ⟨current, hcurrent, hinside⟩ := Option.map_eq_some_iff.mp h.inside
  have hframe : r.scope.frame = some current.frame := h.frame_eq_some hcurrent
  have hentry : current.frame.toEntry entry = f.toEntry entry :=
    Scope.toEntry_of_names hframe hnames entry
  have hstart : current.entry = entry := congrArg Prod.fst hinside
  have hname : current.frame.name = f.name := congrArg FunctionEntry.name hentry
  have hparams : current.frame.params = f.params.length := congrArg FunctionEntry.params hentry
  obtain ⟨c', hfinish, h'⟩ := h.leave hcurrent (s := f.site (complete.map (·.entry) ++ [entry]))
    ⟨rfl, rfl, fun h => by cases h⟩ (congrArg FunctionEntry.locals hentry).symm
  rw [hstart, hentry, hname, hparams] at h'
  exact ⟨c', hfinish, h'⟩

theorem Emits.function (h : Outside source settings complete code r c) :
    Emits source (Reader.function settings) (Compiler.function settings) r c fun f _ r' c' =>
      Outside source settings (complete ++ [f.toEntry code.length])
        (code ++ f.code (complete.map (·.entry) ++ [code.length]) code.length) r' c' := by
  refine (Emits.name Tracks.moves "function name" h).bind fun found found' r₁ c₁ h₁ => ?_
  obtain ⟨rfl, h₁⟩ := h₁
  obtain ⟨name, place⟩ := found
  refine .bind_scope (.bind_get ?_)
  have hknown : c₁.functions.any (·.name == name) = r₁.scope.hasFunction name := by
    rw [h₁.functions, Scope.hasFunction, h₁.signatures, List.any_map]
    rfl
  change Emits source (if r₁.scope.hasFunction name = true then _ else _)
    (if c₁.functions.any (·.name == name) = true then _ else _) r₁ c₁ _
  rw [hknown]
  split
  · exact .abort (.refuseAt rfl)
  rename_i hnew
  rw [Bool.not_eq_true] at hnew
  refine .bind_setScope ?_
  have houter : r₁.scope.frame = none := h₁.frame_eq_none (Option.map_eq_none_iff.mp h₁.inside)
  refine (Emits.expect Heading.moves '(' (Outside.heading h₁ name)).bind fun _ _ r₂ c₂ h₂ => ?_
  refine (Emits.parenthesised (I := Heading _ _ _ r₁.scope name) (fun _ _ => Heading.moves)
    (.parameters : Reader.LoopOf settings _).consuming (fun _ _ _ _ => Heading.parameter)
    h₂).bind fun params frame r₃ c₃ h₃ => ?_
  refine .bind_modify ?_
  have hentered := h₃.enter rfl hnew c₁.code.size
  refine (Emits.expect (Tracks.moves.and_scope (Reader.InParams r₁.scope name params)) '{'
    ⟨h₃.inParams, hentered⟩).bind fun _ _ r₄ c₄ hopened => ?_
  obtain ⟨hin, h₄⟩ := hopened
  refine (EmitsCode.declarations rfl _ r₄ c₄ h₄).bind_eq fun decls _ r₅ c₅ hdecls h₅ => ?_
  refine (EmitsCode.untilBrace (EmitsCode.statement rfl) (Reader.LoopOf.block _).consuming _ r₅ c₅
    h₅).bind_eq fun body _ r₆ c₆ hbody h₆ => ?_
  refine .emit h₆ fun c₇ h₇ => .emit h₇ fun c₈ h₈ => ?_
  obtain ⟨c₉, hret, h₉⟩ := h₈.ret
  refine .first hret ?_
  -- what the body declares is known of the reader only; the frame of the compiler agrees with it
  have hread := ((Reader.Post.declarations h₄.valid).holds hdecls).1
  have hread' := ((Reader.Post.untilBrace (Reader.Post.statement settings) h₅.valid).holds hbody).1
  rw [Outside.size_eq h₁] at h₉
  obtain ⟨c₁₀, hfinish, h₁₀⟩ := Tracks.completeFunction ⟨name, params, decls, body⟩ h₉
    (hin.body houter hread hread').2
  refine .of_ok rfl hfinish (h₁₀.congr fun s _ => ?_)
  simp [FunctionDef.code, FunctionDef.site, Site.defaultReturn, Instr.endOfExpression]

theorem Emits.functions (h : Outside source settings [] code r c) {start : Nat}
    (hstart : code.length = start) :
    Emits source (Reader.functions settings) (Compiler.functions settings) r c fun fs _ r' c' =>
      Outside source settings (FunctionDef.table start fs)
        (code ++ (FunctionDef.layout [] start fs).2) r' c' := by
  refine Emits.repeatWhile (I := fun fs r c =>
    Outside source settings (FunctionDef.table start fs)
      (code ++ (FunctionDef.layout [] start fs).2) r c)
    (fun _ => Outside.moves) (.functions : Reader.LoopOf settings _).consuming
    (fun fs r c h => ?_) (Tracks.append_nil h)
  refine .iteScan Outside.moves (scans_keyword (by decide)) h (fun r₁ c₁ h₁ => ?_)
    fun r₁ c₁ h₁ => ?_
  · refine (Emits.function h₁).bind fun f _ r₂ c₂ h₂ => .pure ⟨rfl, ?_⟩
    rw [FunctionDef.map_entry_table, List.length_append, hstart] at h₂
    rwa [Option.toList_some, FunctionDef.table_snoc, FunctionDef.layout_snoc, ← List.append_assoc]
  · exact .pure ⟨rfl, by rwa [Option.toList_none, List.append_nil]⟩

/-! ## Programs -/

/-- Outside all functions nothing waits. -/
theorem Tracks.code_eq {g : Stage} {levels : Nat} {t : Site → List Instr}
    (h : Tracks g levels t r c) (hg : g.inside = none) : c.code = .ofList (t (.top g.entries)) := by
  have hpending := h.pending _ ((Stage.fits_iff_top hg).mpr rfl)
  have hinside := h.inside
  rw [hg, Option.map_eq_none_iff] at hinside
  rw [Compilation.fixups, hinside] at hpending
  exact hpending.eq_ofList

/-- All that is emitted outside functions is emitted for the same site. -/
theorem Tracks.outside {t : Site → List Instr}
    (h : Tracks (.outside source settings complete) settings.maxNesting t r c) :
    Outside source settings complete (t (.top (complete.map (·.entry)))) r c := by
  refine h.congr fun s hs => ?_
  rw [(Stage.fits_iff_top rfl).mp hs, Stage.entries]
  exact congrArg (t <| Site.top ·) (List.append_nil _)

theorem Emits.statements {g : Stage} {t : Site → List Instr}
    (hlimit : g.limit = settings.maxNesting) (h : Tracks g settings.maxNesting t r c) :
    Emits g.source (Reader.loop (Reader.statementTurn settings))
      (Compiler.repeatWhile (Compiler.statementTurn settings)) r c fun b _ r' c' =>
        Tracks g settings.maxNesting (fun s => t s ++ Stmt.blockCode s (t s).length b) r' c' := by
  refine Emits.repeatWhile (I := fun b r c =>
    Tracks g settings.maxNesting (fun s => t s ++ Stmt.blockCode s (t s).length b) r c)
    (fun _ => Tracks.moves) (.statements : Reader.LoopOf settings _).consuming (fun b r c h => ?_)
    (Tracks.append_nil h)
  refine .iteScan Tracks.moves scans_atEnd h (fun r₁ c₁ h₁ => ?_) fun r₁ c₁ h₁ => ?_
  · exact .pure ⟨rfl, by rwa [Option.toList_none, List.append_nil]⟩
  · refine (EmitsCode.statement hlimit _ r₁ c₁ h₁).bind fun st _ r₂ c₂ h₂ =>
      .pure ⟨rfl, h₂.congr fun s _ => ?_⟩
    rw [Option.toList_some, Stmt.blockCode_snoc, List.append_assoc, List.length_append]

theorem outside_empty (source : String) (settings : Settings) :
    Outside source settings [] [] ⟨source.toList, ∅⟩ ∅ where
  place := ⟨List.suffix_refl _, (Nat.sub_self _).symm⟩
  globals := rfl
  functions := rfl
  signatures := rfl
  frame := rfl
  valid := Scope.valid_empty
  inside := rfl
  depth := Nat.zero_add _
  regular := fun _ hf => by cases hf
  pending := fun _ _ => Code.Pending.of_ofList []

/-- **The program of a script is emitted as it is read.** -/
theorem Emits.script (source : String) (settings : Settings) :
    Emits source (Reader.script settings) (Compiler.program settings) ⟨source.toList, ∅⟩ ∅
      fun s p _ _ => p = s.program := by
  refine (EmitsCode.declarations rfl _ _ _ (outside_empty source settings)).bind
    fun decls _ r₁ c₁ h₁ => ?_
  have h₁ : Outside source settings [] (Decl.listCode (.top []) decls) r₁ c₁ := h₁.outside
  refine .emit h₁ fun c₂ h₂ => ?_
  refine (Emits.functions h₂ List.length_append).bind fun fs _ r₃ c₃ h₃ => ?_
  obtain ⟨c₄, hskip, h₄⟩ := h₃.patchJumpHere (fun _ _ => Outside.size_eq h₁)
    (fun s _ => List.append_assoc _ _ _) rfl
  refine .first hskip ?_
  refine (EmitsCode.declarations rfl _ r₃ c₄ h₄).bind fun lateDecls _ r₅ c₅ h₅ => ?_
  refine (Emits.statements rfl h₅).bind fun body _ r₆ c₆ h₆ => ?_
  refine .emit h₆ fun c₇ h₇ => .emit h₇ fun c₈ h₈ => .emit h₈ fun c₉ h₉ => ?_
  refine .bind_get (.bind_scope (.pure ?_))
  have hcode := h₉.outside.code_eq rfl
  rw [FunctionDef.map_entry_table] at hcode
  rw [Compilation.program, hcode, h₉.globals, h₉.functions]
  simp [Script.program, FunctionDef.table, Stage.outside, Script.mainCode, Script.mainStart,
    Script.bodies, Script.entries, Script.bodiesStart, Script.site, Site.top, Site.defaultReturn,
    Instr.endOfExpression, Instr.withOperands, Nat.add_assoc, Nat.add_comm 1]

/-- **The program of an expression is emitted as it is read.** -/
theorem Emits.wholeExpression (source : String) (settings : Settings) :
    Emits source (Reader.wholeExpression settings) (Compiler.wholeExpression settings)
      ⟨source.toList, ∅⟩ ∅ fun e p _ _ => p = e.program := by
  refine (EmitsExpr.expression rfl _ _ _ _ (outside_empty source settings)).bind_eq
    fun e _ r₁ c₁ he h₁ => ?_
  have hread := (Reader.Post.expression settings _ _ Scope.valid_empty).holds he
  have h₁ : Outside source settings [] (e.code (.top [])) r₁ c₁ := h₁.outside
  refine .iteScan (Outside.moves.and_scope (· = ∅)) scans_atEnd ⟨hread.consumes.1, h₁⟩
    (fun r₂ c₂ ⟨hscope, h₂⟩ => ?_) fun r₂ c₂ ⟨_, h₂⟩ => ?_
  · refine .emit h₂ fun c₃ h₃ => .emit h₃ fun c₄ h₄ => ?_
    refine .bind_get (.pure ?_)
    rw [Compilation.program, h₄.code_eq rfl, h₄.globals, h₄.functions, hscope, Expr.program,
      Expr.closedCode]
    rfl
  · exact .last (Q := fun _ _ _ _ => False) (.refuse h₂.place.position) fun _ _ _ _ h => h.elim

/-- What a compiler gives for a whole text. -/
theorem Emits.run_eq {α β : Type} {x : Reader α} {y : Compiler β} {f : α → β}
    (h : Emits source x y ⟨source.toList, ∅⟩ ∅ fun a b _ _ => b = f a) :
    y.run source = (x.run source).map f := by
  unfold Emits at h
  unfold Compiler.run Reader.run
  cases hx : x ⟨source.toList, ∅⟩ with
  | ok a r =>
    rw [hx] at h
    obtain ⟨b, c, hy, rfl⟩ := h
    rw [hy]
    rfl
  | error e r =>
    rw [hx] at h
    obtain ⟨c, hy⟩ := h
    rw [hy]
    rfl

/-- **Compiling a text is reading it as a script and generating its code.** -/
theorem compile_eq (settings : Settings) (source : String) :
    compile settings source = ((Reader.script settings).run source).map Script.program :=
  (Emits.script source settings).run_eq

/-- **Compiling an expression is reading it and generating its code.** -/
theorem compileExpression_eq (settings : Settings) (source : String) :
    compileExpression settings source =
      ((Reader.wholeExpression settings).run source).map Expr.program :=
  (Emits.wholeExpression source settings).run_eq

end StackScript
