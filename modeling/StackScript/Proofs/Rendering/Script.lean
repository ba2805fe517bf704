import StackScript.Proofs.Reading.Script
import StackScript.Proofs.Rendering.Statement

/-!
# Reading scripts from their texts

A script that obeys the static rules is read from each of its texts, however they are laid out
(`Script.Rendering.run`).
-/

namespace StackScript

open Lexeme

/-! ## Where functions begin -/

theorem FunctionDef.AllSpelled.lacks {f : FunctionDef} {fs : List FunctionDef} {xs : List Token}
    {w : String} (h : FunctionDef.AllSpelled (f :: fs) xs) (hname : IsPlainName f.name)
    (hw : "function" ≠ w) (ts : List Token) : Lacks w (xs ++ ts) := by
  obtain ⟨_, ys, ⟨us, vs, -, -, rfl⟩, -, rfl⟩ := h
  exact .word (isWord_of_mem_keywords (by decide)) hw (solid_word hname.toIsWord _)

theorem Decl.AllSpelled.lacks {k : Names} {decls : List Decl} {xs ts : List Token} {w : String}
    (h : Decl.AllSpelled decls xs) (hobey : Decl.AllObey IsPlainName k decls) (hw : "var" ≠ w)
    (hend : Lacks w ts) : Lacks w (xs ++ ts) := by
  cases h with
  | nil => exact hend
  | group hgroup hrest =>
    obtain ⟨ys, rest, hys, -, rfl⟩ := hgroup
    obtain ⟨tail, rfl⟩ := hys.head
    exact .word (isWord_of_mem_keywords (by decide)) hw (solid_word hobey.1.toIsWord _)

namespace Names

theorem allPlain_top : (top [] []).AllPlain :=
  ⟨fun _ h => (by cases h), fun _ h => (by cases h), fun _ h => (by cases h)⟩

variable {k : Names} {f : FunctionDef}

/-- A complete function has a plain name. -/
theorem AllPlain.complete (h : k.AllPlain) (hname : IsPlainName f.name) :
    AllPlain { k with functions := k.functions ++ [f.signature] } := by
  refine ⟨h.inGlobals, h.inFrame, fun g hg => ?_⟩
  rcases List.mem_append.mp hg with hg | hg
  · exact h.inFunctions g hg
  · rw [List.mem_singleton.mp hg]
    exact hname

/-- Inside a function its name and its parameters are plain ones, too. -/
theorem AllPlain.inside (h : k.AllPlain) (hname : IsPlainName f.name)
    (hparams : ∀ param ∈ f.params, IsPlainName param) : (f.names k).AllPlain :=
  ⟨h.inGlobals, hparams, (h.complete hname).inFunctions⟩

end Names

theorem FunctionDef.AllObey.allPlain {strict : Bool} {k : Names} (fs : List FunctionDef)
    (hk : k.AllPlain) (h : FunctionDef.AllObey strict IsPlainName k fs) :
    Names.AllPlain { k with functions := k.functions ++ fs.map (·.signature) } := by
  induction fs generalizing k with
  | nil =>
    rw [List.map_nil, List.append_nil]
    exact hk
  | cons f fs ih =>
    have hrest := ih (hk.complete h.1.name) h.2
    simp only [List.append_assoc, List.singleton_append] at hrest
    exact hrest

/-! ## Functions -/

namespace Reader

namespace Yields

variable {settings : Settings} {k : Names} {s : Scope} {name : String}

theorem parameter {param : String} {params : List String} {ts : List Token}
    (hparam : IsName param) (hnew : param ∉ params) (hsolid : Solid ts) :
    Yields Reader.parameter (.word param :: ts) (InParams s name params) param ts
      (InParams s name (params ++ [param])) := by
  refine bind_name hparam hsolid fun place => bind_scope fun s' hs' => ?_
  obtain ⟨f, hscope, -, -, hnames, -⟩ := hs'.frame
  have hf : s'.frame = some f := by rw [hscope]
  have hadd := Frame.addParameter?_eq_some_iff.mpr ⟨hnames ▸ hnew, rfl⟩
  have hin := hs'.add hf hparam hadd
  rw [hf]
  simp only [hadd]
  exact (setScope hin).bind (pure _)

theorem parameters (params done : List String) (hparams : ∀ param ∈ params, IsPlainName param)
    (hdistinct : (done ++ params).Nodup) :
    Items Reader.parameter (InParams s name) done params
      (params.map fun param => [.word param]) := by
  induction params generalizing done with
  | nil => exact .nil
  | cons param params ih =>
    have hparam := hparams param List.mem_cons_self
    rw [List.append_cons] at hdistinct
    have hnew : param ∉ done := fun hmem =>
      (List.nodup_append.mp (List.nodup_append.mp hdistinct).1).2.2 param hmem param
        List.mem_cons_self rfl
    refine .cons (opensOperand_word hparam.toIsWord) (fun ts hts => ?_) (ih _ ?_ hdistinct)
    · exact parameter hparam.toIsName hnew hts.solid
    · exact fun p hp => hparams p (List.mem_cons_of_mem _ hp)

theorem function {f : FunctionDef} {xs ys ts : List Token} (hk : k.AllPlain)
    (hframe : k.frame = none) (hdecls : Decl.AllSpelled f.decls xs)
    (hbody : Stmt.AllSpelled f.body ys)
    (hobeys : f.Obeys settings.strict IsPlainName k) (hdepth : f.depth ≤ settings.maxNesting)
    (hsolid : Solid ts) :
    Yields (Reader.function settings)
      (.word f.name :: .mark '(' :: (commas (f.params.map fun param => [.word param]) ++
        .mark ')' :: .mark '{' :: (xs ++ (ys ++ .mark '}' :: ts))))
      (Scope.Sees k) f ts (Scope.Sees { k with functions := k.functions ++ [f.signature] }) := by
  obtain ⟨fname, params, decls, body⟩ := f
  obtain ⟨hname, hnew, hparams, hdistinct, hobeyDecls, hobeyBody⟩ := hobeys
  obtain ⟨hdepthDecls, hdepthBody⟩ := Nat.max_le.mp hdepth
  have hinside := hk.inside hname hparams
  have hlocals := hobeyDecls.allPlain decls hinside
  have hvar : Lacks "var" (ys ++ .mark '}' :: ts) :=
    hbody.lacks hlocals hobeyBody (by decide) .brace
  refine bind_name hname.toIsName (solid_mark (by decide) _) fun place => ?_
  refine bind_scope fun s hs => ?_
  obtain ⟨-, rfl⟩ := hs
  have hnone := Scope.frame_names_eq_none.mp hframe
  have hfresh : s.hasFunction fname = false := by
    simpa [Scope.names, Scope.hasFunction, hnone] using hnew
  have hitems : Items Reader.parameter (InParams s fname) [] params _ :=
    parameters params [] hparams hdistinct
  simp only [hfresh, Bool.false_eq_true, if_false]
  refine (setScope (InParams.empty s fname)).bind ?_
  refine (expect (hitems.solid _)).bind ?_
  refine (parenthesised hitems (solid_mark (by decide) _)).bind ?_
  refine (expect (hdecls.solid hvar.solid)).bind ?_
  have hdeclared := declarations hinside hdecls hobeyDecls hdepthDecls hvar
  refine (hdeclared.of_imp (fun s' hs' => ?_) fun _ h => h).bind ?_
  · exact ⟨hs'.scopeValid hfresh, hs'.names hnone decls body⟩
  refine (untilBrace (statement settings) hlocals hsolid body hbody hobeyBody hdepthBody).bind ?_
  refine bind_scope fun s' hs' => ?_
  -- statements declare nothing inside a function, so only its own variables have to go
  have hend := hs'.2
  rw [Decl.afterAll_frame rfl] at hobeyBody hend
  rw [Stmt.AllObey.afterAll_eq (Names.frame_declare rfl _) body hobeyBody] at hend
  refine (setScope ⟨Scope.valid_of_frame_none rfl, ?_⟩).bind (pure _)
  exact Scope.complete_names hframe hend

theorem noFunctions {ts : List Token} {P : Scope → Prop} (h : Lacks "function" ts) :
    Yields (Reader.functions settings) ts P [] ts P :=
  loop_none ((lacks (isWord_of_mem_keywords (by decide)) h).bind (pure none))

theorem functions {fs : List FunctionDef} {xs ts : List Token} (hk : k.AllPlain)
    (hframe : k.frame = none) (hspelled : FunctionDef.AllSpelled fs xs)
    (hobey : FunctionDef.AllObey settings.strict IsPlainName k fs)
    (hdepth : FunctionDef.depthAll fs ≤ settings.maxNesting) (hend : Lacks "function" ts) :
    Yields (Reader.functions settings) (xs ++ ts) (Scope.Sees k) fs ts
      (Scope.Sees { k with functions := k.functions ++ fs.map (·.signature) }) := by
  induction fs generalizing k xs with
  | nil =>
    cases hspelled
    rw [List.map_nil, List.append_nil]
    exact noFunctions hend
  | cons f fs ih =>
    obtain ⟨hf, hfs⟩ := hobey
    obtain ⟨hd, hds⟩ := Nat.max_le.mp hdepth
    obtain ⟨_, zs, ⟨us, vs, hus, hvs, rfl⟩, hzs, rfl⟩ := hspelled
    have hrest := ih (hk.complete hf.name) hframe hzs hfs hds
    have hsolid : Solid (zs ++ ts) := by
      cases fs with
      | nil =>
        cases hzs
        exact hend.solid
      | cons g gs => exact (hzs.lacks (w := "var") hfs.1.name (by decide) ts).solid
    simp only [braced, List.cons_append, List.append_assoc, List.nil_append] at hrest ⊢
    refine loop_some ((word (isWord_of_mem_keywords (by decide)) ?_).bind ?_) ?_ hrest
    · exact solid_word hf.name.toIsWord _
    · exact (function hk hframe hus hvs hf hd hsolid).bind (pure _)
    · simp only [List.length_cons, List.length_append]
      omega

/-! ## Scripts -/

/-- Statements are read up to the end of the text. -/
theorem statements (hk : k.AllPlain) (body : List Stmt) {xs : List Token}
    (hspelled : Stmt.AllSpelled body xs) (hobey : Stmt.AllObey settings.strict IsPlainName k body)
    (hdepth : Stmt.depthAll body ≤ settings.maxNesting) :
    Yields (Reader.loop (Reader.statementTurn settings)) xs (Scope.Sees k) body []
      (Scope.Sees (Stmt.afterAll k body)) := by
  induction body generalizing k xs with
  | nil =>
    cases hspelled
    exact loop_none (atEnd.bind (pure none))
  | cons st rest ih =>
    obtain ⟨ys, zs, hys, hzs, rfl⟩ := hspelled
    obtain ⟨hd, hds⟩ := Nat.max_le.mp hdepth
    have hk' := hobey.1.allPlain st k hk
    have hnext : Lacks "else" (zs ++ []) := hzs.lacks hk' hobey.2 (by decide) .nil
    rw [List.append_nil] at hnext
    obtain ⟨w, tail, rfl, hopens, -⟩ := hys.head hk hobey.1
    have hfirst := begins_word hopens.isWord (tail ++ zs)
    refine loop_some ?_ ?_ (ih hk' hzs hobey.2 hds)
    · refine (not_atEnd (hfirst.mono fun _ _ => trivial)).bind ?_
      exact (statement settings k st _ _ hk hys hobey.1 hd hnext).bind (pure _)
    · simp only [List.cons_append, List.length_cons, List.length_append]
      omega

/-- **A script that obeys the static rules is read from each of its spellings.** -/
theorem script {s : Script} {ts : List Token} (hspelled : s.Spelled ts)
    (hobeys : s.Obeys settings IsPlainName) :
    Solid ts ∧ Yields (Reader.script settings) ts (Scope.Sees (.top [] [])) s []
      (fun _ => True) := by
  obtain ⟨ws, xs, ys, zs, hws, hxs, hys, hzs, rfl⟩ := hspelled
  obtain ⟨hfirst, hlast⟩ := Nat.max_le.mp hobeys.nesting
  obtain ⟨hdepthDecls, hdepthFunctions⟩ := Nat.max_le.mp hfirst
  obtain ⟨hdepthLate, hdepthBody⟩ := Nat.max_le.mp hlast
  have hextends := Decl.afterAll_extends (k := .top [] []) rfl s.decls
  have hframe : s.namesAfterDecls.frame = none := hextends.frame.symm
  have hnames : { s.namesAfterDecls with
      functions := s.namesAfterDecls.functions ++ s.functions.map (·.signature) } =
        s.namesAfterFunctions := by
    have hnone : s.namesAfterDecls.functions = [] := hextends.functions.symm
    rw [Script.namesAfterFunctions, hnone, List.nil_append]
  have hplain₁ : s.namesAfterDecls.AllPlain := hobeys.decls.allPlain s.decls Names.allPlain_top
  have hplain₂ : s.namesAfterFunctions.AllPlain :=
    hnames ▸ hobeys.functions.allPlain s.functions hplain₁
  have hplain₃ : s.namesAfterLateDecls.AllPlain := hobeys.lateDecls.allPlain s.lateDecls hplain₂
  -- each part of the script ends where the next one begins
  have hbody : ∀ w ∈ ["var", "else", "function"], Lacks w zs := by
    intro w hw
    have hend := hzs.lacks hplain₃ hobeys.body hw .nil
    rwa [List.append_nil] at hend
  have hlate : Lacks "function" (ys ++ zs) :=
    hys.lacks hobeys.lateDecls (by decide) (hbody "function" (by decide))
  have hfunctions : Lacks "var" (xs ++ (ys ++ zs)) := by
    cases hfs : s.functions with
    | nil =>
      rw [hfs] at hxs
      rw [hobeys.noLateDecls hfs] at hys
      cases hxs
      cases hys
      exact hbody "var" (by decide)
    | cons f fs =>
      have hobey := hobeys.functions
      rw [hfs] at hxs hobey
      exact hxs.lacks hobey.1.name (by decide) _
  refine ⟨hws.solid hfunctions.solid, ?_⟩
  refine (declarations Names.allPlain_top hws hobeys.decls hdepthDecls hfunctions).bind ?_
  refine (functions hplain₁ hframe hxs hobeys.functions hdepthFunctions hlate).bind ?_
  rw [hnames]
  refine (declarations hplain₂ hys hobeys.lateDecls hdepthLate (hbody "var" (by decide))).bind ?_
  refine (statements hplain₃ s.body hzs hobeys.body hdepthBody).bind ?_
  refine bind_scope fun s' hs' => ?_
  have hglobals : s'.globals.names = s.globals :=
    (congrArg Names.globals hs'.2).trans hobeys.globals.symm
  rw [hglobals]
  exact (pure s).of_imp (fun _ h => h) fun _ _ => trivial

end Yields

end Reader

/-- **A script that obeys the static rules is read from each of its texts.** -/
theorem Script.Rendering.run {settings : Settings} {s : Script} {source : String}
    (h : s.Rendering source.toList) (hobeys : s.Obeys settings IsPlainName) :
    (Reader.script settings).run source = .ok s := by
  obtain ⟨ts, hspelled, hrenders⟩ := h
  obtain ⟨hsolid, hscript⟩ := Reader.Yields.script hspelled hobeys
  obtain ⟨r, hread, -⟩ :=
    hscript ⟨source.toList, ∅⟩ (hrenders.remain hsolid) ⟨Scope.valid_empty, rfl⟩
  rw [Reader.run, hread]

end StackScript
