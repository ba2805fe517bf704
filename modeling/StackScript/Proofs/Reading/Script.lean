import StackScript.Proofs.Reading.Statement

/-!
# What is read as a script

A script that has been read obeys the static rules (`Post.script`), so that it is well formed, and
its program has at most four instructions more than its text has characters. No text makes the
reader complain about itself.
-/

namespace StackScript

/-! ## Functions -/

/-- Inside a function every declaration adds to the frame. -/
theorem Decl.afterAll_frame {k : Names} (hk : k.frame.isSome) (decls : List Decl) :
    Decl.afterAll k decls = k.declare (decls.map (·.name)) := by
  induction decls generalizing k with
  | nil => exact (Names.declare_nil k).symm
  | cons d rest ih =>
    calc Decl.afterAll (k.introduce d.name) rest
      _ = Decl.afterAll (k.declare [d.name]) rest := by rw [Names.introduce_eq_declare hk]
      _ = (k.declare [d.name]).declare (rest.map (·.name)) := ih (Names.frame_declare hk _)
      _ = k.declare (d.name :: rest.map (·.name)) := Names.declare_declare k _ _

namespace Reader

/-- Parameters of a function with a name are being read, in a script where `s` is known outside. -/
structure InParams (s : Scope) (name : String) (params : List String) (s' : Scope) : Prop where
  frame : ∃ f : Frame, s' = { s with frame := some f } ∧ f.name = name ∧
    f.params = params.length ∧ f.names = params ∧ f.Numbered
  valid : ∀ param ∈ params, Lexeme.IsName param
  distinct : params.Nodup

section Parameters

variable {s s' : Scope} {name : String} {params : List String} {r r' : Reading}

theorem InParams.empty (s : Scope) (name : String) :
    InParams s name [] { s with frame := some (.empty name) } :=
  ⟨⟨.empty name, rfl, rfl, rfl, rfl, fun i v h => (by simp [Frame.empty] at h)⟩,
    fun _ h => (by cases h), .nil⟩

theorem InParams.consumes {n : Nat} (h : InParams s name params r.scope) (hr : Consumes n r r') :
    InParams s name params r'.scope := by
  rw [hr.1]
  exact h

theorem InParams.unique {params' : List String} (h : InParams s name params s')
    (h' : InParams s name params' s') : params = params' := by
  obtain ⟨f, hscope, -, -, rfl, -⟩ := h.frame
  obtain ⟨f', hscope', -, -, rfl, -⟩ := h'.frame
  rw [hscope] at hscope'
  cases hscope'
  rfl

/-- The names in view where the declarations of a function begin. -/
theorem InParams.names (h : InParams s name params s') (hs : s.frame = none)
    (decls : List Decl) (body : List Stmt) :
    s'.names = FunctionDef.names s.names ⟨name, params, decls, body⟩ := by
  obtain ⟨f, hscope, hname, hparams, hnames, -⟩ := h.frame
  simp [hscope, Scope.names, FunctionDef.names, FunctionDef.signature, hname, hparams, hnames, hs]

theorem InParams.scopeValid (h : InParams s name params s') (hnew : s.hasFunction name = false) :
    s'.Valid := by
  obtain ⟨f, hscope, hname, -, -, hnumbered⟩ := h.frame
  rw [hscope]
  refine ⟨?_, ?_⟩
  · rintro _ ⟨⟩
    exact hnumbered
  · rintro _ ⟨⟩
    simpa [Scope.hasFunction, hname] using hnew

/-- In the body of a function nothing is declared, so its names are in view up to its end. -/
theorem InParams.body {settings : Settings} {decls : List Decl} {body : List Stmt}
    {r r₁ r₂ : Reading} (h : InParams s name params r.scope) (hs : s.frame = none)
    (hdecls : Decl.AllRead settings.maxNesting decls r r₁)
    (hbody : Stmt.AllRead settings.strict settings.maxNesting body r₁ r₂) :
    Stmt.AllObey settings.strict Lexeme.IsName
        ((FunctionDef.names s.names ⟨name, params, decls, body⟩).declare (decls.map (·.name))) body ∧
      r₂.scope.names =
        (FunctionDef.names s.names ⟨name, params, decls, body⟩).declare (decls.map (·.name)) := by
  have hobey := hbody.obey
  have hend := hbody.names
  rw [hdecls.names, h.names hs decls body, Decl.afterAll_frame rfl] at hobey hend
  rw [Stmt.AllObey.afterAll_eq (Names.frame_declare rfl _) body hobey] at hend
  exact ⟨hobey, hend⟩

/-- One more parameter. -/
theorem InParams.add {f f' : Frame} {param : String} (h : InParams s name params s')
    (hf : s'.frame = some f) (hparam : Lexeme.IsName param)
    (hadd : f.addParameter? param = some f') :
    InParams s name (params ++ [param]) { s' with frame := some f' } := by
  obtain ⟨g, rfl, hname, hparams, hnames, hnumbered⟩ := h.frame
  cases hf
  obtain ⟨hnew, rfl⟩ := Frame.addParameter?_eq_some_iff.mp hadd
  refine ⟨⟨_, rfl, hname, ?_, ?_, hnumbered.snoc true _⟩, ?_, ?_⟩
  · simp [hparams]
  · simp [Frame.names, Frame.next, ← hnames]
  · intro p hmem
    rcases List.mem_append.mp hmem with hold | hlast
    · exact h.valid p hold
    · exact List.mem_singleton.mp hlast ▸ hparam
  · rw [hnames] at hnew
    refine List.nodup_append.mpr ⟨h.distinct, List.pairwise_singleton _ _, fun a ha b hb => ?_⟩
    rintro rfl
    exact hnew (List.mem_singleton.mp hb ▸ ha)

theorem Post.parameter (h : InParams s name params r.scope) :
    Post Reader.parameter r fun param r' =>
      InParams s name (params ++ [param]) r'.scope ∧ r'.rest.length < r.rest.length := by
  refine (Post.name "parameter name").bind fun (found, place) r₁ ⟨h₁, hname⟩ => bind_scope ?_
  have h₁' := h.consumes h₁
  split
  · rename_i hnone
    obtain ⟨f, hscope, -⟩ := h₁'.frame
    rw [hscope] at hnone
    cases hnone
  · rename_i f hf
    split
    · rename_i f' hadd
      exact bind_setScope (pure ⟨h₁'.add hf hname hadd, h₁.2⟩)
    · exact refuseAt fun _ h => by cases h

/-- One more parameter was read between `r` and `r'`. -/
def ParamRead (s : Scope) (name : String) (param : String) (r r' : Reading) : Prop :=
  r'.rest.length < r.rest.length ∧
    ∀ params, InParams s name params r.scope → InParams s name (params ++ [param]) r'.scope

theorem InParams.following {more : List String} (h : InParams s name params r.scope)
    (hmore : Following (ParamRead s name) 1 more r r') :
    InParams s name (params ++ more) r'.scope ∧
      r'.rest.length + more.length ≤ r.rest.length := by
  induction hmore generalizing params with
  | nil hr =>
    rw [List.append_nil]
    exact ⟨h.consumes hr, Nat.le_of_add_right_le hr.2⟩
  | cons hsep hparam _ ih =>
    obtain ⟨hall, hlen⟩ := ih (hparam.2 _ (h.consumes hsep))
    rw [List.append_assoc] at hall
    have hsep := hsep.2
    have hparam := hparam.1
    refine ⟨hall, ?_⟩
    rw [List.length_cons]
    omega

theorem Post.parameters (h : InParams s name [] r.scope) :
    Post (Reader.parenthesised Reader.parameter) r fun params r' =>
      InParams s name params r'.scope ∧ r'.rest.length + params.length ≤ r.rest.length := by
  refine (parenthesised (I := fun r => ∃ params, InParams s name params r.scope)
    (S := ParamRead s name) (fun ⟨params, h⟩ hr => ⟨params, h.consumes hr⟩) ?_ ⟨[], h⟩).mono ?_
  · rintro r ⟨params, hr⟩
    refine (parameter hr).mono fun param r' ⟨h', hlen⟩ => ?_
    exact ⟨⟨hlen, fun params' hr' => hr'.unique hr ▸ h'⟩, ⟨_, h'⟩, Nat.le_of_lt hlen⟩
  · rintro params r' (⟨rfl, hr'⟩ | ⟨param, rest, r₀, r₁, rfl, h₀, hparam, -, hrest⟩)
    · exact ⟨h.consumes hr', Nat.le_of_add_right_le hr'.2⟩
    · obtain ⟨hall, hlen⟩ := (hparam.2 [] (h.consumes h₀)).following hrest
      have hfirst := hparam.1
      have hskip := h₀.2
      refine ⟨hall, ?_⟩
      rw [List.length_cons]
      omega

end Parameters

/-- A function was read between `r` and `r'`. -/
structure FunctionRead (settings : Settings) (f : FunctionDef) (r r' : Reading) : Prop where
  obeys : f.Obeys settings.strict Lexeme.IsName r.scope.names
  frame : r'.scope.frame = none
  names : r'.scope.names =
    { r.scope.names with functions := r.scope.names.functions ++ [f.signature] }
  depth : f.depth ≤ settings.maxNesting
  size : r'.rest.length + f.params.length + f.size ≤ r.rest.length

/-- Functions were read between `r` and `r'`. -/
structure FunctionsRead (settings : Settings) (r : Reading) (fs : List FunctionDef) (r' : Reading) :
    Prop where
  obey : FunctionDef.AllObey settings.strict Lexeme.IsName r.scope.names fs
  frame : r'.scope.frame = none
  names : r'.scope.names =
    { r.scope.names with functions := r.scope.names.functions ++ fs.map (·.signature) }
  depth : FunctionDef.depthAll fs ≤ settings.maxNesting
  size : r'.rest.length + FunctionDef.sizeAll fs ≤ r.rest.length
  /-- The variables of each function are paid for as well. -/
  each : ∀ f ∈ fs, f.params.length + f.size ≤ r.rest.length
  none : fs = [] → r'.rest = Lexeme.dropBlanks r.rest

namespace Post

variable {r : Reading} {settings : Settings}

theorem function (h : r.scope.frame = none) :
    Post (Reader.function settings) r fun f r' =>
      ∀ r₀, Consumes 8 r₀ r → FunctionRead settings f r₀ r' := by
  refine (name "function name").bind fun (found, place) r₁ ⟨h₁, hname⟩ => bind_scope ?_
  show Post (if r₁.scope.hasFunction found = true then _ else _) r₁ _
  split
  · exact (refuseAt fun _ h => by cases h)
  rename_i hnew
  refine bind_setScope ?_
  refine (expect '(').bind fun _ r₂ h₂ => ?_
  have hin : InParams r₁.scope found [] r₂.scope := (InParams.empty r₁.scope found).consumes h₂
  refine (parameters hin).bind fun params r₃ ⟨hparams, hlen⟩ => ?_
  refine (expect '{').bind fun _ r₄ h₄ => ?_
  have hin := hparams.consumes h₄
  have hvalid := hin.scopeValid (by simpa using hnew)
  refine (declarations hvalid).bind fun decls r₅ ⟨hdecls, _, _⟩ => ?_
  refine (untilBrace (statement settings) hdecls.valid).bind fun body r₆ ⟨hbody, hlen'⟩ => ?_
  refine bind_scope (bind_setScope (pure fun r₀ h₀ => ?_))
  have h₁ := h₀.trans h₁
  rw [h₀.1] at h
  rw [h₁.1] at hin hnew
  have hobey := hdecls.obey
  rw [hin.names h decls body] at hobey
  obtain ⟨hbodyObey, hend⟩ := hin.body h hdecls hbody
  refine ⟨⟨hname, ?_, hparams.valid, hparams.distinct, hobey, ?_⟩, rfl, ?_,
    Nat.max_le.mpr ⟨hdecls.depth, hbody.depth⟩, ?_⟩
  · simpa [Scope.names, Scope.hasFunction, h] using hnew
  · rwa [Decl.afterAll_frame rfl]
  · exact Scope.complete_names (by simp [Scope.names, h]) hend
  · have := h₁.2
    have : r₂.rest.length + 1 ≤ r₁.rest.length := h₂.2
    have := h₄.2
    have := hdecls.size
    simp only [FunctionDef.size]
    omega

theorem functions (h : r.scope.frame = none) :
    Post (Reader.functions settings) r (FunctionsRead settings r) := by
  refine loop (I := fun r => r.scope.frame = none) (fun r hr => ?_) h
  refine ite (word_eq "function") (fun r₁ ⟨h₁, _⟩ => ?_) fun r₁ ⟨h₁, _⟩ => ?_
  · refine (function (h₁.1 ▸ hr)).bind fun f r' hf => pure ?_
    have hf := hf r h₁
    refine ⟨by have := hf.size; simp only [FunctionDef.size] at this; omega, hf.frame,
      fun fs r'' hfs => ?_⟩
    have hobey := hfs.obey
    have hnames := hfs.names
    rw [hf.names] at hobey hnames
    have hsize := hf.size
    refine ⟨⟨hf.obeys, hobey⟩, hfs.frame, ?_, Nat.max_le.mpr ⟨hf.depth, hfs.depth⟩, ?_,
      List.forall_mem_cons.mpr ⟨by omega, fun g hg => Nat.le_trans (hfs.each g hg) (by omega)⟩,
      fun hnil => by cases hnil⟩
    · rw [hnames]
      simp
    · have := hfs.size
      simp only [FunctionDef.sizeAll]
      omega
  · subst h₁
    exact pure ⟨trivial, hr, by simp, Nat.zero_le _, Lexeme.length_dropBlanks r.rest,
      fun _ hf => (by cases hf), fun _ => rfl⟩

theorem statements (h : r.scope.Valid) :
    Post (Reader.loop (Reader.statementTurn settings)) r
      (Stmt.AllRead settings.strict settings.maxNesting · r) := by
  refine loop (I := fun r => r.scope.Valid)
    (M := fun r body r' => Stmt.AllRead settings.strict settings.maxNesting body r r')
    (fun r hr => ?_) h
  refine ite (P := Consumes 0 r) (N := Consumes 0 r) (atEnd.mono fun b r' h' => ?_)
    (fun r₁ h₁ => pure (.nil hr h₁)) fun r₁ h₁ => ?_
  · cases b <;> exact h'
  · refine (statement settings r₁ (h₁.valid hr)).bind fun st r' hst => pure ?_
    have hst := Stmt.Read.of_consumes h₁ hst
    exact ⟨hst.shorter, hst.valid, fun rest r'' hrest => .cons hst hrest⟩

/-- **What is read as a script obeys the static rules, and its program is hardly longer than its
text**, which also pays for the parameters of each function. -/
theorem script (settings : Settings) (text : List Char) :
    Post (Reader.script settings) ⟨text, ∅⟩ fun s _ =>
      s.Obeys settings Lexeme.IsName ∧ s.size ≤ text.length + 4 ∧
        ∀ f ∈ s.functions, f.params.length + f.size ≤ text.length := by
  refine (declarations Scope.valid_empty).bind fun decls r₁ ⟨hdecls, hvar, _⟩ => ?_
  have hnames₁ : r₁.scope.names = Decl.afterAll (.top [] []) decls := hdecls.names
  have hfirst := Decl.afterAll_extends (k := .top [] []) rfl decls
  have hframe : r₁.scope.frame = none :=
    Scope.frame_names_eq_none.mp (by rw [hnames₁]; exact hfirst.frame.symm)
  refine (functions hframe).bind fun fs r₂ hfs => ?_
  have hobeyFs := hfs.obey
  have hnames₂ := hfs.names
  rw [hnames₁] at hobeyFs hnames₂
  rw [← hfirst.functions] at hnames₂
  refine (declarations (Scope.valid_of_frame_none hfs.frame)).bind
    fun lateDecls r₃ ⟨hlate, _, hnone⟩ => ?_
  have hobeyLate := hlate.obey
  have hnames₃ := hlate.names
  rw [hnames₂] at hobeyLate hnames₃
  have hconsumed : r₁.rest.length + Decl.sizeAll decls ≤ text.length := hdecls.size
  refine (statements hlate.valid).bind fun body r₄ hbody => bind_scope (pure ⟨?_, ?_, ?_⟩)
  · have hobeyBody := hbody.obey
    have hnames₄ := hbody.names
    rw [hnames₃] at hobeyBody hnames₄
    refine ⟨hdecls.obey, hobeyFs, hobeyLate, hobeyBody, fun hnil => hnone ?_,
      congrArg Names.globals hnames₄, ?_⟩
    · rwa [AtVar, hfs.none hnil, Lexeme.dropBlanks_idem]
    · exact Nat.max_le.mpr ⟨Nat.max_le.mpr ⟨hdecls.depth, hfs.depth⟩,
        Nat.max_le.mpr ⟨hlate.depth, hbody.depth⟩⟩
  · have := hfs.size
    have := hlate.size
    have := hbody.size
    simp only [Script.size]
    omega
  · exact fun f hf => Nat.le_trans (hfs.each f hf) (by omega)

/-- **What is read as a whole expression is well formed on its own** and nests no deeper than
allowed. -/
theorem wholeExpression (settings : Settings) (text : List Char) :
    Post (Reader.wholeExpression settings) ⟨text, ∅⟩ fun e _ =>
      e.WellFormed (.top [] []) ∧ e.size ≤ text.length ∧ e.depth ≤ settings.maxNesting := by
  refine (expression settings settings.maxNesting _ Scope.valid_empty).bind fun e r₁ he => ?_
  refine ite (P := fun _ => True) (N := fun _ => True) (atEnd.mono fun b _ _ => ?_)
    (fun _ _ => pure ⟨he.wellFormed, ?_, he.depth⟩) fun _ _ => refuse fun _ h => by cases h
  · cases b <;> trivial
  · have : r₁.rest.length + e.size ≤ text.length := he.consumes.2
    omega

end Post

end Reader

end StackScript
