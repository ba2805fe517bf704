import StackScript.Proofs.Reading.Expression

/-!
# What is read as declarations and statements

Declarations and statements that have been read obey the static rules where they stand, and leave
in view what the rules say (`Decl.AllRead`, `Stmt.Read`, `Stmt.AllRead`). They have at most as many
instructions as their text has characters.
-/

namespace StackScript

/-! ## Declarations -/

section Declarations

variable {valid : String → Prop} {k : Names}

theorem Decl.afterAll_append (xs ys : List Decl) :
    Decl.afterAll k (xs ++ ys) = Decl.afterAll (Decl.afterAll k xs) ys := List.foldl_append

theorem Decl.allObey_append {xs ys : List Decl} :
    Decl.AllObey valid k (xs ++ ys) ↔
      Decl.AllObey valid k xs ∧ Decl.AllObey valid (Decl.afterAll k xs) ys := by
  induction xs generalizing k with
  | nil => exact ⟨fun h => ⟨trivial, h⟩, fun h => h.2⟩
  | cons d rest ih =>
    constructor
    · rintro ⟨hvalid, hnew, hplace, hinit, hrest⟩
      obtain ⟨hxs, hys⟩ := ih.mp hrest
      exact ⟨⟨hvalid, hnew, hplace, hinit, hxs⟩, hys⟩
    · rintro ⟨⟨hvalid, hnew, hplace, hinit, hrest⟩, hys⟩
      exact ⟨hvalid, hnew, hplace, hinit, ih.mpr ⟨hrest, hys⟩⟩

theorem Decl.depthAll_append (xs ys : List Decl) :
    Decl.depthAll (xs ++ ys) = max (Decl.depthAll xs) (Decl.depthAll ys) := by
  induction xs with
  | nil => exact (Nat.zero_max _).symm
  | cons d rest ih => simp only [List.cons_append, Decl.depthAll, ih, Nat.max_assoc]

end Declarations

/-- Declarations were read between `r` and `r'`. -/
structure Decl.AllRead (levels : Nat) (decls : List Decl) (r r' : Reading) : Prop where
  obey : Decl.AllObey Lexeme.IsName r.scope.names decls
  valid : r'.scope.Valid
  names : r'.scope.names = Decl.afterAll r.scope.names decls
  depth : Decl.depthAll decls ≤ levels
  size : r'.rest.length + Decl.sizeAll decls ≤ r.rest.length

/-- One declaration was read between `r` and `r'`; the character that ends it is still to come. -/
structure Decl.Read (levels : Nat) (d : Decl) (r r' : Reading) : Prop where
  obeys : Decl.AllObey Lexeme.IsName r.scope.names [d]
  valid : r'.scope.Valid
  names : r'.scope.names = r.scope.names.introduce d.name
  depth : d.depth ≤ levels
  size : r'.rest.length + d.size ≤ r.rest.length + 1
  shorter : r'.rest.length < r.rest.length

namespace Decl.AllRead

variable {levels n : Nat} {xs ys : List Decl} {r r' r'' : Reading}

theorem nil (hr : r.scope.Valid) (h : Reader.Consumes n r r') : Decl.AllRead levels [] r r' :=
  ⟨trivial, h.valid hr, congrArg Scope.names h.1, Nat.zero_le _, Nat.le_of_add_right_le h.2⟩

theorem singleton {d : Decl} (h : Reader.Consumes 1 r r') (hd : Decl.Read levels d r' r'') :
    Decl.AllRead levels [d] r r'' := by
  refine ⟨h.1 ▸ hd.obeys, hd.valid, h.1 ▸ hd.names, Nat.max_le.mpr ⟨hd.depth, Nat.zero_le _⟩, ?_⟩
  have := h.2
  have := hd.size
  simp only [Decl.sizeAll]
  omega

theorem append (hxs : Decl.AllRead levels xs r r') (hys : Decl.AllRead levels ys r' r'') :
    Decl.AllRead levels (xs ++ ys) r r'' := by
  have hobey := hys.obey
  have hnames := hys.names
  rw [hxs.names] at hobey hnames
  refine ⟨Decl.allObey_append.mpr ⟨hxs.obey, hobey⟩, hys.valid,
    hnames.trans (Decl.afterAll_append xs ys).symm, ?_, ?_⟩
  · rw [Decl.depthAll_append]
    exact Nat.max_le.mpr ⟨hxs.depth, hys.depth⟩
  · have hx := hxs.size
    have hy := hys.size
    rw [Decl.sizeAll_append]
    omega

theorem trans (h : Decl.AllRead levels xs r r') (h' : Reader.Consumes n r' r'') :
    Decl.AllRead levels xs r r'' := by
  have := h.append (nil h.valid h')
  rwa [List.append_nil] at this

theorem of_following {ds : List Decl}
    (h : Reader.Following (Decl.Read levels) n ds r r') (hr : r.scope.Valid) :
    Decl.AllRead levels ds r r' := by
  induction h with
  | nil h => exact nil hr h
  | cons hsep hd _ ih => exact (singleton hsep hd).append (ih hd.valid)

end Decl.AllRead

namespace Reader

variable {r : Reading} {settings : Settings}

namespace Post

theorem declare (h : r.scope.Valid) (name : String) (place : List Char) :
    Post (Reader.declare name place) r fun p r' =>
      r'.rest = r.rest ∧ r'.scope.Valid ∧ name ∉ r.scope.names.frameNames ∧
        r'.scope.names = r.scope.names.introduce name ∧
          (r.scope.names.introduce name).place? name = some p := by
  refine bind_scope ?_
  cases hframe : r.scope.frame with
  | some frame =>
    cases hadd : frame.addLocal? name with
    | none =>
      simp only [hadd]
      exact refuseAt fun _ h => by cases h
    | some frame' =>
      simp only [hadd]
      obtain ⟨hnames, hnew, hplace⟩ := Scope.addLocal_names hframe hadd
      exact bind_setScope (pure ⟨rfl, h.addLocal hframe hadd, hnew, hnames, hplace⟩)
  | none =>
    obtain ⟨hnames, hplace⟩ := Scope.declare_names hframe name
    rw [hframe] at hnames
    refine bind_setScope (pure ⟨rfl, Scope.valid_of_frame_none rfl, ?_, hnames, hplace⟩)
    simp [Names.frameNames, Scope.names, hframe]

theorem declaration (h : r.scope.Valid) :
    Post (Reader.declaration settings) r (Decl.Read settings.maxNesting · r) := by
  refine (name "variable name").bind fun (found, place) r₁ ⟨h₁, hname⟩ => ?_
  refine (declare (h₁.valid h) found place).bind fun p r₂ ⟨hrest, hvalid, hnew, hnames, hp⟩ => ?_
  have hroom : p.room.length ≤ 1 := by cases p <;> simp [Place.room]
  have hlen := h₁.2
  rw [h₁.1] at hnew hnames hp
  refine ite (symbol '=') (fun r₃ h₃ => ?_) fun r₃ h₃ => ?_
  · refine (expression settings settings.maxNesting r₃ (h₃.valid hvalid)).bind fun e r₄ he => ?_
    have hconsumes := h₃.trans he.consumes
    have hnames' : r₃.scope.names = r.scope.names.introduce found := by rw [h₃.1, hnames]
    have hlen' := hconsumes.2
    rw [hrest] at hlen'
    refine pure ⟨⟨hname, hnew, hp, ?_, trivial⟩, hconsumes.valid hvalid, ?_, he.depth, ?_, ?_⟩
    · rintro _ ⟨⟩
      exact hnames' ▸ he.wellFormed
    · rw [hconsumes.1, hnames]
    · simp only [Decl.size]
      omega
    · omega
  · have hlen' := h₃.2
    rw [hrest] at hlen'
    refine pure ⟨⟨hname, hnew, hp, fun e he => (by cases he), trivial⟩, h₃.valid hvalid, ?_,
      Nat.zero_le _, ?_, ?_⟩
    · rw [h₃.1, hnames]
    · simp only [Decl.size]
      omega
    · omega

/-- A word that does not follow: only blanks have been skipped. -/
theorem word_eq (w : String) :
    Post (Reader.scan (.word w)) r fun b r' =>
      if b then Consumes w.toList.length r r' ∧ (Lexeme.word? w (Lexeme.dropBlanks r.rest)).isSome
      else r' = { r with rest := Lexeme.dropBlanks r.rest } ∧
        Lexeme.word? w (Lexeme.dropBlanks r.rest) = none := by
  have hword := word (r := r) w
  cases hw : Lexeme.word? w (Lexeme.dropBlanks r.rest) with
  | none => exact of_ok (scan_isSome_none hw) ⟨rfl, rfl⟩
  | some found =>
    rw [Post, Scanner.word, scan_isSome_some hw] at hword
    exact of_ok (scan_isSome_some hw) ⟨hword, rfl⟩

/-- Whether a declaration begins here. -/
def AtVar (r : Reading) : Prop := (Lexeme.word? "var" (Lexeme.dropBlanks r.rest)).isSome

/-- Groups of declarations were read between `r` and `r'`, all that there are. -/
structure GroupsRead (levels : Nat) (r : Reading) (groups : List (List Decl)) (r' : Reading) :
    Prop where
  decls : Decl.AllRead levels groups.flatten r r'
  all : ¬ AtVar r'
  any : groups ≠ [] → AtVar r

theorem declarationGroup (h : r.scope.Valid) :
    Post (Reader.declarationGroup settings) r
      (Turn (fun r => r.scope.Valid) (GroupsRead settings.maxNesting) r) := by
  refine ite (word_eq "var") (fun r₁ ⟨h₁, hvar⟩ => ?_) fun r₁ ⟨h₁, hvar⟩ => ?_
  · have h₁ : Consumes 3 r r₁ := h₁
    refine (commaList (I := fun r => r.scope.Valid) (S := Decl.Read settings.maxNesting) (n := 0)
      (Nat.add_zero 1) (fun hv hr => hr.valid hv) (fun r hr => ?_) (fun r => ?_)
      (fun r => pure (Consumes.refl r)) (h₁.valid h)).bind ?_
    · exact (declaration hr).mono fun d r' hd => ⟨hd, hd.valid, Nat.le_of_lt hd.shorter⟩
    · refine (symbol ',').bind fun b r' hr' => pure ?_
      cases b with
      | true => exact hr'
      | false => exact hr'
    rintro _ r₃ ⟨d, rest, r₂, rfl, hd, hvalid, hrest⟩
    have hrest := Decl.AllRead.of_following hrest hvalid
    refine (expect ';').bind fun _ r₄ h₄ => pure ?_
    have hdecls :=
      ((Decl.AllRead.singleton (h₁.weaken (by omega)) hd).append hrest).trans h₄
    refine ⟨?_, hdecls.valid, fun groups r' hgroups => ⟨?_, hgroups.all, fun _ => hvar⟩⟩
    · have := h₁.2
      have := hd.shorter
      have := hrest.size
      have := h₄.2
      omega
    · exact hdecls.append hgroups.decls
  · subst h₁
    have hblanks := Lexeme.length_dropBlanks r.rest
    refine pure ⟨.nil (n := 0) h ⟨rfl, hblanks⟩, ?_, fun hne => absurd rfl hne⟩
    simp [AtVar, Lexeme.dropBlanks_idem, hvar]

theorem declarations (h : r.scope.Valid) :
    Post (Reader.declarations settings) r fun decls r' =>
      Decl.AllRead settings.maxNesting decls r r' ∧ ¬ AtVar r' ∧ (¬ AtVar r → decls = []) := by
  refine (loop (fun r hr => declarationGroup hr) h).bind fun groups r' hgroups => pure ?_
  refine ⟨hgroups.decls, hgroups.all, fun hnone => ?_⟩
  cases groups with
  | nil => rfl
  | cons g rest => exact absurd (hgroups.any (by simp)) hnone

end Post

end Reader

/-! ## Statements -/

/-- A statement was read between `r` and `r'`. -/
structure Stmt.Read (strict : Bool) (levels : Nat) (st : Stmt) (r r' : Reading) : Prop where
  obeys : st.Obeys strict Lexeme.IsName r.scope.names
  valid : r'.scope.Valid
  names : r'.scope.names = st.after r.scope.names
  depth : st.depth ≤ levels
  size : r'.rest.length + st.size ≤ r.rest.length

/-- Statements were read between `r` and `r'`. -/
structure Stmt.AllRead (strict : Bool) (levels : Nat) (body : List Stmt) (r r' : Reading) :
    Prop where
  obey : Stmt.AllObey strict Lexeme.IsName r.scope.names body
  valid : r'.scope.Valid
  names : r'.scope.names = Stmt.afterAll r.scope.names body
  depth : Stmt.depthAll body ≤ levels
  size : r'.rest.length + Stmt.sizeAll body ≤ r.rest.length

theorem Stmt.size_pos (st : Stmt) : 0 < st.size := by
  match st with
  | .assign _ _ _ | .call _ _ _ | .ret none | .ret (some _) | .ifThen _ _ | .ifElse _ _ _
  | .whileDo _ _ =>
    simp only [Stmt.size]
    omega

section

variable {strict : Bool} {levels n : Nat} {r r' r'' : Reading} {st : Stmt} {body : List Stmt}

theorem Stmt.Read.shorter (h : st.Read strict levels r r') : r'.rest.length < r.rest.length := by
  have := h.size
  have := st.size_pos
  omega

theorem Stmt.AllRead.nil (hr : r.scope.Valid) (h : Reader.Consumes n r r') :
    Stmt.AllRead strict levels [] r r' :=
  ⟨trivial, h.valid hr, congrArg Scope.names h.1, Nat.zero_le _, Nat.le_of_add_right_le h.2⟩

theorem Stmt.AllRead.cons (hst : st.Read strict levels r r')
    (hbody : Stmt.AllRead strict levels body r' r'') :
    Stmt.AllRead strict levels (st :: body) r r'' := by
  have hobey := hbody.obey
  have hnames := hbody.names
  rw [hst.names] at hobey hnames
  refine ⟨⟨hst.obeys, hobey⟩, hbody.valid, hnames, Nat.max_le.mpr ⟨hst.depth, hbody.depth⟩, ?_⟩
  have := hst.size
  have := hbody.size
  simp only [Stmt.sizeAll]
  omega

/-- What was skipped in front of a statement. -/
theorem Stmt.Read.of_consumes (h : Reader.Consumes n r r') (hst : st.Read strict levels r' r'') :
    st.Read strict levels r r'' := by
  have := h.2
  have := hst.size
  exact ⟨h.1 ▸ hst.obeys, hst.valid, h.1 ▸ hst.names, hst.depth, by omega⟩

end

namespace Reader

variable {r : Reading} {settings : Settings} {levels : Nat}

/-- A reader of bodies on some levels, of which a body itself takes one. -/
def ReadsBody (strict : Bool) (levels : Nat) (body : Reader (List Stmt)) : Prop :=
  ∀ r, r.scope.Valid → Post body r fun b r' =>
    Stmt.AllRead strict levels b r r' ∧ Stmt.depthAll b < levels

/-- A reader of statements on some levels. -/
def ReadsStmt (strict : Bool) (levels : Nat) (statement : Reader Stmt) : Prop :=
  ∀ r, r.scope.Valid → Post statement r (Stmt.Read strict levels · r)

variable {expr : Reader Expr} {block : Reader (List Stmt)} {single : Reader Stmt} {strict : Bool}

namespace Post

theorem target (h : r.scope.Valid) {name : String} (hname : Lexeme.IsName name)
    (place : List Char) :
    Post (Reader.target settings name place) r fun p r' =>
      r'.rest = r.rest ∧ r'.scope.Valid ∧ r'.scope.names = r.scope.names.assigned name ∧
        ((r.scope.names.place? name).isSome ∨
          settings.strict = false ∧ r.scope.names.frame = none ∧ Lexeme.IsName name) ∧
        (r.scope.names.assigned name).place? name = some p := by
  refine bind_scope ?_
  rw [Scope.place?_eq h]
  cases hp : r.scope.names.place? name with
  | some p =>
    have hassigned : r.scope.names.assigned name = r.scope.names := by
      simp [Names.assigned, hp]
    exact pure ⟨rfl, h, hassigned.symm, .inl rfl, (congrArg (·.place? name) hassigned).trans hp⟩
  | none =>
    have hassigned : r.scope.names.assigned name = r.scope.names.introduce name := by
      simp [Names.assigned, hp]
    show Post (if (settings.strict || r.scope.frame.isSome) = true then _ else _) r _
    split
    · exact refuseAt fun _ h => by cases h
    · rename_i hlax
      obtain ⟨hstrict, hframe⟩ : settings.strict = false ∧ r.scope.frame = none := by
        simpa using hlax
      obtain ⟨hnames, hplace⟩ := Scope.declare_names hframe name
      exact bind_setScope (pure ⟨rfl, Scope.valid_of_frame_none hframe,
        hnames.trans hassigned.symm, .inr ⟨hstrict, by simp [Scope.names, hframe], hname⟩,
        (congrArg (·.place? name) hassigned).trans hplace⟩)

theorem untilBrace (hst : ReadsStmt strict levels single) (h : r.scope.Valid) :
    Post (Reader.untilBrace single) r fun body r' =>
      Stmt.AllRead strict levels body r r' ∧
        r'.rest.length + Stmt.sizeAll body < r.rest.length := by
  refine loop (I := fun r => r.scope.Valid) (M := fun r body r' =>
    Stmt.AllRead strict levels body r r' ∧ r'.rest.length + Stmt.sizeAll body < r.rest.length)
    (fun r hr => ?_) h
  refine ite (symbol '}') (fun r' h' => pure ⟨.nil hr h', h'.2⟩) fun r₁ h₁ => ?_
  refine ite (P := Consumes 0 r₁) (N := Consumes 0 r₁) (atEnd.mono fun b r' h' => ?_)
    (fun r₂ _ => refuse fun _ h => by cases h) fun r₂ h₂ => ?_
  · cases b <;> exact h'
  · have h₂ := h₁.trans h₂
    refine (hst r₂ (h₂.valid hr)).bind fun st r' hread => pure ?_
    have hread := Stmt.Read.of_consumes h₂ hread
    refine ⟨hread.shorter, hread.valid, fun rest r'' ⟨hrest, hlen⟩ => ⟨.cons hread hrest, ?_⟩⟩
    have := hread.size
    simp only [Stmt.sizeAll]
    omega

theorem returnStatement (hexpr : ReadsExpr levels expr) (h : r.scope.Valid) :
    Post (Reader.returnStatement expr) r fun st r' =>
      ∀ r₀, Consumes 6 r₀ r → Stmt.Read strict levels st r₀ r' := by
  refine ite (symbol ';') (fun r₁ h₁ => pure fun r₀ h₀ => ?_) fun r₁ h₁ => ?_
  · have h₁ := h₀.trans h₁
    exact ⟨trivial, h₁.valid (h₀.1 ▸ h), congrArg Scope.names h₁.1, Nat.zero_le _,
      (h₁.weaken (by decide)).2⟩
  · refine (hexpr r₁ (h₁.valid h)).bind fun e r₂ he => (expect ';').bind fun _ r₃ h₃ => pure ?_
    intro r₀ h₀
    have h₁ := h₀.trans h₁
    have h₃ := (h₁.trans he.consumes).trans h₃
    refine ⟨h₁.1 ▸ he.wellFormed, h₃.valid (h₀.1 ▸ h), congrArg Scope.names h₃.1, he.depth,
      (h₃.weaken ?_).2⟩
    simp only [Stmt.size]
    omega

theorem ifStatement (hexpr : ReadsExpr levels expr) (hbody : ReadsBody strict levels block)
    (h : r.scope.Valid) :
    Post (Reader.ifStatement expr block) r fun st r' =>
      ∀ r₀, Consumes 2 r₀ r → Stmt.Read strict levels st r₀ r' := by
  refine (hexpr r h).bind fun test r₁ htest => ?_
  refine (hbody r₁ (htest.consumes.valid h)).bind fun yes r₂ ⟨hyes, hdepth⟩ => ?_
  have hobey := hyes.obey
  have hnames := hyes.names
  rw [htest.consumes.1] at hobey hnames
  have hsize := Nat.le_trans (Nat.add_le_add_right hyes.size _) htest.consumes.2
  refine ite (word "else") (fun r₃ h₃ => ?_) fun r₃ h₃ => pure fun r₀ h₀ => ?_
  · have h₃ : Consumes 4 r₂ r₃ := h₃
    refine (hbody r₃ (h₃.valid hyes.valid)).bind fun other r₄ ⟨hother, hdepth'⟩ => pure ?_
    intro r₀ h₀
    have hobey' := hother.obey
    have hnames' := hother.names
    rw [h₃.1, hnames] at hobey' hnames'
    rw [h₀.1] at hobey hobey' hnames'
    refine ⟨⟨h₀.1 ▸ htest.wellFormed, hobey, hobey'⟩, hother.valid, hnames', ?_, ?_⟩
    · have := htest.depth
      simp only [Stmt.depth]
      omega
    · have := h₀.2
      have := h₃.2
      have := hother.size
      simp only [Stmt.size]
      omega
  · rw [h₀.1] at hobey hnames
    refine ⟨⟨h₀.1 ▸ htest.wellFormed, hobey⟩, h₃.valid hyes.valid, h₃.1 ▸ hnames, ?_, ?_⟩
    · have := htest.depth
      simp only [Stmt.depth]
      omega
    · have := h₀.2
      have := h₃.2
      simp only [Stmt.size]
      omega

theorem whileStatement (hexpr : ReadsExpr levels expr) (hbody : ReadsBody strict levels block)
    (h : r.scope.Valid) :
    Post (Reader.whileStatement expr block) r fun st r' =>
      ∀ r₀, Consumes 5 r₀ r → Stmt.Read strict levels st r₀ r' := by
  refine (hexpr r h).bind fun test r₁ htest => ?_
  refine (hbody r₁ (htest.consumes.valid h)).bind fun inside r₂ ⟨hinside, hdepth⟩ => pure ?_
  intro r₀ h₀
  have h₁ := h₀.trans htest.consumes
  refine ⟨⟨h₀.1 ▸ htest.wellFormed, h₁.1 ▸ hinside.obey⟩, hinside.valid, h₁.1 ▸ hinside.names,
    ?_, ?_⟩
  · have := htest.depth
    simp only [Stmt.depth]
    omega
  · have := h₁.2
    have := hinside.size
    simp only [Stmt.size]
    omega

theorem misplacedDeclaration {α : Type} {Q : α → Reading → Prop} (place : List Char) :
    Post (Reader.misplacedDeclaration place) r Q :=
  bind_scope (refuseAt fun _ h => by cases h)

theorem plainStatement (hexpr : ReadsExpr levels expr) (h : r.scope.Valid) :
    Post (Reader.plainStatement settings expr) r (Stmt.Read settings.strict levels · r) := by
  refine (name "statement").bind fun (found, place) r₁ ⟨h₁, hname⟩ => ?_
  refine ite (symbol '(') (fun r₂ h₂ => ?_) fun r₂ h₂ => ?_
  · have h₂ := h₁.trans h₂
    refine (call hexpr (h₂.valid h) found place).bind fun (callee, args) r₃ ⟨hcallee, hargs⟩ => ?_
    refine (expect ';').bind fun _ r₄ h₄ => pure ?_
    have h₄ := (h₂.trans hargs.consumes).trans h₄
    have hwf := hargs.wellFormed
    rw [h₂.1] at hcallee hwf
    refine ⟨⟨hcallee, hwf⟩, h₄.valid h, congrArg Scope.names h₄.1, hargs.depth, (h₄.weaken ?_).2⟩
    simp only [Stmt.size]
    omega
  have h₂ := h₁.trans h₂
  refine ite (symbol '=') (fun r₃ h₃ => ?_) fun r₃ h₃ => refuse fun _ h => by cases h
  have h₃ := h₂.trans h₃
  refine (hexpr r₃ (h₃.valid h)).bind fun e r₄ he => ?_
  have h₄ := h₃.trans he.consumes
  refine (target (h₄.valid h) hname place).bind fun p r₅ ⟨hrest, hvalid, hnames, hknown, hp⟩ => ?_
  rw [h₄.1] at hnames hknown hp
  refine (expect ';').bind fun _ r₆ h₆ => pure ?_
  refine ⟨⟨h₃.1 ▸ he.wellFormed, hknown, hp⟩, h₆.valid hvalid, h₆.1 ▸ hnames, he.depth, ?_⟩
  have := h₄.2
  have := h₆.2
  rw [hrest] at this
  simp only [Stmt.size]
  omega

/-- A statement is read if expressions and bodies are. -/
theorem statementWith (hexpr : ReadsExpr levels expr)
    (hbody : ReadsBody settings.strict levels block) :
    ReadsStmt settings.strict levels (Reader.statementWith settings expr block) := by
  intro r h
  refine ite (word "return") (fun r₁ h₁ => ?_) fun r₁ h₁ => ?_
  · exact (returnStatement hexpr (h₁.valid h)).mono fun st r' hst => hst r h₁
  refine ite (word "if") (fun r₂ h₂ => ?_) fun r₂ h₂ => ?_
  · have h₂ := h₁.trans h₂
    exact (ifStatement hexpr hbody (h₂.valid h)).mono fun st r' hst => hst r (h₂.weaken (by decide))
  have h₂ := h₁.trans h₂
  refine ite (word "while") (fun r₃ h₃ => ?_) fun r₃ h₃ => ?_
  · have h₃ := h₂.trans h₃
    exact (whileStatement hexpr hbody (h₃.valid h)).mono
      fun st r' hst => hst r (h₃.weaken (by decide))
  refine skipBlanks.bind fun _ r₄ h₄ => bind_get ?_
  refine ite (word "var") (fun r₅ _ => misplacedDeclaration _) fun r₅ h₅ => ?_
  have h₅ := ((h₂.trans h₃).trans h₄).trans h₅
  exact (plainStatement hexpr (h₅.valid h)).mono fun st r' hst => .of_consumes h₅ hst

theorem bodyOf (hst : ReadsStmt strict levels single) :
    ReadsBody strict (levels + 1) (Reader.bodyOf single) := by
  have hup : ∀ {b r r'}, Stmt.AllRead strict levels b r r' →
      Stmt.AllRead strict (levels + 1) b r r' ∧ Stmt.depthAll b < levels + 1 := fun hb =>
    ⟨{ hb with depth := Nat.le_succ_of_le hb.depth }, Nat.lt_succ_of_le hb.depth⟩
  intro r h
  refine ite (symbol '{') (fun r₁ h₁ => ?_) fun r₁ h₁ => ?_
  · refine (untilBrace hst (h₁.valid h)).mono fun b r' ⟨hb, _⟩ => hup ?_
    have := h₁.2
    have := hb.size
    exact ⟨h₁.1 ▸ hb.obey, hb.valid, h₁.1 ▸ hb.names, hb.depth, by omega⟩
  · refine (hst r₁ (h₁.valid h)).bind fun st r' hread => pure (hup ?_)
    exact .cons (.of_consumes h₁ hread) (.nil hread.valid (Consumes.refl r'))

/-- **What is read as a body is one, on the levels that are left.** -/
theorem body (settings : Settings) (levels : Nat) :
    ReadsBody settings.strict levels (Reader.body settings levels) := by
  induction levels with
  | zero => exact fun r _ => refuse fun _ h => by cases h
  | succ levels ih => exact bodyOf (statementWith (expression settings levels) ih)

theorem statement (settings : Settings) :
    ReadsStmt settings.strict settings.maxNesting (Reader.statement settings) :=
  statementWith (expression settings _) (body settings _)

end Post

end Reader

end StackScript
