import StackScript.Proofs.Script.Shapes

/-!
# What generated code consists of

Code that is generated for a site keeps to the site: its returns carry the counts of the function it
belongs to, it names only variables of that function's frame, and its jumps stay between its first
index and the one behind it (`Instr.Belongs`). Room for a local is made by the declarations of a
function only, once for each (`Decl.count_listCode`), so before anything jumps
(`FunctionDef.rooms_first`).
-/

namespace StackScript

/-- An instruction that keeps to a site, makes no room for a local and jumps only between two
indices. -/
def Instr.Belongs (site : Site) (low high : Nat) : Instr → Prop
  | .getLocal offset | .setLocal offset => site.body.Owns site.locals offset
  | .ret params locals => params = site.params ∧ locals = site.locals
  | .jump target | .jumpIfFalse target => low ≤ target ∧ target ≤ high
  | .declareLocal => False
  | _ => True

namespace Instr

variable {site : Site} {low high low' high' : Nat} {i : Instr}

theorem Belongs.widen (h : i.Belongs site low high) (hlow : low' ≤ low) (hhigh : high ≤ high') :
    i.Belongs site low' high' := by
  cases i with
  | jump target | jumpIfFalse target =>
    exact ⟨Nat.le_trans hlow h.1, Nat.le_trans h.2 hhigh⟩
  | _ => exact h

theorem Belongs.jumpTarget? {target : Nat} (h : i.Belongs site low high)
    (ht : i.jumpTarget? = some target) : low ≤ target ∧ target ≤ high := by
  cases i with
  | jump t | jumpIfFalse t =>
    cases ht
    exact h
  | _ => cases ht

/-- What belongs wherever jumps may lead does not jump. -/
theorem jumpTarget?_eq_none (h : ∀ low high, i.Belongs site low high) : i.jumpTarget? = none := by
  cases ht : i.jumpTarget? with
  | none => rfl
  | some target =>
    have hempty := (h 1 0).jumpTarget? ht
    omega

end Instr

/-! ## Expressions -/

section Expressions

variable {k : Names} {site : Site} {low high : Nat}

/-- A variable of a frame has an offset in it. -/
theorem Site.owns_offset {ordinal : Nat} (h : ordinal < site.params + site.locals) :
    site.body.Owns site.locals (site.offset ordinal) := by
  simp only [Site.body, Body.Owns, Site.offset, Frame.offset, decide_eq_true_eq]
  split <;> omega

section Places

variable {name : String} {place : Place} (hframe : k.frameNames.length ≤ site.params + site.locals)
  (h : k.place? name = some place)

include hframe h

theorem Place.load_belongs : (place.load site).Belongs site low high := by
  cases place with
  | global slot => trivial
  | frame i => exact Site.owns_offset (Nat.lt_of_lt_of_le (Names.frame_lt_of_place? h) hframe)

theorem Place.store_belongs : (place.store site).Belongs site low high := by
  cases place with
  | global slot => trivial
  | frame i => exact Site.owns_offset (Nat.lt_of_lt_of_le (Names.frame_lt_of_place? h) hframe)

end Places

mutual

/-- The code of an expression belongs to its site, and jumps nowhere. -/
theorem Expr.code_belongs (hframe : k.frameNames.length ≤ site.params + site.locals) (e : Expr)
    (he : e.WellFormed k) : ∀ i ∈ e.code site, i.Belongs site low high := by
  match e with
  | .literal v => simp [Expr.code, Instr.Belongs]
  | .var name place =>
    simp only [Expr.code, List.forall_mem_singleton]
    exact Place.load_belongs hframe he
  | .group e =>
    have hinner := Expr.code_belongs hframe e he
    exact List.forall_mem_cons.mpr ⟨trivial, List.forall_mem_append.mpr
      ⟨hinner, List.forall_mem_singleton.mpr trivial⟩⟩
  | .call name callee args =>
    have hargs := Expr.argsCode_belongs hframe args he.2
    exact List.forall_mem_cons.mpr ⟨trivial, List.forall_mem_append.mpr
      ⟨hargs, List.forall_mem_singleton.mpr trivial⟩⟩
  | .unary op e =>
    have hinner := Expr.code_belongs hframe e he.2.2
    exact List.forall_mem_cons.mpr ⟨trivial, hinner⟩
  | .binary op lhs rhs =>
    obtain ⟨-, -, -, hl, hr⟩ := he
    have hlhs := Expr.code_belongs hframe lhs hl
    have hrhs := Expr.code_belongs hframe rhs hr
    exact List.forall_mem_append.mpr ⟨hlhs, List.forall_mem_cons.mpr ⟨trivial, hrhs⟩⟩

theorem Expr.argsCode_belongs (hframe : k.frameNames.length ≤ site.params + site.locals)
    (args : List Expr) (he : Expr.AllWellFormed k args) :
    ∀ i ∈ Expr.argsCode site args, i.Belongs site low high := by
  match args with
  | [] => simp [Expr.argsCode]
  | e :: rest =>
    have hfirst := Expr.code_belongs hframe e he.1
    have hrest := Expr.argsCode_belongs hframe rest he.2
    exact List.forall_mem_append.mpr ⟨hfirst, List.forall_mem_cons.mpr ⟨trivial, hrest⟩⟩

end

theorem Expr.closedCode_belongs (hframe : k.frameNames.length ≤ site.params + site.locals)
    {e : Expr} (he : e.WellFormed k) : ∀ i ∈ e.closedCode site, i.Belongs site low high :=
  List.forall_mem_append.mpr ⟨Expr.code_belongs hframe e he, List.forall_mem_singleton.mpr trivial⟩

end Expressions

/-! ## Statements -/

section Statements

variable {k : Names} {site : Site}

mutual

/-- The code of a statement belongs to its site, and jumps no further than behind itself. -/
theorem Stmt.code_belongs (hframe : k.frameNames.length ≤ site.params + site.locals) (start : Nat)
    (st : Stmt) (hst : st.WellFormed k) :
    ∀ i ∈ st.code site start, i.Belongs site start (start + (st.code site start).length) := by
  match st with
  | .assign name place e =>
    exact List.forall_mem_append.mpr ⟨Expr.closedCode_belongs hframe hst.2,
      List.forall_mem_singleton.mpr (Place.store_belongs hframe hst.1)⟩
  | .call name callee args =>
    exact List.forall_mem_append.mpr ⟨Expr.code_belongs hframe (.call name callee args) hst,
      List.forall_mem_singleton.mpr trivial⟩
  | .ret none => simp [Stmt.code, Instr.Belongs]
  | .ret (some e) =>
    exact List.forall_mem_append.mpr ⟨Expr.closedCode_belongs hframe hst,
      List.forall_mem_singleton.mpr ⟨rfl, rfl⟩⟩
  | .ifThen test body =>
    have hbody := Stmt.blockCode_belongs hframe (start + (test.closedCode site).length + 1) body hst.2
    simp only [Stmt.code, List.length_append, List.length_cons]
    refine List.forall_mem_append.mpr ⟨Expr.closedCode_belongs hframe hst.1,
      List.forall_mem_cons.mpr ⟨⟨?_, ?_⟩, fun i hi => (hbody i hi).widen ?_ ?_⟩⟩
    all_goals omega
  | .ifElse test body other =>
    obtain ⟨htest, hb, ho⟩ := hst
    have hbody := Stmt.blockCode_belongs hframe (start + (test.closedCode site).length + 1) body hb
    have hother := Stmt.blockCode_belongs hframe (start + (test.closedCode site).length + 1 +
      (Stmt.blockCode site (start + (test.closedCode site).length + 1) body).length + 1) other ho
    simp only [Stmt.code, List.length_append, List.length_cons]
    refine List.forall_mem_append.mpr ⟨Expr.closedCode_belongs hframe htest,
      List.forall_mem_cons.mpr ⟨⟨?_, ?_⟩, List.forall_mem_append.mpr
        ⟨fun i hi => (hbody i hi).widen ?_ ?_,
          List.forall_mem_cons.mpr ⟨⟨?_, ?_⟩, fun i hi => (hother i hi).widen ?_ ?_⟩⟩⟩⟩
    all_goals omega
  | .whileDo test body =>
    have hbody := Stmt.blockCode_belongs hframe (start + (test.closedCode site).length + 1) body hst.2
    simp only [Stmt.code, List.length_append, List.length_cons, List.length_nil]
    refine List.forall_mem_append.mpr ⟨Expr.closedCode_belongs hframe hst.1,
      List.forall_mem_cons.mpr ⟨⟨?_, ?_⟩, List.forall_mem_append.mpr
        ⟨fun i hi => (hbody i hi).widen ?_ ?_, List.forall_mem_singleton.mpr ⟨?_, ?_⟩⟩⟩⟩
    all_goals omega

theorem Stmt.blockCode_belongs (hframe : k.frameNames.length ≤ site.params + site.locals)
    (start : Nat) (body : List Stmt) (hbody : Stmt.AllWellFormed k body) :
    ∀ i ∈ Stmt.blockCode site start body,
      i.Belongs site start (start + (Stmt.blockCode site start body).length) := by
  match body with
  | [] => simp [Stmt.blockCode]
  | st :: rest =>
    have hst := Stmt.code_belongs hframe start st hbody.1
    have hrest := Stmt.blockCode_belongs hframe (start + (st.code site start).length) rest hbody.2
    simp only [Stmt.blockCode, List.length_append]
    refine List.forall_mem_append.mpr ⟨fun i hi => (hst i hi).widen ?_ ?_,
      fun i hi => (hrest i hi).widen ?_ ?_⟩
    all_goals omega

end

theorem Site.defaultReturn_belongs {low high : Nat} :
    ∀ i ∈ site.defaultReturn, i.Belongs site low high := by
  simp [Site.defaultReturn, Instr.Belongs]

end Statements

/-! ## Declarations -/

section Declarations

variable {k : Names} {site : Site} {low high : Nat}

theorem Decl.initCode_belongs {d : Decl} (hframe : k.frameNames.length ≤ site.params + site.locals)
    (hplace : k.place? d.name = some d.place) (hinit : ∀ e, d.init = some e → e.WellFormed k) :
    ∀ i ∈ d.initCode site, i.Belongs site low high := by
  unfold Decl.initCode
  cases he : d.init with
  | none => simp
  | some e =>
    exact List.forall_mem_append.mpr ⟨Expr.closedCode_belongs hframe (hinit e he),
      List.forall_mem_singleton.mpr (Place.store_belongs hframe hplace)⟩

/-- Outside all functions declarations make no room. -/
theorem Decl.listCode_belongs (hk : k.frame = none) (decls : List Decl)
    (hd : Decl.AllWellFormed k decls) :
    ∀ i ∈ Decl.listCode site decls, i.Belongs site low high := by
  have hsame (name : String) : k.declare [name] = k := Names.declare_eq_self hk [name]
  have hframe : k.frameNames.length ≤ site.params + site.locals := by
    simp [Names.frameNames, hk]
  induction decls with
  | nil => simp [Decl.listCode]
  | cons d rest ih =>
    obtain ⟨hplace, hinit, hrest⟩ := hd
    rw [hsame] at hplace hinit hrest
    obtain ⟨slot, hslot⟩ := Names.global_of_place? hk hplace
    have hroom : d.place.room = [] := by rw [hslot, Place.room]
    simp only [Decl.listCode, List.flatMap_cons, Decl.code, hroom, List.nil_append]
    exact List.forall_mem_append.mpr ⟨Decl.initCode_belongs hframe hplace hinit, ih hrest⟩

/-- Inside a function every declaration makes room for one local and does nothing else that does not
belong to the function. -/
theorem Decl.count_listCode (hk : k.frame.isSome) (decls : List Decl)
    (hd : Decl.AllWellFormed k decls)
    (hframe : k.frameNames.length + decls.length ≤ site.params + site.locals) :
    (Decl.listCode site decls).count .declareLocal = decls.length ∧
      ∀ low high, ∀ i ∈ Decl.listCode site decls, i = .declareLocal ∨ i.Belongs site low high := by
  induction decls generalizing k with
  | nil => simp [Decl.listCode]
  | cons d rest ih =>
    obtain ⟨hplace, hinit, hrest⟩ := hd
    have hnames : (k.declare [d.name]).frameNames.length = k.frameNames.length + 1 := by
      simp [Names.frameNames_declare hk]
    rw [List.length_cons] at hframe ⊢
    obtain ⟨hcount, hmore⟩ := ih (Names.frame_declare hk _) hrest (by omega)
    obtain ⟨ordinal, hordinal⟩ := Names.frame_of_place?_declare hk hplace
    have hroom : d.place.room = [.declareLocal] := by rw [hordinal, Place.room]
    have hcode (low high : Nat) : ∀ i ∈ d.initCode site, i.Belongs site low high :=
      Decl.initCode_belongs (by omega) hplace hinit
    have hnone : (d.initCode site).count .declareLocal = 0 :=
      List.count_eq_zero.mpr fun hmem => hcode 0 0 _ hmem
    simp only [Decl.listCode, List.flatMap_cons, Decl.code, hroom] at hcount hmore ⊢
    constructor
    · rw [List.count_append, List.count_append, hnone, hcount, List.count_singleton_self]
      omega
    · intro low high
      refine List.forall_mem_append.mpr ⟨List.forall_mem_append.mpr ⟨?_, ?_⟩, hmore low high⟩
      · exact List.forall_mem_singleton.mpr (.inl rfl)
      · exact fun i hi => .inr (hcode low high i hi)

end Declarations

/-! ## Functions -/

namespace FunctionDef

variable {k : Names} {f : FunctionDef} {entries : List Nat}

/-- The code behind the declarations of a function. -/
def afterDecls (f : FunctionDef) (entries : List Nat) (start : Nat) : List Instr :=
  let s := f.site entries
  Stmt.blockCode s (start + (Decl.listCode s f.decls).length) f.body ++ s.defaultReturn

theorem code_eq (f : FunctionDef) (entries : List Nat) (start : Nat) :
    f.code entries start = Decl.listCode (f.site entries) f.decls ++ f.afterDecls entries start :=
  List.append_assoc ..

variable (h : f.WellFormed k) (start : Nat)

include h

theorem decls_content :
    (Decl.listCode (f.site entries) f.decls).count .declareLocal = f.decls.length ∧
      ∀ low high, ∀ i ∈ Decl.listCode (f.site entries) f.decls,
        i = .declareLocal ∨ i.Belongs (f.site entries) low high :=
  Decl.count_listCode (k := f.names k) rfl f.decls h.1 (Nat.le_refl _)

/-- Behind its declarations the code of a function belongs to it, and jumps stay inside. -/
theorem afterDecls_belongs :
    ∀ i ∈ f.afterDecls entries start,
      i.Belongs (f.site entries) start (start + (f.code entries start).length - 1) := by
  have hframe : ((f.names k).declare (f.decls.map (·.name))).frameNames.length ≤
      (f.site entries).params + (f.site entries).locals := by
    rw [Names.frameNames_declare rfl, List.length_append, List.length_map]
    exact Nat.le_refl _
  have hblock := Stmt.blockCode_belongs hframe
    (start + (Decl.listCode (f.site entries) f.decls).length) f.body h.2
  refine List.forall_mem_append.mpr ⟨fun i hi => (hblock i hi).widen ?_ ?_,
    Site.defaultReturn_belongs⟩
  · omega
  · simp only [code, Site.defaultReturn, List.length_append, List.length_cons]
    omega

/-- Every instruction of a function makes room for a local or belongs to the function. -/
theorem code_belongs :
    ∀ i ∈ f.code entries start, i = .declareLocal ∨
      i.Belongs (f.site entries) start (start + (f.code entries start).length - 1) := by
  intro i hi
  rw [code_eq] at hi
  rcases List.mem_append.mp hi with hi | hi
  · exact (decls_content h).2 _ _ i hi
  · exact .inr (afterDecls_belongs h start i hi)

theorem count_code : (f.code entries start).count .declareLocal = f.decls.length := by
  have hnone : (f.afterDecls entries start).count .declareLocal = 0 :=
    List.count_eq_zero.mpr fun hmem => afterDecls_belongs h start _ hmem
  rw [code_eq, List.count_append, (decls_content h).1, hnone, Nat.add_zero]

/-- **A function makes room for its locals before it jumps.** -/
theorem rooms_first {i j target : Nat} {instr : Instr}
    (hi : (f.code entries start)[i]? = some .declareLocal)
    (hj : (f.code entries start)[j]? = some instr) (ht : instr.jumpTarget? = some target) : i < j := by
  rw [code_eq, List.getElem?_append] at hi hj
  -- room is made in the declarations, and jumps stand behind them
  have hroom : i < (Decl.listCode (f.site entries) f.decls).length := by
    by_cases hlt : i < (Decl.listCode (f.site entries) f.decls).length
    · exact hlt
    · rw [if_neg hlt] at hi
      exact (afterDecls_belongs h start _ (List.mem_of_getElem? hi)).elim
  have hjump : ¬ j < (Decl.listCode (f.site entries) f.decls).length := by
    intro hlt
    rw [if_pos hlt] at hj
    rcases (decls_content h).2 1 0 instr (List.mem_of_getElem? hj) with rfl | hbelongs
    · cases ht
    · have hempty := hbelongs.jumpTarget? ht
      omega
  omega

end FunctionDef

end StackScript
