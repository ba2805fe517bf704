import StackScript.Proofs.Script.WellFormed
import StackScript.Script.Reader

/-!
# The static rules

What a script has to obey beyond the form of its tree: names are valid, no function, parameter or
local is declared twice, every variable is declared before it is used, calls have the right number
of arguments, and expressions and bodies nest no deeper than allowed. In strict mode an assignment
needs a declared variable; otherwise an assignment outside all functions declares a global.

The rules follow the order of the text. `Names.introduce` says what a declaration brings into view,
and the `after` functions what is in view behind a part of a script. A script that obeys the rules
is well formed (`Script.Obeys.wellFormed`).
-/

namespace StackScript

namespace Names

/-- The names in view after the declaration of a variable: inside a function a new local, outside a
global, which may have been declared before. -/
def introduce (k : Names) (name : String) : Names :=
  match k.frame with
  | some vars => { k with frame := some (vars ++ [name]) }
  | none => if name ∈ k.globals then k else { k with globals := k.globals ++ [name] }

/-- The names in view after an assignment to a name. -/
def assigned (k : Names) (name : String) : Names :=
  if (k.place? name).isSome then k else k.introduce name

end Names

/-! ## Nesting -/

mutual

/-- How many levels an expression takes: one, and one for every parenthesis or argument inside each
other. -/
def Expr.depth : Expr → Nat
  | .literal _ | .var _ _ => 1
  | .group e => e.depth + 1
  | .call _ _ args => Expr.depthAll args + 1
  | .unary _ e => e.depth
  | .binary _ lhs rhs => max lhs.depth rhs.depth

/-- The levels of the deepest of some expressions. -/
def Expr.depthAll : List Expr → Nat
  | [] => 0
  | e :: rest => max e.depth (Expr.depthAll rest)

end

mutual

/-- How many levels a statement takes: those of its expressions, and one for every body. -/
def Stmt.depth : Stmt → Nat
  | .assign _ _ e => e.depth
  | .call _ _ args => Expr.depthAll args
  | .ret none => 0
  | .ret (some e) => e.depth
  | .ifThen test body => max test.depth (Stmt.depthAll body + 1)
  | .ifElse test body other =>
    max test.depth (max (Stmt.depthAll body) (Stmt.depthAll other) + 1)
  | .whileDo test body => max test.depth (Stmt.depthAll body + 1)

/-- The levels of the deepest of some statements. -/
def Stmt.depthAll : List Stmt → Nat
  | [] => 0
  | st :: rest => max st.depth (Stmt.depthAll rest)

end

/-- How many levels the initial value of a declaration takes. -/
def Decl.depth (d : Decl) : Nat := (d.init.map Expr.depth).getD 0

/-- The levels of the deepest of some declarations. -/
def Decl.depthAll : List Decl → Nat
  | [] => 0
  | d :: rest => max d.depth (Decl.depthAll rest)

/-- How many levels a function takes. -/
def FunctionDef.depth (f : FunctionDef) : Nat := max (Decl.depthAll f.decls) (Stmt.depthAll f.body)

/-- The levels of the deepest of some functions. -/
def FunctionDef.depthAll : List FunctionDef → Nat
  | [] => 0
  | f :: rest => max f.depth (FunctionDef.depthAll rest)

/-- How many levels a script takes. -/
def Script.depth (s : Script) : Nat :=
  max (max (Decl.depthAll s.decls) (FunctionDef.depthAll s.functions))
    (max (Decl.depthAll s.lateDecls) (Stmt.depthAll s.body))

/-! ## Names -/

section Rules

variable (strict : Bool) (valid : String → Prop)

mutual

/-- The names in view after a statement. -/
def Stmt.after (k : Names) : Stmt → Names
  | .assign name _ _ => k.assigned name
  | .call _ _ _ | .ret _ => k
  | .ifThen _ body | .whileDo _ body => Stmt.afterAll k body
  | .ifElse _ body other => Stmt.afterAll (Stmt.afterAll k body) other

/-- The names in view after statements. -/
def Stmt.afterAll (k : Names) : List Stmt → Names
  | [] => k
  | st :: rest => Stmt.afterAll (st.after k) rest

end

mutual

/-- A statement that obeys the rules where `k` are in view. -/
def Stmt.Obeys (k : Names) : Stmt → Prop
  | .assign name place e =>
    e.WellFormed k ∧
      ((k.place? name).isSome ∨ strict = false ∧ k.frame = none ∧ valid name) ∧
        (k.assigned name).place? name = some place
  | .call name callee args => (Expr.call name callee args).WellFormed k
  | .ret none => True
  | .ret (some e) => e.WellFormed k
  | .ifThen test body => test.WellFormed k ∧ Stmt.AllObey k body
  | .ifElse test body other =>
    test.WellFormed k ∧ Stmt.AllObey k body ∧ Stmt.AllObey (Stmt.afterAll k body) other
  | .whileDo test body => test.WellFormed k ∧ Stmt.AllObey k body

/-- Statements that obey the rules one after another. -/
def Stmt.AllObey (k : Names) : List Stmt → Prop
  | [] => True
  | st :: rest => st.Obeys k ∧ Stmt.AllObey (st.after k) rest

end

/-- The names in view after declarations. -/
def Decl.afterAll (k : Names) (decls : List Decl) : Names :=
  decls.foldl (fun k d => k.introduce d.name) k

/-- Declarations that obey the rules one after another. -/
def Decl.AllObey (k : Names) : List Decl → Prop
  | [] => True
  | d :: rest =>
    valid d.name ∧ d.name ∉ k.frameNames ∧ (k.introduce d.name).place? d.name = some d.place ∧
      (∀ e, d.init = some e → e.WellFormed (k.introduce d.name)) ∧
        Decl.AllObey (k.introduce d.name) rest

namespace FunctionDef

/-- A function that obeys the rules where `k` are in view outside. -/
structure Obeys (k : Names) (f : FunctionDef) : Prop where
  name : valid f.name
  new : f.name ∉ k.functions.map (·.name)
  params : ∀ param ∈ f.params, valid param
  distinct : f.params.Nodup
  decls : Decl.AllObey valid (f.names k) f.decls
  body : Stmt.AllObey strict valid (Decl.afterAll (f.names k) f.decls) f.body

/-- Functions that obey the rules one after another. -/
def AllObey (k : Names) : List FunctionDef → Prop
  | [] => True
  | f :: rest =>
    f.Obeys strict valid k ∧ AllObey { k with functions := k.functions ++ [f.signature] } rest

end FunctionDef

end Rules

namespace Script

/-- The names in view after the first declarations of a script. -/
def namesAfterDecls (s : Script) : Names := Decl.afterAll (.top [] []) s.decls

/-- The names in view after the functions of a script. -/
def namesAfterFunctions (s : Script) : Names :=
  { s.namesAfterDecls with functions := s.functions.map (·.signature) }

/-- The names in view after all declarations of a script. -/
def namesAfterLateDecls (s : Script) : Names := Decl.afterAll s.namesAfterFunctions s.lateDecls

/-- A script that obeys the static rules under some settings, with names that are valid. -/
structure Obeys (settings : Settings) (valid : String → Prop) (s : Script) : Prop where
  decls : Decl.AllObey valid (.top [] []) s.decls
  functions : FunctionDef.AllObey settings.strict valid s.namesAfterDecls s.functions
  lateDecls : Decl.AllObey valid s.namesAfterFunctions s.lateDecls
  body : Stmt.AllObey settings.strict valid s.namesAfterLateDecls s.body
  /-- Where there is no function, all declarations are first ones. -/
  noLateDecls : s.functions = [] → s.lateDecls = []
  globals : s.globals = (Stmt.afterAll s.namesAfterLateDecls s.body).globals
  nesting : s.depth ≤ settings.maxNesting

end Script

/-! ## Rules and form -/

namespace Names

/-- What is in view as `k` stays in view as `k'`, at the same places. -/
structure Extends (k k' : Names) : Prop where
  globals : k.globals <+: k'.globals
  functions : k.functions = k'.functions
  frame : k.frame = k'.frame

namespace Extends

variable {k k' k'' : Names} {name : String}

theorem refl (k : Names) : k.Extends k := ⟨List.prefix_refl _, rfl, rfl⟩

theorem trans (h : k.Extends k') (h' : k'.Extends k'') : k.Extends k'' :=
  ⟨h.globals.trans h'.globals, h.functions.trans h'.functions, h.frame.trans h'.frame⟩

theorem place? (h : k.Extends k') {place : Place} (hn : k.place? name = some place) :
    k'.place? name = some place := by
  have hvars : k'.frameNames = k.frameNames := by rw [frameNames, frameNames, h.frame]
  unfold Names.place? at hn ⊢
  rw [hvars]
  split at hn
  · exact hn
  · obtain ⟨slot, hslot, rfl⟩ := Option.map_eq_some_iff.mp hn
    obtain ⟨more, hmore⟩ := h.globals
    rw [← hmore, Option.map_eq_some_iff]
    refine ⟨slot, ?_, rfl⟩
    rw [List.idxOf?] at hslot ⊢
    rw [List.findIdx?_append, hslot, Option.some_or]

theorem function? (h : k.Extends k') (name : String) : k'.function? name = k.function? name := by
  rw [Names.function?, Names.function?, h.functions]

end Extends

/-- Inside a function a declaration adds to the frame. -/
theorem introduce_eq_declare {k : Names} (h : k.frame.isSome) (name : String) :
    k.introduce name = k.declare [name] := by
  obtain ⟨globals, functions, frame⟩ := k
  cases frame with
  | none => cases h
  | some vars => rfl

/-- Outside all functions a declaration adds at most a global. -/
theorem introduce_extends {k : Names} (h : k.frame = none) (name : String) :
    k.Extends (k.introduce name) := by
  obtain ⟨globals, functions, frame⟩ := k
  cases h
  show Extends _ (if name ∈ globals then _ else _)
  split
  · exact .refl _
  · exact ⟨List.prefix_append _ _, rfl, rfl⟩

theorem Extends.declare {k k' : Names} (h : k.Extends k') (names : List String) :
    (k.declare names).Extends (k'.declare names) :=
  ⟨h.globals, h.functions, by rw [Names.declare, Names.declare, h.frame]⟩

end Names

variable {strict : Bool} {valid : String → Prop} {k k' : Names}

mutual

/-- What is well formed stays so when more is in view. -/
theorem Expr.WellFormed.extend (h : k.Extends k') (e : Expr) (he : e.WellFormed k) :
    e.WellFormed k' := by
  match e with
  | .literal v => trivial
  | .var name place => exact h.place? he
  | .group e => exact Expr.WellFormed.extend h e he
  | .call name callee args =>
    exact ⟨(h.function? name).trans he.1, Expr.AllWellFormed.extend h args he.2⟩
  | .unary op e => exact ⟨he.1, he.2.1, Expr.WellFormed.extend h e he.2.2⟩
  | .binary op lhs rhs =>
    obtain ⟨hop, hlhs, hrhs, hl, hr⟩ := he
    exact ⟨hop, hlhs, hrhs, Expr.WellFormed.extend h lhs hl, Expr.WellFormed.extend h rhs hr⟩

theorem Expr.AllWellFormed.extend (h : k.Extends k') (es : List Expr)
    (he : Expr.AllWellFormed k es) : Expr.AllWellFormed k' es := by
  match es with
  | [] => trivial
  | e :: rest =>
    exact ⟨Expr.WellFormed.extend h e he.1, Expr.AllWellFormed.extend h rest he.2⟩

end

mutual

/-- A statement hides nothing that is in view before it. -/
theorem Stmt.Obeys.extends (st : Stmt) (k : Names) (h : st.Obeys strict valid k) :
    k.Extends (st.after k) := by
  match st with
  | .assign name place e =>
    obtain ⟨-, hname, -⟩ := h
    simp only [Stmt.after, Names.assigned]
    split
    · exact .refl k
    · rename_i hnone
      exact Names.introduce_extends (hname.resolve_left hnone).2.1 name
  | .call _ _ _ | .ret none | .ret (some _) => exact .refl k
  | .ifThen test body | .whileDo test body => exact Stmt.AllObey.extends body k h.2
  | .ifElse test body other =>
    exact (Stmt.AllObey.extends body k h.2.1).trans (Stmt.AllObey.extends other _ h.2.2)

theorem Stmt.AllObey.extends (body : List Stmt) (k : Names)
    (h : Stmt.AllObey strict valid k body) : k.Extends (Stmt.afterAll k body) := by
  match body with
  | [] => exact .refl k
  | st :: rest =>
    exact (Stmt.Obeys.extends st k h.1).trans (Stmt.AllObey.extends rest _ h.2)

end

mutual

/-- A statement that obeys the rules is well formed for all that is in view after it. -/
theorem Stmt.Obeys.wellFormed (st : Stmt) (k : Names) (h : st.Obeys strict valid k)
    (hk : (st.after k).Extends k') : st.WellFormed k' := by
  have hbefore := (Stmt.Obeys.extends st k h).trans hk
  match st with
  | .assign name place e => exact ⟨hk.place? h.2.2, Expr.WellFormed.extend hbefore e h.1⟩
  | .call name callee args => exact Expr.WellFormed.extend hbefore (.call name callee args) h
  | .ret none => trivial
  | .ret (some e) => exact Expr.WellFormed.extend hbefore e h
  | .ifThen test body | .whileDo test body =>
    exact ⟨Expr.WellFormed.extend hbefore test h.1, Stmt.AllObey.wellFormed body k h.2 hk⟩
  | .ifElse test body other =>
    have hother := (Stmt.AllObey.extends other _ h.2.2).trans hk
    exact ⟨Expr.WellFormed.extend hbefore test h.1, Stmt.AllObey.wellFormed body k h.2.1 hother,
      Stmt.AllObey.wellFormed other _ h.2.2 hk⟩

theorem Stmt.AllObey.wellFormed (body : List Stmt) (k : Names)
    (h : Stmt.AllObey strict valid k body) (hk : (Stmt.afterAll k body).Extends k') :
    Stmt.AllWellFormed k' body := by
  match body with
  | [] => trivial
  | st :: rest =>
    have hrest := (Stmt.AllObey.extends rest _ h.2).trans hk
    exact ⟨Stmt.Obeys.wellFormed st k h.1 hrest, Stmt.AllObey.wellFormed rest _ h.2 hk⟩

end

mutual

/-- Inside a function a statement declares nothing. -/
theorem Stmt.Obeys.after_eq (hk : k.frame.isSome) (st : Stmt) (h : st.Obeys strict valid k) :
    st.after k = k := by
  match st with
  | .assign name place e =>
    refine if_pos (h.2.1.resolve_right fun ⟨_, hframe, _⟩ => ?_)
    rw [hframe] at hk
    cases hk
  | .call _ _ _ | .ret none | .ret (some _) => rfl
  | .ifThen test body | .whileDo test body => exact Stmt.AllObey.afterAll_eq hk body h.2
  | .ifElse test body other =>
    have hbody := Stmt.AllObey.afterAll_eq hk body h.2.1
    have hother := h.2.2
    rw [hbody] at hother
    rw [Stmt.after, hbody]
    exact Stmt.AllObey.afterAll_eq hk other hother

theorem Stmt.AllObey.afterAll_eq (hk : k.frame.isSome) (body : List Stmt)
    (h : Stmt.AllObey strict valid k body) : Stmt.afterAll k body = k := by
  match body with
  | [] => rfl
  | st :: rest =>
    have hst := Stmt.Obeys.after_eq hk st h.1
    have hrest := h.2
    rw [hst] at hrest
    rw [Stmt.afterAll, hst]
    exact Stmt.AllObey.afterAll_eq hk rest hrest

end

/-- Outside all functions declarations hide nothing. -/
theorem Decl.afterAll_extends (hk : k.frame = none) (decls : List Decl) :
    k.Extends (Decl.afterAll k decls) := by
  induction decls generalizing k with
  | nil => exact .refl k
  | cons d rest ih =>
    have hext := Names.introduce_extends hk d.name
    exact hext.trans (ih (hext.frame ▸ hk))

/-- The declarations of globals are well formed for all that is in view after them. -/
theorem Decl.AllObey.wellFormed_top (hk : k.frame = none) (decls : List Decl)
    (h : Decl.AllObey valid k decls) (hafter : (Decl.afterAll k decls).Extends k') :
    Decl.AllWellFormed k' decls := by
  induction decls generalizing k with
  | nil => trivial
  | cons d rest ih =>
    obtain ⟨-, -, hplace, hinit, hrest⟩ := h
    have hframe : (k.introduce d.name).frame = none :=
      (Names.introduce_extends hk d.name).frame ▸ hk
    have hext : (k.introduce d.name).Extends k' :=
      (Decl.afterAll_extends hframe rest).trans hafter
    have hsame : k'.declare [d.name] = k' := Names.declare_eq_self (hext.frame ▸ hframe) _
    refine ⟨?_, ?_, ?_⟩
    · rw [hsame]
      exact hext.place? hplace
    · rw [hsame]
      exact fun e he => Expr.WellFormed.extend hext e (hinit e he)
    · rw [hsame]
      exact ih hframe hrest hafter

/-- The declarations of locals are well formed wherever the same names are in view before them. -/
theorem Decl.AllObey.wellFormed_frame (decls : List Decl) (k k' : Names) (hk : k.frame.isSome)
    (h : Decl.AllObey valid k decls) (hext : k.Extends k') :
    Decl.AllWellFormed k' decls ∧
      (Decl.afterAll k decls).Extends (k'.declare (decls.map (·.name))) := by
  induction decls generalizing k k' with
  | nil =>
    rw [List.map_nil, Names.declare_nil]
    exact ⟨trivial, hext⟩
  | cons d rest ih =>
    obtain ⟨-, -, hplace, hinit, hrest⟩ := h
    have hintro := Names.introduce_eq_declare hk d.name
    rw [hintro] at hplace hinit hrest
    have hext' := hext.declare [d.name]
    obtain ⟨hwf, hafter⟩ := ih _ _ (Names.frame_declare hk _) hrest hext'
    refine ⟨⟨hext'.place? hplace, fun e he => Expr.WellFormed.extend hext' e (hinit e he), hwf⟩, ?_⟩
    rw [Names.declare_declare] at hafter
    simpa [Decl.afterAll, hintro] using hafter

namespace FunctionDef

/-- A function that obeys the rules is well formed wherever the same names are in view. -/
theorem Obeys.wellFormed {f : FunctionDef} (h : f.Obeys strict valid k) (hext : k.Extends k') :
    f.WellFormed k' := by
  have hnames : (f.names k).Extends (f.names k') :=
    ⟨hext.globals, by simp [names, hext.functions], rfl⟩
  obtain ⟨hdecls, hafter⟩ := Decl.AllObey.wellFormed_frame f.decls _ _ rfl h.decls hnames
  have hframe : (Decl.afterAll (f.names k) f.decls).frame.isSome := hafter.frame ▸ rfl
  refine ⟨hdecls, Stmt.AllObey.wellFormed f.body _ h.body ?_⟩
  rwa [Stmt.AllObey.afterAll_eq hframe f.body h.body]

/-- Functions that obey the rules are well formed. -/
theorem AllObey.wellFormed (fs : List FunctionDef) (k k' : Names)
    (h : AllObey strict valid k fs) (hext : k.Extends k') : AllWellFormed k' fs := by
  induction fs generalizing k k' with
  | nil => trivial
  | cons f rest ih =>
    refine ⟨h.1.wellFormed hext, ih _ _ h.2 ⟨hext.globals, ?_, hext.frame⟩⟩
    simp [hext.functions]

end FunctionDef

/-- **A script that obeys the static rules is well formed.** -/
theorem Script.Obeys.wellFormed {settings : Settings} {s : Script} (h : s.Obeys settings valid) :
    s.WellFormed := by
  have hdecls : (Names.top [] []).Extends s.namesAfterDecls := Decl.afterAll_extends rfl s.decls
  have hframe : s.namesAfterFunctions.frame = none := hdecls.frame.symm
  have hlate : s.namesAfterFunctions.Extends s.namesAfterLateDecls :=
    Decl.afterAll_extends hframe s.lateDecls
  have hbody := Stmt.AllObey.extends s.body s.namesAfterLateDecls h.body
  have hall := hlate.trans hbody
  -- all names of the script are in view behind its last statement
  have hend : (Stmt.afterAll s.namesAfterLateDecls s.body).Extends
      (.top s.globals (s.functions.map (·.signature))) :=
    ⟨h.globals ▸ List.prefix_refl _, hall.functions.symm, hall.frame.symm.trans hframe⟩
  have hglobals : s.namesAfterDecls.globals <+: s.globals := (hall.trans hend).globals
  have hfirst : s.namesAfterDecls.Extends (.top s.globals []) :=
    ⟨hglobals, hdecls.functions.symm, hdecls.frame.symm⟩
  exact ⟨Decl.AllObey.wellFormed_top rfl s.decls h.decls hfirst,
    FunctionDef.AllObey.wellFormed s.functions _ _ h.functions hfirst,
    Decl.AllObey.wellFormed_top hframe s.lateDecls h.lateDecls (hbody.trans hend),
    Stmt.AllObey.wellFormed s.body _ h.body hend⟩

end StackScript
