import StackScript.Program.Check
import StackScript.Proofs.Script.WellFormed

/-!
# Generated programs pass the check

In the code of a well-formed script every jump leads to an index inside the code or just behind it,
every call to the entry of a function in view and every global access to a slot of a global
(`Instr.Within`). Behind all code of a script stands a return, so its program passes the check
(`Script.check_program`), and so does the program of an expression (`Expr.check_program`).
-/

namespace StackScript

/-- An instruction jumps no further than `limit`, calls one of `entries` and uses one of `slots`
globals. -/
def Instr.Within (limit : Nat) (entries : List Nat) (slots : Nat) : Instr → Prop
  | .jump target | .jumpIfFalse target => target ≤ limit
  | .call target => target ∈ entries
  | .getGlobal slot | .setGlobal slot => slot < slots
  | _ => True

/-- All instructions of a piece of code are within the same bounds. -/
def CodeWithin (limit : Nat) (entries : List Nat) (slots : Nat) (code : List Instr) : Prop :=
  ∀ i ∈ code, i.Within limit entries slots

namespace CodeWithin

variable {limit limit' slots : Nat} {entries entries' : List Nat} {i : Instr}
  {c₁ c₂ : List Instr}

theorem nil : CodeWithin limit entries slots [] := fun _ h => (List.not_mem_nil h).elim

theorem cons (hi : i.Within limit entries slots) (h : CodeWithin limit entries slots c₁) :
    CodeWithin limit entries slots (i :: c₁) :=
  List.forall_mem_cons.mpr ⟨hi, h⟩

theorem append (h₁ : CodeWithin limit entries slots c₁) (h₂ : CodeWithin limit entries slots c₂) :
    CodeWithin limit entries slots (c₁ ++ c₂) := by
  intro i hi
  rcases List.mem_append.mp hi with hi | hi
  · exact h₁ i hi
  · exact h₂ i hi

theorem mono (h : CodeWithin limit entries slots c₁) (hlimit : limit ≤ limit')
    (hentries : entries ⊆ entries') : CodeWithin limit' entries' slots c₁ := by
  intro i hi
  have hin := h i hi
  cases i with
  | jump target | jumpIfFalse target => exact Nat.le_trans hin hlimit
  | call target => exact hentries hin
  | _ => exact hin

theorem raise (h : CodeWithin limit entries slots c₁) (hlimit : limit ≤ limit') :
    CodeWithin limit' entries slots c₁ := h.mono hlimit (List.Subset.refl _)

end CodeWithin

namespace Names

variable {k : Names} {name : String}

theorem slot_lt_of_place? {slot : Nat} (h : k.place? name = some (.global slot)) :
    slot < k.globals.length := by
  unfold place? at h
  split at h
  · cases h
  · obtain ⟨i, hi, he⟩ := Option.map_eq_some_iff.mp h
    cases he
    exact (List.idxOf?_eq_some_iff.mp hi).1

theorem callee_lt_of_function? {callee arity : Nat} (h : k.function? name = some (callee, arity)) :
    callee < k.functions.length := by
  obtain ⟨i, hi, hsome⟩ := Option.bind_eq_some_iff.mp h
  obtain ⟨f, hf, he⟩ := Option.map_eq_some_iff.mp hsome
  cases he
  exact (List.getElem?_eq_some_iff.mp hf).1

end Names

section Within

variable {k : Names} {site : Site} {limit slots : Nat}

theorem Place.load_within {name : String} {place : Place} (hg : k.globals.length ≤ slots)
    (h : k.place? name = some place) : (place.load site).Within limit site.entries slots := by
  cases place with
  | global slot => exact Nat.lt_of_lt_of_le (Names.slot_lt_of_place? h) hg
  | frame i => trivial

theorem Place.store_within {name : String} {place : Place} (hg : k.globals.length ≤ slots)
    (h : k.place? name = some place) : (place.store site).Within limit site.entries slots := by
  cases place with
  | global slot => exact Nat.lt_of_lt_of_le (Names.slot_lt_of_place? h) hg
  | frame i => trivial

theorem Site.entry_mem {callee : Nat} (h : callee < site.entries.length) :
    site.entry callee ∈ site.entries := by
  simp [Site.entry, h]

mutual

/-- The code of an expression jumps nowhere and uses only what is in view. -/
theorem Expr.code_within (hf : k.functions.length ≤ site.entries.length)
    (hg : k.globals.length ≤ slots) (e : Expr) (he : e.WellFormed k) :
    CodeWithin limit site.entries slots (e.code site) := by
  match e with
  | .literal v => exact .cons trivial .nil
  | .var name place => exact .cons (Place.load_within hg he) .nil
  | .group e => exact .cons trivial ((Expr.code_within hf hg e he).append (.cons trivial .nil))
  | .call name callee args =>
    have hcallee := Nat.lt_of_lt_of_le (Names.callee_lt_of_function? he.1) hf
    exact .cons trivial ((Expr.argsCode_within hf hg args he.2).append
      (.cons (Site.entry_mem hcallee) .nil))
  | .unary op e => exact .cons trivial (Expr.code_within hf hg e he.2.2)
  | .binary op lhs rhs =>
    obtain ⟨-, -, -, hl, hr⟩ := he
    exact (Expr.code_within hf hg lhs hl).append (.cons trivial (Expr.code_within hf hg rhs hr))

theorem Expr.argsCode_within (hf : k.functions.length ≤ site.entries.length)
    (hg : k.globals.length ≤ slots) (args : List Expr) (he : Expr.AllWellFormed k args) :
    CodeWithin limit site.entries slots (Expr.argsCode site args) := by
  match args with
  | [] => exact .nil
  | e :: rest =>
    exact (Expr.code_within hf hg e he.1).append
      (.cons trivial (Expr.argsCode_within hf hg rest he.2))

end

theorem Expr.closedCode_within (hf : k.functions.length ≤ site.entries.length)
    (hg : k.globals.length ≤ slots) {e : Expr} (he : e.WellFormed k) :
    CodeWithin limit site.entries slots (e.closedCode site) :=
  (Expr.code_within hf hg e he).append (.cons trivial .nil)

mutual

/-- The code of a statement jumps no further than to the index behind it. -/
theorem Stmt.code_within (hf : k.functions.length ≤ site.entries.length)
    (hg : k.globals.length ≤ slots) (start : Nat) (st : Stmt) (hst : st.WellFormed k) :
    CodeWithin (start + (st.code site start).length) site.entries slots (st.code site start) := by
  match st with
  | .assign name place e =>
    exact (Expr.closedCode_within hf hg hst.2).append (.cons (Place.store_within hg hst.1) .nil)
  | .call name callee args =>
    exact (Expr.code_within hf hg (.call name callee args) hst).append (.cons trivial .nil)
  | .ret none => exact .cons trivial (.cons trivial .nil)
  | .ret (some e) => exact (Expr.closedCode_within hf hg hst).append (.cons trivial .nil)
  | .ifThen test body =>
    have hbody := Stmt.blockCode_within hf hg (start + (test.closedCode site).length + 1) body hst.2
    refine (Expr.closedCode_within hf hg hst.1).append (.cons ?_ (hbody.raise ?_)) <;>
      simp [Instr.Within, Stmt.code] <;> omega
  | .ifElse test body other =>
    obtain ⟨htest, hb, ho⟩ := hst
    have hbody := Stmt.blockCode_within hf hg (start + (test.closedCode site).length + 1) body hb
    have hother := Stmt.blockCode_within hf hg (start + (test.closedCode site).length + 1 +
      (Stmt.blockCode site (start + (test.closedCode site).length + 1) body).length + 1) other ho
    refine (Expr.closedCode_within hf hg htest).append (.cons ?_ ((hbody.raise ?_).append
      (.cons ?_ (hother.raise ?_)))) <;> simp [Instr.Within, Stmt.code] <;> omega
  | .whileDo test body =>
    have hbody := Stmt.blockCode_within hf hg (start + (test.closedCode site).length + 1) body hst.2
    refine (Expr.closedCode_within hf hg hst.1).append (.cons ?_ ((hbody.raise ?_).append
      (.cons ?_ .nil))) <;> simp [Instr.Within, Stmt.code] <;> omega

theorem Stmt.blockCode_within (hf : k.functions.length ≤ site.entries.length)
    (hg : k.globals.length ≤ slots) (start : Nat) (body : List Stmt)
    (hbody : Stmt.AllWellFormed k body) :
    CodeWithin (start + (Stmt.blockCode site start body).length) site.entries slots
      (Stmt.blockCode site start body) := by
  match body with
  | [] => exact .nil
  | st :: rest =>
    have hrest := Stmt.blockCode_within hf hg (start + (st.code site start).length) rest hbody.2
    rw [Stmt.blockCode, List.length_append]
    exact ((Stmt.code_within hf hg start st hbody.1).raise (by omega)).append
      (hrest.raise (by omega))

end

/-- The code of declarations jumps nowhere and uses only what is in view. -/
theorem Decl.listCode_within (hf : k.functions.length ≤ site.entries.length)
    (hg : k.globals.length ≤ slots) (decls : List Decl) (hd : Decl.AllWellFormed k decls) :
    CodeWithin limit site.entries slots (Decl.listCode site decls) := by
  induction decls generalizing k with
  | nil => exact .nil
  | cons d rest ih =>
    obtain ⟨hplace, hinit, hrest⟩ := hd
    have hroom : CodeWithin limit site.entries slots d.place.room := by
      cases d.place with
      | global slot => exact .nil
      | frame i => exact .cons trivial .nil
    have hinit : CodeWithin limit site.entries slots (d.initCode site) := by
      unfold Decl.initCode
      cases he : d.init with
      | none => exact .nil
      | some e =>
        have hwf := hinit e he
        exact (Expr.closedCode_within (k := k.declare [d.name]) hf hg hwf).append
          (.cons (Place.store_within (k := k.declare [d.name]) hg hplace) .nil)
    exact (hroom.append hinit).append (ih (k := k.declare [d.name]) hf hg hrest)

theorem Site.defaultReturn_within : CodeWithin limit site.entries slots site.defaultReturn :=
  .cons trivial (.cons trivial (.cons trivial .nil))

end Within

/-! ## Functions -/

namespace FunctionDef

variable {k : Names} {slots : Nat}

/-- The code of a function jumps no further than to the index behind it. -/
theorem code_within {f : FunctionDef} {entries : List Nat} (start : Nat)
    (hf : k.functions.length + 1 ≤ entries.length) (hg : k.globals.length ≤ slots)
    (h : f.WellFormed k) :
    CodeWithin (start + (f.code entries start).length) entries slots (f.code entries start) := by
  have hfunctions : ((f.names k).declare (f.decls.map (·.name))).functions.length ≤
      (f.site entries).entries.length := by
    simpa [names, Names.declare, site] using hf
  have hbody := Stmt.blockCode_within hfunctions hg
    (start + (Decl.listCode (f.site entries) f.decls).length) f.body h.2
  refine ((Decl.listCode_within (k := f.names k) hfunctions hg f.decls h.1).append
    (hbody.raise ?_)).append Site.defaultReturn_within
  simp [code]
  omega

/-- Laying out functions extends the entries by one for each function. -/
theorem layout_entries (entries : List Nat) (start : Nat) (fs : List FunctionDef) :
    ∃ more, (layout entries start fs).1 = entries ++ more ∧ more.length = fs.length := by
  induction fs generalizing entries start with
  | nil => exact ⟨[], by simp [layout], rfl⟩
  | cons f rest ih =>
    obtain ⟨more, he, hlen⟩ := ih (entries ++ [start])
      (start + (f.code (entries ++ [start]) start).length)
    exact ⟨start :: more, by simp [layout, he], by simp [hlen]⟩

theorem layout_length (entries : List Nat) (start : Nat) (fs : List FunctionDef) :
    (layout entries start fs).1.length = entries.length + fs.length := by
  obtain ⟨more, he, hlen⟩ := layout_entries entries start fs
  rw [he, List.length_append, hlen]

/-- No function is without code: at its end there is always a return. -/
theorem length_code_pos (f : FunctionDef) (entries : List Nat) (start : Nat) :
    0 < (f.code entries start).length := by
  simp only [code, Site.defaultReturn, List.length_append, List.length_cons]
  omega

/-- Every entry that is added lies inside the code of the functions. -/
theorem layout_entry_lt (entries : List Nat) (start : Nat) (fs : List FunctionDef) (entry : Nat)
    (h : entry ∈ (layout entries start fs).1) :
    entry ∈ entries ∨ entry < start + (layout entries start fs).2.length := by
  induction fs generalizing entries start with
  | nil => exact Or.inl h
  | cons f rest ih =>
    have hpos := f.length_code_pos (entries ++ [start]) start
    simp only [layout, List.length_append] at h ⊢
    rcases ih _ _ h with hold | hlt
    · rcases List.mem_append.mp hold with hold | hnew
      · exact Or.inl hold
      · rw [List.mem_singleton.mp hnew]
        exact Or.inr (by omega)
    · exact Or.inr (by omega)

/-- The code of functions jumps no further than to the index behind it, and calls only them. -/
theorem layout_within (entries : List Nat) (start : Nat) (fs : List FunctionDef)
    (hf : k.functions.length ≤ entries.length) (hg : k.globals.length ≤ slots)
    (h : AllWellFormed k fs) :
    CodeWithin (start + (layout entries start fs).2.length) (layout entries start fs).1 slots
      (layout entries start fs).2 := by
  induction fs generalizing entries start k with
  | nil => exact .nil
  | cons f rest ih =>
    have hf' : k.functions.length + 1 ≤ (entries ++ [start]).length := by simpa using hf
    have hcode := code_within start hf' hg h.1
    have hrest := ih (k := { k with functions := k.functions ++ [f.signature] }) (entries ++ [start])
      (start + (f.code (entries ++ [start]) start).length) (by simpa using hf) hg h.2
    obtain ⟨more, he, -⟩ := layout_entries (entries ++ [start])
      (start + (f.code (entries ++ [start]) start).length) rest
    refine (hcode.mono ?_ ?_).append (hrest.raise ?_)
    · simp [layout]
    · simp only [layout, he]
      exact List.subset_append_left _ _
    · simp [layout]
      omega

end FunctionDef

/-! ## Programs -/

namespace Program

theorem streamError?_eq_none_iff {p : Program} :
    p.streamError? = none ↔
      ∃ params locals, p.code.instrs.back? = some (.ret params locals) := by
  unfold streamError?
  split <;> simp_all

theorem functionError?_eq_none_iff {p : Program} :
    p.functionError? = none ↔ ∀ f ∈ p.functions, f.entry < p.code.size := by
  simp [functionError?, List.findSome?_eq_none_iff]

theorem operandError?_eq_none_iff {p : Program} :
    p.operandError? = none ↔ ∀ i ∈ p.code.instrs.toList, p.instrViolation? i = none := by
  unfold operandError?
  rw [List.findSome?_eq_none_iff]
  constructor
  · intro h i hi
    obtain ⟨j, hj, rfl⟩ := List.getElem_of_mem hi
    have := h (p.code.instrs.toList[j], j) (List.mem_zipIdx_iff_getElem?.mpr (by simp))
    simpa using this
  · rintro h ⟨i, j⟩ hij
    have hi : i ∈ p.code.instrs.toList := List.fst_mem_of_mem_zipIdx hij
    simp [h i hi]

/-- **What the check asks for**: a return at the end, and everything that is named is there. -/
theorem check_eq_ok_iff {p : Program} :
    p.check = .ok () ↔
      (∃ params locals, p.code.instrs.back? = some (.ret params locals)) ∧
        (∀ f ∈ p.functions, f.entry < p.code.size) ∧
          ∀ i ∈ p.code.instrs.toList, p.instrViolation? i = none := by
  rw [← streamError?_eq_none_iff, ← functionError?_eq_none_iff, ← operandError?_eq_none_iff]
  unfold check error?
  cases p.streamError? <;> cases p.functionError? <;> cases p.operandError? <;> simp

/-- An instruction within the bounds of a program is not at fault. -/
theorem instrViolation?_of_within {p : Program} {limit : Nat} {entries : List Nat} {i : Instr}
    (h : i.Within limit entries p.globals.length) (hlimit : limit < p.code.size)
    (hentries : ∀ entry ∈ entries, ∃ f ∈ p.functions, f.entry = entry) :
    p.instrViolation? i = none := by
  cases i with
  | jump target | jumpIfFalse target => exact if_neg (Nat.not_le.mpr (Nat.lt_of_le_of_lt h hlimit))
  | call target =>
    obtain ⟨f, hf, hentry⟩ := hentries target h
    refine if_neg ?_
    simpa [functionAt?] using ⟨f, hf, hentry⟩
  | getGlobal slot | setGlobal slot => exact if_neg (Nat.not_le.mpr h)
  | _ => rfl

/-- A program passes the check if its code ends in a return and is within its own bounds. -/
theorem check_of_within {code : List Instr} {limit : Nat} {globals : List String}
    {functions : List FunctionEntry} {entries : List Nat} (params locals : Nat)
    (hlast : code.getLast? = some (.ret params locals))
    (hin : CodeWithin limit entries globals.length code) (hlimit : limit < code.length)
    (hentries : ∀ entry ∈ entries, ∃ f ∈ functions, f.entry = entry)
    (hfunctions : ∀ f ∈ functions, f.entry < code.length) :
    (Program.mk (.ofList code) globals functions).check = .ok () := by
  rw [check_eq_ok_iff]
  refine ⟨⟨params, locals, by simpa [Code.ofList] using hlast⟩, hfunctions, fun i hi => ?_⟩
  have hi : i ∈ code := by simpa [Code.ofList] using hi
  exact instrViolation?_of_within (hin i hi) hlimit hentries

end Program

namespace Script

variable {s : Script}

theorem length_entries (s : Script) : s.entries.length = s.functions.length := by
  rw [entries, FunctionDef.layout_length, List.length_nil, Nat.zero_add]

/-- The functions of a program are those of its script, in order. -/
theorem mem_functions_of_mem_entries {entry : Nat} (h : entry ∈ s.entries) :
    ∃ f ∈ s.program.functions, f.entry = entry := by
  obtain ⟨i, hi, rfl⟩ := List.getElem_of_mem h
  have hlt : i < s.functions.length := s.length_entries ▸ hi
  refine ⟨s.functions[i].toEntry s.entries[i], ?_, rfl⟩
  exact List.mem_map.mpr ⟨(s.functions[i], s.entries[i]), List.mem_iff_getElem.mpr
    ⟨i, by simp; omega, by simp⟩, rfl⟩

theorem entry_lt {f : FunctionEntry} (h : f ∈ s.program.functions) : f.entry < s.mainStart := by
  obtain ⟨⟨g, start⟩, hmem, rfl⟩ := List.mem_map.mp h
  have hentry : start ∈ s.entries := (List.of_mem_zip hmem).2
  rcases FunctionDef.layout_entry_lt [] s.bodiesStart s.functions start hentry with hnil | hlt
  · exact (List.not_mem_nil hnil).elim
  · exact hlt

/-- The code behind the functions stays below its default return. -/
theorem mainCode_within (h : s.WellFormed) :
    ∃ limit, limit + 3 = s.mainStart + s.mainCode.length ∧
      CodeWithin limit s.entries s.globals.length s.mainCode := by
  have hfunctions : (s.functions.map FunctionDef.signature).length ≤ s.site.entries.length := by
    simp [site, Site.top, s.length_entries]
  have hbody := Stmt.blockCode_within hfunctions (Nat.le_refl _)
    (s.mainStart + (Decl.listCode s.site s.lateDecls).length) s.body h.body
  refine ⟨_, ?_, (CodeWithin.append (Decl.listCode_within hfunctions (Nat.le_refl _) s.lateDecls
    h.lateDecls) hbody).append Site.defaultReturn_within⟩
  simp [mainCode, Site.defaultReturn]
  omega

/-- **The program of a well-formed script passes the check.** -/
theorem check_program (h : s.WellFormed) : s.program.check = .ok () := by
  obtain ⟨limit, hlimit, hmain⟩ := mainCode_within h
  have hdecls : CodeWithin limit [] s.globals.length (Decl.listCode (.top []) s.decls) :=
    Decl.listCode_within (k := .top s.globals []) (Nat.zero_le _) (Nat.le_refl _) s.decls h.decls
  have hbodies : CodeWithin s.mainStart s.entries s.globals.length s.bodies :=
    FunctionDef.layout_within (k := .top s.globals []) [] s.bodiesStart s.functions (Nat.zero_le _)
      (Nat.le_refl _) h.functions
  have hpast : s.mainStart ≤ limit := by
    have : 3 ≤ s.mainCode.length := by simp [mainCode, Site.defaultReturn]; omega
    omega
  have hlen : (Decl.listCode (.top []) s.decls ++ Instr.jump s.mainStart ::
      (s.bodies ++ s.mainCode)).length = s.mainStart + s.mainCode.length := by
    simp [mainStart, bodiesStart]
    omega
  refine Program.check_of_within 0 0 ?_
    ((hdecls.mono (Nat.le_refl _) (List.nil_subset _)).append
      (.cons hpast ((hbodies.raise hpast).append hmain))) (by omega)
    (fun entry => mem_functions_of_mem_entries) fun f hf => ?_
  · simp [mainCode, Site.defaultReturn, site, Site.top, List.getLast?_cons]
  · have := entry_lt hf
    omega

end Script

/-- **The program of a well-formed expression passes the check.** -/
theorem Expr.check_program {e : Expr} (h : e.WellFormed (.top [] [])) :
    e.program.check = .ok () := by
  have hcode : CodeWithin 0 [] 0 (e.closedCode (.top []) ++ [.ret 0 0]) :=
    (Expr.closedCode_within (k := .top [] []) (Nat.zero_le _) (Nat.zero_le _) h).append (.cons trivial .nil)
  exact Program.check_of_within 0 0 (by simp) hcode (by simp) (fun _ h => (List.not_mem_nil h).elim)
    fun _ h => (List.not_mem_nil h).elim

end StackScript
