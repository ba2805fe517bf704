import StackScript.Program.Listing
import StackScript.Proofs.Compile.Compiled
import StackScript.Proofs.Scope.Offsets
import StackScript.Proofs.Script.Bodies

/-!
# Tables of compiled programs

The tables of a compiled program agree with its code. Globals and functions have names of their own,
the functions stand in the code in the order of the table, and the code in the body of a function
uses exactly the frame that its entry says (`FunctionEntry.Describes`), while top-level code uses
none (`Instr.Frameless`). As no two functions start at one index, the first and the last one that
starts there are the same: a call reports the function that a listing shows at its target.

Offsets in a frame are integers here. A parameter or a local needs some of the text, so those of a
source of less than `2 ^ 31` bytes fit 32 bits (`Program.IsNarrow`).
-/

namespace StackScript

variable {k : Names} {strict : Bool} {valid : String → Prop}

/-! ## Names -/

namespace Names

theorem nodup_introduce (h : k.globals.Nodup) (name : String) :
    (k.introduce name).globals.Nodup := by
  unfold introduce
  split
  · exact h
  · split
    · exact h
    · rename_i hnew
      refine List.nodup_append.mpr ⟨h, List.nodup_singleton name, ?_⟩
      intro a ha b hb hab
      rw [hab, List.mem_singleton.mp hb] at ha
      exact hnew ha

theorem nodup_assigned (h : k.globals.Nodup) (name : String) : (k.assigned name).globals.Nodup := by
  unfold assigned
  split
  · exact h
  · exact nodup_introduce h name

end Names

mutual

/-- Statements declare no global twice. -/
theorem Stmt.nodup_after (st : Stmt) (k : Names) (h : k.globals.Nodup) :
    (st.after k).globals.Nodup := by
  match st with
  | .assign name _ _ => exact Names.nodup_assigned h name
  | .call _ _ _ | .ret _ => exact h
  | .ifThen _ body | .whileDo _ body => exact Stmt.nodup_afterAll body k h
  | .ifElse _ body other =>
    exact Stmt.nodup_afterAll other _ (Stmt.nodup_afterAll body k h)

theorem Stmt.nodup_afterAll (body : List Stmt) (k : Names) (h : k.globals.Nodup) :
    (Stmt.afterAll k body).globals.Nodup := by
  match body with
  | [] => exact h
  | st :: rest => exact Stmt.nodup_afterAll rest _ (Stmt.nodup_after st k h)

end

theorem Decl.nodup_afterAll (decls : List Decl) (h : k.globals.Nodup) :
    (Decl.afterAll k decls).globals.Nodup := by
  induction decls generalizing k with
  | nil => exact h
  | cons d rest ih => exact ih (Names.nodup_introduce h d.name)

/-- A function takes no name that is in view. -/
theorem FunctionDef.AllObey.nodup_names (fs : List FunctionDef) (h : AllObey strict valid k fs)
    (hk : (k.functions.map (·.name)).Nodup) :
    (k.functions.map (·.name) ++ fs.map (·.name)).Nodup := by
  induction fs generalizing k with
  | nil => simpa using hk
  | cons f rest ih =>
    obtain ⟨hf, hrest⟩ := h
    have hnew : ((k.functions ++ [f.signature]).map (·.name)).Nodup := by
      rw [List.map_append, List.nodup_append]
      refine ⟨hk, List.nodup_singleton _, fun a ha b hb hab => hf.new ?_⟩
      rw [hab, List.mem_singleton.mp hb] at ha
      exact ha
    have hall := ih hrest hnew
    rwa [List.map_append, List.append_assoc] at hall

section Names

variable {settings : Settings} {s : Script} (h : s.Obeys settings valid)

include h

theorem Script.Obeys.nodup_globals : s.globals.Nodup := by
  have hdecls : s.namesAfterDecls.globals.Nodup := Decl.nodup_afterAll s.decls List.nodup_nil
  have hlate : s.namesAfterLateDecls.globals.Nodup := Decl.nodup_afterAll s.lateDecls hdecls
  rw [h.globals]
  exact Stmt.nodup_afterAll s.body _ hlate

theorem Script.Obeys.nodup_functions : (s.functions.map (·.name)).Nodup := by
  have hnone : s.namesAfterDecls.functions = [] :=
    (Decl.afterAll_extends rfl s.decls).functions.symm
  have hall := FunctionDef.AllObey.nodup_names s.functions h.functions (by simp [hnone])
  simpa [hnone] using hall

end Names

/-! ## Frames -/

/-- Code that uses the frame which an entry describes: it returns from that frame, uses its
parameters and locals and makes room for each local once, before it jumps for the first time. -/
structure FunctionEntry.Describes (f : FunctionEntry) (code : List Instr) : Prop where
  last : code.getLast? = some (.ret f.params f.locals)
  returns : ∀ params locals, .ret params locals ∈ code → params = f.params ∧ locals = f.locals
  offsets : ∀ offset : Int, .getLocal offset ∈ code ∨ .setLocal offset ∈ code →
    (2 ≤ offset ∧ offset ≤ f.params + 1) ∨ (-(f.locals : Int) ≤ offset ∧ offset ≤ -1)
  rooms : code.count .declareLocal = f.locals
  roomsFirst : ∀ (i j : Nat) (instr : Instr) (target : Nat), code[i]? = some .declareLocal →
    code[j]? = some instr → instr.jumpTarget? = some target → i < j

/-- An instruction that uses no frame, of which a return ends the program. -/
def Instr.Frameless : Instr → Prop
  | .getLocal _ | .setLocal _ | .declareLocal => False
  | .ret params locals => params = 0 ∧ locals = 0
  | _ => True

theorem Instr.Belongs.frameless {i : Instr} {entries : List Nat} {low high : Nat}
    (h : i.Belongs (.top entries) low high) : i.Frameless := by
  have hnone (offset : Int) : ¬ (Site.top entries).body.Owns (Site.top entries).locals offset := by
    simp only [Site.body, Site.top, Body.Owns]
    omega
  cases i with
  | getLocal offset | setLocal offset => exact hnone offset h
  | ret params locals => exact h
  | declareLocal => exact h
  | _ => trivial

namespace Script

variable {s : Script}

/-- **The body of a function is as its entry describes it.** -/
theorem describes_body (h : s.WellFormed) {n : Nat} {g : FunctionEntry}
    (hg : s.program.functions[n]? = some g) : g.Describes (s.program.bodyCode n) := by
  obtain ⟨f, start, hf, hstart, rfl⟩ := getElem?_functions_eq_some_iff.mp hg
  have hbody : s.program.bodyCode n = s.codeOf n start f :=
    Program.bodyCode_eq hg (bodyEnd_program h hf hstart) (codeAt_codeOf hf hstart)
  have hwf := h.functions.getElem? hf
  have hbelongs : ∀ i ∈ s.codeOf n start f, i = .declareLocal ∨ i.Belongs _ _ _ :=
    FunctionDef.code_belongs hwf start
  rw [hbody]
  exact {
    last := s.codeOf_last n start f
    returns := fun params locals hmem => (hbelongs _ hmem).resolve_left nofun
    offsets := by
      rintro offset (hmem | hmem)
      · exact (hbelongs _ hmem).resolve_left nofun
      · exact (hbelongs _ hmem).resolve_left nofun
    rooms := FunctionDef.count_code hwf start
    roomsFirst := fun _ _ _ _ => FunctionDef.rooms_first hwf start }

/-- **Top-level code uses no frame.** -/
theorem frameless_topLevel (h : s.WellFormed) {index : Nat} {i : Instr}
    (hin : s.program.TopLevel index) (hi : s.program.code.get? index = some i) : i.Frameless := by
  rcases topLevel_instr h hin hi with ⟨-, rfl⟩ | hdecl | ⟨-, hmem⟩
  · trivial
  · exact (decls_belong h 0 0 i hdecl).frameless
  · exact (mainCode_belongs h i hmem).frameless

end Script

/-! ## First and last -/

/-- Where all functions start at different indices, at most one is found. -/
theorem find?_entry_eq_some_iff {functions : List FunctionEntry} {index : Nat} {f : FunctionEntry}
    (h : (functions.map (·.entry)).Nodup) :
    functions.find? (·.entry == index) = some f ↔ f ∈ functions ∧ f.entry = index := by
  constructor
  · intro hf
    exact ⟨List.mem_of_find?_eq_some hf, by simpa using List.find?_some hf⟩
  · rintro ⟨hf, rfl⟩
    cases hg : functions.find? (·.entry == f.entry) with
    | none => exact absurd (List.find?_eq_none.mp hg f hf) (by simp)
    | some g =>
      have hentry : g.entry = f.entry := by simpa using List.find?_some hg
      rw [List.inj_on_of_nodup_map h (List.mem_of_find?_eq_some hg) hf hentry]

/-- So the last one that starts at an index is the first. -/
theorem Program.find?_reverse_functions {p : Program} (h : (p.functions.map (·.entry)).Nodup)
    (index : Nat) : p.functions.reverse.find? (·.entry == index) = p.functionAt? index := by
  have hreverse : (p.functions.reverse.map (·.entry)).Nodup := by
    rw [List.map_reverse]
    exact List.nodup_reverse.mpr h
  refine Option.ext fun f => ?_
  rw [functionAt?, find?_entry_eq_some_iff hreverse, find?_entry_eq_some_iff h, List.mem_reverse]

/-! ## Coherent programs -/

/-- A program whose tables agree with each other and with its code. -/
structure Program.Coherent (p : Program) : Prop where
  /-- The first jump of the code is the one that skips the functions. -/
  skip : ∀ f, p.functions[0]? = some f → ∃ index, f.entry = index + 1 ∧
    p.skip? = some (index, p.bodiesEnd) ∧ p.code.get? index = some (.jump p.bodiesEnd)
  globals : p.globals.Nodup
  names : (p.functions.map (·.name)).Nodup
  entries : (p.functions.map (·.entry)).Pairwise (· < ·)
  bodies : ∀ (k : Nat) (f : FunctionEntry), p.functions[k]? = some f → f.Describes (p.bodyCode k)
  topLevel : ∀ (index : Nat) (i : Instr), p.TopLevel index → p.code.get? index = some i →
    i.Frameless
  /-- What a listing shows at an index is the function that a call of it reports. -/
  headings : ∀ index, p.heading? index = (p.functionAt? index).map fun f =>
    s!"\n{f.name}/{f.params}  ; {f.locals} local(s)\n"

theorem Script.Obeys.coherent {settings : Settings} {s : Script} (h : s.Obeys settings valid) :
    s.program.Coherent := by
  have hwf := h.wellFormed
  have hsorted : (s.program.functions.map (·.entry)).Pairwise (· < ·) := by
    rw [s.map_entry_functions]
    exact s.sorted_entries
  exact {
    skip := fun f hf => by
      have hfirst := s.first_entry
      rw [hf, Option.map_some, Option.getD_some] at hfirst
      refine ⟨s.bodiesStart - 1, hfirst, ?_⟩
      rw [Script.bodiesEnd_program hwf]
      exact ⟨Script.skip?_program hwf, s.get?_skip⟩
    globals := h.nodup_globals
    names := by
      rw [s.map_name_functions]
      exact h.nodup_functions
    entries := hsorted
    bodies := fun _ _ hf => Script.describes_body hwf hf
    topLevel := fun _ _ hin hi => Script.frameless_topLevel hwf hin hi
    headings := fun index => by
      rw [Program.heading?, Program.find?_reverse_functions (hsorted.imp Nat.ne_of_lt)] }

/-! ## Narrow offsets -/

/-- All numbers on the way to the offsets of the variables of a function fit 32 bits. -/
def FunctionEntry.IsNarrow (f : FunctionEntry) : Prop :=
  Frame.IsNarrow f.params ∧ ∀ ordinal < f.params + f.locals,
    Frame.IsNarrow ordinal ∧ Frame.IsNarrow ((f.params : Int) - ordinal) ∧
      Frame.IsNarrow ((ordinal : Int) - f.params) ∧
        Frame.IsNarrow (Frame.offset f.params ordinal (ordinal < f.params))

/-- A program whose offsets fit 32 bits, and all numbers on the way to them. -/
structure Program.IsNarrow (p : Program) : Prop where
  functions : ∀ f ∈ p.functions, f.IsNarrow
  offsets : ∀ offset : Int,
    .getLocal offset ∈ p.code.instrs ∨ .setLocal offset ∈ p.code.instrs → Frame.IsNarrow offset

theorem FunctionEntry.isNarrow {f : FunctionEntry} (h : f.params + f.locals < 2 ^ 31 - 2) :
    f.IsNarrow :=
  ⟨⟨by omega, by omega⟩, fun _ hordinal =>
    Frame.narrow_offset (Nat.le_add_right _ _) hordinal h⟩

/-- Every offset of the variables of a frame belongs to one of them. -/
theorem FunctionEntry.IsNarrow.offset {f : FunctionEntry} (h : f.IsNarrow) {offset : Int}
    (ho : (2 ≤ offset ∧ offset ≤ f.params + 1) ∨ (-(f.locals : Int) ≤ offset ∧ offset ≤ -1)) :
    Frame.IsNarrow offset := by
  rcases ho with hparam | hlocal
  · obtain ⟨i, hi⟩ := Int.eq_ofNat_of_zero_le (a := f.params + 1 - offset) (by omega)
    have hnarrow := (h.2 i (by omega)).2.2.2
    rwa [Frame.offset_of_lt (by omega), show (f.params : Int) - i + 1 = offset by omega] at hnarrow
  · obtain ⟨i, hi⟩ := Int.eq_ofNat_of_zero_le (a := f.params - 1 - offset) (by omega)
    have hnarrow := (h.2 i (by omega)).2.2.2
    rwa [Frame.offset_of_le (by omega),
      show -1 - ((i : Int) - f.params) = offset by omega] at hnarrow

/-- **The offsets of coherent code are as narrow as its frames.** -/
theorem Program.Coherent.isNarrow {p : Program} (hp : p.Coherent)
    (hfunctions : ∀ f ∈ p.functions, f.IsNarrow) : p.IsNarrow := by
  have hnarrow {i : Instr} {offset : Int} (hi : i ∈ p.code.instrs)
      (ho : i = .getLocal offset ∨ i = .setLocal offset) : Frame.IsNarrow offset := by
    obtain ⟨index, hlt, hget⟩ := Array.mem_iff_getElem.mp hi
    have hindex : p.code.get? index = some i := Array.getElem?_eq_some_iff.mpr ⟨hlt, hget⟩
    by_cases hbody : ∃ k, p.InBody k index
    · obtain ⟨k, hk⟩ := hbody
      have hmem := mem_bodyCode hk hindex
      obtain ⟨f, hf, -, -⟩ := hk
      refine (hfunctions f (List.mem_of_getElem? hf)).offset ((hp.bodies k f hf).offsets offset ?_)
      rcases ho with rfl | rfl
      · exact .inl hmem
      · exact .inr hmem
    · have hframeless := hp.topLevel index i ⟨hlt, fun k hk => hbody ⟨k, hk⟩⟩ hindex
      rcases ho with rfl | rfl <;> exact hframeless.elim
  exact ⟨hfunctions, fun offset ho =>
    ho.elim (fun hi => hnarrow hi (.inl rfl)) fun hi => hnarrow hi (.inr rfl)⟩

/-- A function has more instructions than locals, by those of its last return. -/
theorem FunctionDef.WellFormed.decls_lt_size {f : FunctionDef} (h : f.WellFormed k) :
    f.decls.length + 3 ≤ f.size := by
  have hcount : (Decl.listCode (f.site []) f.decls).count .declareLocal = f.decls.length :=
    (FunctionDef.decls_content h).1
  have hle := List.count_le_length (a := Instr.declareLocal)
    (l := Decl.listCode (f.site []) f.decls)
  rw [hcount, Decl.length_listCode] at hle
  rw [FunctionDef.size]
  omega

/-! ## Compiled programs -/

/-- The variables of a function are fewer than the bytes of the text. -/
theorem compile_frames {settings : Settings} {source : String} {p : Program}
    (h : compile settings source = .ok p) :
    p.Coherent ∧ ∀ f ∈ p.functions, f.params + f.locals + 3 ≤ utf8Length source.toList := by
  obtain ⟨s, hobeys, hfunctions, rfl⟩ := compile_functions h
  refine ⟨hobeys.coherent, fun g hg => ?_⟩
  obtain ⟨k, hk⟩ := List.getElem?_of_mem hg
  obtain ⟨f, start, hf, -, rfl⟩ := Script.getElem?_functions_eq_some_iff.mp hk
  have hlocals := (hobeys.wellFormed.functions.getElem? hf).decls_lt_size
  have hpaid := hfunctions f (List.mem_of_getElem? hf)
  have hbytes := length_le_utf8Length source.toList
  change f.params.length + f.decls.length + 3 ≤ _
  omega

/-- **The tables of a compiled program agree with its code**, and if the text has fewer than
`2 ^ 31` bytes its offsets fit 32 bits, with all the numbers that lead to them. -/
theorem compiled_coherent {settings : Settings} {source : String} {p : Program}
    (h : compile settings source = .ok p) :
    p.Coherent ∧ (utf8Length source.toList < 2 ^ 31 → p.IsNarrow) := by
  obtain ⟨hcoherent, hframes⟩ := compile_frames h
  refine ⟨hcoherent, fun hsource => hcoherent.isNarrow fun f hf => FunctionEntry.isNarrow ?_⟩
  have hfew := hframes f hf
  omega

/-- Two functions, of which one has a local and a loop, and a global that is first assigned in a
branch. -/
def countdownText : String :=
  "function id(x) \x7b return x; \x7d " ++
  "function down(n, m) \x7b var i = n; while (i > m) \x7b i = id(i) - 1; \x7d return i; \x7d " ++
  "if (true) \x7b g = down(3, 1); \x7d g = g + 1;"

theorem compiled_coherent_countdown :
    ∃ p, compile ⟨false, 8⟩ countdownText = .ok p ∧ p.functions.length = 2 ∧ p.Coherent ∧
      p.IsNarrow := by
  have hsource : utf8Length countdownText.toList < 2 ^ 31 := by decide +kernel
  have hok : (compile ⟨false, 8⟩ countdownText).toOption.any fun p => p.functions.length = 2 := by
    rw [compile_eq]
    decide +kernel
  cases hp : compile ⟨false, 8⟩ countdownText with
  | error d =>
    rw [hp] at hok
    cases hok
  | ok p =>
    rw [hp] at hok
    obtain ⟨hcoherent, hnarrow⟩ := compiled_coherent hp
    exact ⟨p, rfl, of_decide_eq_true hok, hcoherent, hnarrow hsource⟩

end StackScript
