import StackScript.Proofs.Program.Regions
import StackScript.Proofs.Script.Content
import StackScript.Proofs.Script.Plan

/-!
# The bodies of a script in its program

In the program of a well-formed script the body of a function is exactly its code
(`Script.inBody_iff`), and top-level code is what stands before the functions and behind them
(`Script.topLevel_iff`). So control leaves a region by calls and returns only: a jump stays in the
region it is in (`Script.jump_stays`), and so does an instruction that goes on to the next one
(`Script.next_stays`).
-/

namespace StackScript

namespace FunctionDef

/-- Functions are laid out from an index on without a gap. -/
theorem layout_first (entries : List Nat) (start : Nat) (fs : List FunctionDef) :
    ((layout entries start fs).1[entries.length]?).getD (start + (layout entries start fs).2.length) =
      start := by
  cases fs with
  | nil => simp [layout]
  | cons f rest =>
    obtain ⟨more, he, -⟩ := layout_entries (entries ++ [start])
      (start + (f.code (entries ++ [start]) start).length) rest
    simp [layout, he]

/-- Where the code of a function ends, the next one starts. -/
theorem layout_next (entries : List Nat) (start : Nat) (fs : List FunctionDef) {i entry : Nat}
    {f : FunctionDef} (hf : fs[i]? = some f)
    (hentry : (layout entries start fs).1[entries.length + i]? = some entry) :
    ((layout entries start fs).1[entries.length + i + 1]?).getD
        (start + (layout entries start fs).2.length) =
      entry + (f.code ((layout entries start fs).1.take (entries.length + i + 1)) entry).length := by
  induction fs generalizing entries start i with
  | nil => cases hf
  | cons g rest ih =>
    have hend : start + (layout entries start (g :: rest)).2.length =
        start + (g.code (entries ++ [start]) start).length + (layout (entries ++ [start])
          (start + (g.code (entries ++ [start]) start).length) rest).2.length := by
      simp only [layout, List.length_append]
      omega
    cases i with
    | zero =>
      cases hf
      obtain ⟨more, he, -⟩ := layout_entries (entries ++ [start])
        (start + (f.code (entries ++ [start]) start).length) rest
      have htake : (entries ++ [start] ++ more).take (entries.length + 1) = entries ++ [start] :=
        List.take_left' (by simp)
      have hstart : entry = start := by simpa [layout, he] using hentry.symm
      have hfirst := layout_first (entries ++ [start])
        (start + (f.code (entries ++ [start]) start).length) rest
      rw [List.length_append, List.length_singleton] at hfirst
      rw [hend, hstart]
      simp only [layout, he, Nat.add_zero, htake] at hfirst ⊢
      exact hfirst
    | succ i =>
      have hindex : (entries ++ [start]).length + i = entries.length + (i + 1) := by
        simp
        omega
      have hrest := ih (entries ++ [start]) (start + (g.code (entries ++ [start]) start).length) hf
        (hindex ▸ hentry)
      rw [hindex, ← hend] at hrest
      exact hrest

theorem layout_le (entries : List Nat) (start : Nat) (fs : List FunctionDef) (entry : Nat)
    (h : entry ∈ (layout entries start fs).1) : entry ∈ entries ∨ start ≤ entry := by
  induction fs generalizing entries start with
  | nil => exact .inl h
  | cons f rest ih =>
    rcases ih _ _ h with hold | hle
    · rcases List.mem_append.mp hold with hold | hnew
      · exact .inl hold
      · exact .inr (Nat.le_of_eq (List.mem_singleton.mp hnew).symm)
    · exact .inr (by omega)

end FunctionDef

namespace Script

variable {s : Script} {i k start index : Nat} {f : FunctionDef}

/-- The code of the function with a number. -/
def codeOf (s : Script) (k start : Nat) (f : FunctionDef) : List Instr :=
  f.code (s.entries.take (k + 1)) start

/-! ## Tables -/

theorem getElem?_functions_eq_some_iff {g : FunctionEntry} :
    s.program.functions[k]? = some g ↔
      ∃ f start, s.functions[k]? = some f ∧ s.entries[k]? = some start ∧ g = f.toEntry start := by
  simp only [program, List.getElem?_map, Option.map_eq_some_iff, List.getElem?_zip_eq_some,
    Prod.exists]
  constructor
  · rintro ⟨f, start, ⟨hf, hstart⟩, rfl⟩
    exact ⟨f, start, hf, hstart, rfl⟩
  · rintro ⟨f, start, hf, hstart, rfl⟩
    exact ⟨f, start, ⟨hf, hstart⟩, rfl⟩

theorem map_entry_functions (s : Script) : s.program.functions.map (·.entry) = s.entries := by
  have hsnd : (s.functions.zip s.entries).map Prod.snd = s.entries :=
    List.map_snd_zip (Nat.le_of_eq s.length_entries)
  rw [program, List.map_map]
  exact hsnd

theorem map_name_functions (s : Script) :
    s.program.functions.map (·.name) = s.functions.map (·.name) := by
  have hfst : (s.functions.zip s.entries).map Prod.fst = s.functions :=
    List.map_fst_zip (Nat.le_of_eq s.length_entries.symm)
  rw [program, List.map_map]
  conv_rhs => rw [← hfst, List.map_map]
  rfl

theorem size_code_program (s : Script) : s.program.code.size = s.mainStart + s.mainCode.length := by
  simp [program, Code.size, Code.ofList, mainStart, bodiesStart]
  omega

/-! ## Where the code stands -/

theorem codeAt_decls (s : Script) :
    CodeAt s.program 0 (Decl.listCode (.top []) s.decls) := s.codeAt_program.left

theorem get?_skip (s : Script) :
    s.program.code.get? (s.bodiesStart - 1) = some (.jump s.mainStart) := by
  simpa [bodiesStart] using s.codeAt_program.right.head

theorem codeAt_mainCode (s : Script) : CodeAt s.program s.mainStart s.mainCode := by
  have hrest : CodeAt s.program s.bodiesStart (s.bodies ++ s.mainCode) := by
    simpa [bodiesStart] using s.codeAt_program.right.tail
  exact hrest.right

theorem codeAt_codeOf (hf : s.functions[k]? = some f) (hstart : s.entries[k]? = some start) :
    CodeAt s.program start (s.codeOf k start f) := by
  obtain ⟨start', hstart', hcode⟩ := s.functionsAt_program k f hf
  obtain rfl := Option.some.inj (hstart.symm.trans hstart')
  exact hcode

/-- The first declarations belong to no function and jump nowhere. -/
theorem decls_belong (h : s.WellFormed) (low high : Nat) :
    ∀ i ∈ Decl.listCode (.top []) s.decls, i.Belongs (.top []) low high :=
  Decl.listCode_belongs rfl s.decls h.decls

/-- The code behind the functions belongs to none, and its jumps stay inside. -/
theorem mainCode_belongs (h : s.WellFormed) :
    ∀ i ∈ s.mainCode,
      i.Belongs s.site s.mainStart (s.mainStart + s.mainCode.length - 1) := by
  have hframe : (Names.top s.globals (s.functions.map (·.signature))).frameNames.length ≤
      s.site.params + s.site.locals := Nat.le_refl 0
  have hblock := Stmt.blockCode_belongs hframe
    (s.mainStart + (Decl.listCode s.site s.lateDecls).length) s.body h.body
  refine List.forall_mem_append.mpr ⟨List.forall_mem_append.mpr
    ⟨Decl.listCode_belongs rfl s.lateDecls h.lateDecls, fun i hi => (hblock i hi).widen ?_ ?_⟩,
      Site.defaultReturn_belongs⟩
  · omega
  · simp only [mainCode, Site.defaultReturn, List.length_append, List.length_cons]
    omega

theorem findSome?_jumpTarget?_decls (h : s.WellFormed) :
    (Decl.listCode (.top []) s.decls).zipIdx.findSome?
      (fun (i, index) => i.jumpTarget?.map (index, ·)) = none := by
  refine List.findSome?_eq_none_iff.mpr ?_
  rintro ⟨i, index⟩ hmem
  have hi := Instr.jumpTarget?_eq_none fun low high =>
    decls_belong h low high i (List.fst_mem_of_mem_zipIdx hmem)
  exact Option.map_eq_none_iff.mpr hi

/-- **The first jump of the program of a script skips the functions.** -/
theorem skip?_program (h : s.WellFormed) :
    s.program.skip? = some (s.bodiesStart - 1, s.mainStart) := by
  simp only [Program.skip?, program, Code.ofList, List.zipIdx_append, List.findSome?_append,
    findSome?_jumpTarget?_decls h]
  simp [Instr.jumpTarget?, bodiesStart]

theorem bodiesEnd_program (h : s.WellFormed) : s.program.bodiesEnd = s.mainStart := by
  rw [Program.bodiesEnd, skip?_program h]
  rfl

/-- **A body ends where the code of its function does.** -/
theorem bodyEnd_program (h : s.WellFormed) (hf : s.functions[k]? = some f)
    (hstart : s.entries[k]? = some start) :
    s.program.bodyEnd k = start + (s.codeOf k start f).length := by
  have hnext := FunctionDef.layout_next [] s.bodiesStart s.functions hf
    (by simpa [entries] using hstart)
  have hentries : (s.program.functions[k + 1]?).map (·.entry) = s.entries[k + 1]? := by
    rw [← List.getElem?_map, s.map_entry_functions]
  rw [Program.bodyEnd, hentries, bodiesEnd_program h]
  simpa [entries, codeOf, mainStart, bodies] using hnext

/-! ## Regions -/

/-- **The body of a function is its code.** -/
theorem inBody_iff (h : s.WellFormed) :
    s.program.InBody k index ↔
      ∃ f start j, s.functions[k]? = some f ∧ s.entries[k]? = some start ∧ index = start + j ∧
        j < (s.codeOf k start f).length := by
  constructor
  · rintro ⟨g, hg, hlow, hhigh⟩
    obtain ⟨f, start, hf, hstart, rfl⟩ := getElem?_functions_eq_some_iff.mp hg
    rw [bodyEnd_program h hf hstart] at hhigh
    replace hlow : start ≤ index := hlow
    exact ⟨f, start, index - start, hf, hstart, by omega, by omega⟩
  · rintro ⟨f, start, j, hf, hstart, rfl, hj⟩
    refine ⟨f.toEntry start, getElem?_functions_eq_some_iff.mpr ⟨f, start, hf, hstart, rfl⟩,
      Nat.le_add_right start j, ?_⟩
    rw [bodyEnd_program h hf hstart]
    omega

/-- Bodies lie between the two parts of the top-level code. -/
theorem bounds_of_inBody (h : s.WellFormed) (hin : s.program.InBody k index) :
    s.bodiesStart ≤ index ∧ index < s.mainStart := by
  obtain ⟨g, hg, hlow, hhigh⟩ := hin
  have hentry : g.entry ∈ s.entries := by
    rw [← s.map_entry_functions]
    exact List.mem_map_of_mem (List.mem_of_getElem? hg)
  constructor
  · rcases FunctionDef.layout_le [] s.bodiesStart s.functions g.entry hentry with hnil | hle
    · exact (List.not_mem_nil hnil).elim
    · omega
  · unfold Program.bodyEnd at hhigh
    rw [bodiesEnd_program h] at hhigh
    cases hnext : s.program.functions[k + 1]? with
    | none => simpa [hnext] using hhigh
    | some g' =>
      have hlt := entry_lt (List.mem_of_getElem? hnext)
      simp only [hnext, Option.map_some, Option.getD_some] at hhigh
      omega

/-- The first function starts behind the jump, and without functions the rest of the code does. -/
theorem first_entry (s : Script) :
    ((s.program.functions[0]?).map (·.entry)).getD s.mainStart = s.bodiesStart := by
  rw [← List.getElem?_map, s.map_entry_functions]
  exact FunctionDef.layout_first [] s.bodiesStart s.functions

/-- Between the two parts of the top-level code every index is in a body. -/
theorem exists_inBody (h : s.WellFormed) (hlow : s.bodiesStart ≤ index)
    (hhigh : index < s.mainStart) : ∃ k, s.program.InBody k index := by
  have hfirst := s.first_entry
  cases hg : s.program.functions[0]? with
  | some g =>
    rw [hg, Option.map_some, Option.getD_some] at hfirst
    rw [← bodiesEnd_program h] at hhigh
    exact Program.exists_inBody hg (Nat.le_trans (Nat.le_of_eq hfirst) hlow) hhigh
  | none =>
    rw [hg, Option.map_none, Option.getD_none] at hfirst
    omega

/-- **Top-level code stands before the functions and behind them.** -/
theorem topLevel_iff (h : s.WellFormed) :
    s.program.TopLevel index ↔
      index < s.program.code.size ∧ (index < s.bodiesStart ∨ s.mainStart ≤ index) := by
  refine and_congr_right fun _ => ?_
  constructor
  · intro hout
    by_cases hlow : s.bodiesStart ≤ index
    · by_cases hhigh : index < s.mainStart
      · obtain ⟨k, hk⟩ := exists_inBody h hlow hhigh
        exact absurd hk (hout k)
      · exact .inr (Nat.not_lt.mp hhigh)
    · exact .inl (Nat.not_le.mp hlow)
  · intro hout k hk
    have hbounds := bounds_of_inBody h hk
    omega

/-! ## Control -/

theorem codeOf_last (s : Script) (k start : Nat) (f : FunctionDef) :
    (s.codeOf k start f).getLast? = some (.ret f.params.length f.decls.length) := by
  simp [codeOf, FunctionDef.code, Site.defaultReturn, FunctionDef.site]

theorem mainCode_last (s : Script) : s.mainCode.getLast? = some (.ret 0 0) := by
  simp [mainCode, Site.defaultReturn, site, Site.top]

theorem bodiesStart_le_mainStart (s : Script) : s.bodiesStart ≤ s.mainStart := Nat.le_add_right ..

theorem mainStart_lt_size (s : Script) : s.mainStart < s.program.code.size := by
  have hpos : 3 ≤ s.mainCode.length := by simp [mainCode, Site.defaultReturn]; omega
  rw [s.size_code_program]
  omega

/-- An instruction behind the functions is one of the code there. -/
theorem getElem?_mainCode (hlow : s.mainStart ≤ index) {i : Instr}
    (hi : s.program.code.get? index = some i) : s.mainCode[index - s.mainStart]? = some i := by
  have hlt : index - s.mainStart < s.mainCode.length := by
    have hsize : index < s.program.code.size := (Array.getElem?_eq_some_iff.mp hi).1
    rw [s.size_code_program] at hsize
    omega
  have hat := s.codeAt_mainCode _ _ (List.getElem?_eq_getElem hlt)
  rw [Nat.add_sub_cancel' hlow, hi] at hat
  rw [List.getElem?_eq_getElem hlt, hat]

/-- An instruction of the top-level code is the jump over the functions, one of the declarations
before it or one of the code behind the functions. -/
theorem topLevel_instr (h : s.WellFormed) (hin : s.program.TopLevel index) {i : Instr}
    (hi : s.program.code.get? index = some i) :
    (index = s.bodiesStart - 1 ∧ i = .jump s.mainStart) ∨
      i ∈ Decl.listCode (.top []) s.decls ∨ (s.mainStart ≤ index ∧ i ∈ s.mainCode) := by
  obtain ⟨-, hlow | hhigh⟩ := (topLevel_iff h).mp hin
  · by_cases hskip : index = s.bodiesStart - 1
    · rw [hskip, s.get?_skip] at hi
      exact .inl ⟨hskip, (Option.some.inj hi).symm⟩
    · have hlt : index < (Decl.listCode (.top []) s.decls).length := by
        unfold bodiesStart at hlow hskip
        omega
      have hat := s.codeAt_decls _ _ (List.getElem?_eq_getElem hlt)
      rw [Nat.zero_add, hi] at hat
      rw [Option.some.inj hat]
      exact .inr (.inl (List.getElem_mem hlt))
  · exact .inr (.inr ⟨hhigh, List.mem_of_getElem? (getElem?_mainCode hhigh hi)⟩)

/-- A jump of the top-level code skips the functions or stays behind them. -/
theorem topLevel_jump (h : s.WellFormed) (hin : s.program.TopLevel index) {i : Instr} {target : Nat}
    (hi : s.program.code.get? index = some i) (ht : i.jumpTarget? = some target) :
    (index = s.bodiesStart - 1 ∧ target = s.mainStart) ∨
      (s.mainStart ≤ index ∧ s.mainStart ≤ target ∧ target < s.program.code.size) := by
  rcases topLevel_instr h hin hi with ⟨hskip, rfl⟩ | hdecl | ⟨hlow, hmem⟩
  · exact .inl ⟨hskip, (Option.some.inj ht).symm⟩
  · rw [Instr.jumpTarget?_eq_none fun low high => decls_belong h low high i hdecl] at ht
    cases ht
  · have hbounds := (mainCode_belongs h i hmem).jumpTarget? ht
    have hsize := s.mainStart_lt_size
    have hlen := s.size_code_program
    exact .inr ⟨hlow, hbounds.1, by omega⟩

/-- **Jumps stay in their region.** -/
theorem jump_stays (h : s.WellFormed) {r : Option Nat} (hin : s.program.InRegion r index) {i : Instr}
    {target : Nat} (hi : s.program.code.get? index = some i) (ht : i.jumpTarget? = some target) :
    s.program.InRegion r target := by
  cases r with
  | none =>
    have hsize := s.mainStart_lt_size
    refine (topLevel_iff h).mpr ?_
    rcases topLevel_jump h hin hi ht with ⟨-, rfl⟩ | ⟨-, hlow, hhigh⟩
    · exact ⟨hsize, .inr (Nat.le_refl _)⟩
    · exact ⟨hhigh, .inr hlow⟩
  | some k =>
    obtain ⟨f, start, j, hf, hstart, rfl, hj⟩ := (inBody_iff h).mp hin
    have hat := codeAt_codeOf hf hstart _ _ (List.getElem?_eq_getElem hj)
    obtain rfl := Option.some.inj (hi.symm.trans hat)
    rcases FunctionDef.code_belongs (h.functions.getElem? hf) start _ (List.getElem_mem hj)
      with hroom | hbelongs
    · rw [hroom] at ht
      cases ht
    · have hbounds := hbelongs.jumpTarget? ht
      have hlen : (f.code (s.entries.take (k + 1)) start).length = (s.codeOf k start f).length := rfl
      exact (inBody_iff h).mpr ⟨f, start, target - start, hf, hstart, by omega, by omega⟩

/-- **What goes on to the next instruction stays in its region**: pieces of code end in a return, and
the first declarations in the jump over the functions. -/
theorem next_stays (h : s.WellFormed) {r : Option Nat} (hin : s.program.InRegion r index) {i : Instr}
    (hi : s.program.code.get? index = some i) (hjump : ∀ target, i ≠ .jump target)
    (hret : ∀ params locals, i ≠ .ret params locals) : s.program.InRegion r (index + 1) := by
  have hmore {code : List Instr} {j params locals : Nat}
      (hlast : code.getLast? = some (.ret params locals)) (hj : code[j]? = some i) :
      j + 1 < code.length := by
    have hlt := (List.getElem?_eq_some_iff.mp hj).1
    by_cases hend : j + 1 = code.length
    · obtain rfl : j = code.length - 1 := by omega
      rw [← List.getLast?_eq_getElem?, hlast] at hj
      exact absurd (Option.some.inj hj).symm (hret params locals)
    · omega
  cases r with
  | none =>
    have hle := s.bodiesStart_le_mainStart
    have hsize := s.mainStart_lt_size
    refine (topLevel_iff h).mpr ?_
    obtain ⟨-, hlow | hhigh⟩ := (topLevel_iff h).mp hin
    · by_cases hskip : index = s.bodiesStart - 1
      · rw [hskip, s.get?_skip] at hi
        exact absurd (Option.some.inj hi).symm (hjump _)
      · exact ⟨by omega, .inl (by omega)⟩
    · have hlt := hmore s.mainCode_last (getElem?_mainCode hhigh hi)
      have hlen := s.size_code_program
      exact ⟨by omega, .inr (by omega)⟩
  | some k =>
    obtain ⟨f, start, j, hf, hstart, rfl, hj⟩ := (inBody_iff h).mp hin
    have hat := codeAt_codeOf hf hstart _ _ (List.getElem?_eq_getElem hj)
    have hlt := hmore (s.codeOf_last k start f)
      ((List.getElem?_eq_getElem hj).trans (hat.symm.trans hi))
    exact (inBody_iff h).mpr ⟨f, start, j + 1, hf, hstart, rfl, hlt⟩

/-- A function starts in its body. -/
theorem entry_inBody (h : s.WellFormed) {g : FunctionEntry}
    (hg : s.program.functions[k]? = some g) : s.program.InBody k g.entry := by
  obtain ⟨f, start, hf, hstart, rfl⟩ := getElem?_functions_eq_some_iff.mp hg
  exact (inBody_iff h).mpr ⟨f, start, 0, hf, hstart, rfl, f.length_code_pos _ _⟩

end Script

end StackScript
