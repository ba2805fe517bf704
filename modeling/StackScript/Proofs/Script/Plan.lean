import Mathlib.Data.List.Nodup
import StackScript.Proofs.Script.Calls

/-!
# The plan of a script

The functions of a script start at different indices (`Script.nodup_entries`), so the index that a
call names tells which function is called, hence how many arguments it takes and which code runs.
That is the plan of the program (`Script.plan`), and the calls in the code of the program are
complete (`Script.nested_program`).
-/

namespace StackScript

/-! ## Entries -/

/-- Functions that are laid out one after another start one after another. -/
theorem FunctionDef.sorted_layout (entries : List Nat) (start : Nat) (fs : List FunctionDef)
    (hentries : entries.Pairwise (· < ·)) (hlt : ∀ entry ∈ entries, entry < start) :
    (layout entries start fs).1.Pairwise (· < ·) := by
  induction fs generalizing entries start with
  | nil => exact hentries
  | cons f rest ih =>
    have hpos := f.length_code_pos (entries ++ [start]) start
    refine ih _ _ ?_ fun entry hentry => ?_
    · refine List.pairwise_append.mpr ⟨hentries, List.pairwise_singleton _ start, ?_⟩
      intro a ha b hb
      rw [List.mem_singleton.mp hb]
      exact hlt a ha
    · rcases List.mem_append.mp hentry with hold | hnew
      · have := hlt entry hold
        omega
      · rw [List.mem_singleton.mp hnew]
        omega

namespace Script

variable {s : Script} {k : Names} {site : Site} {i start : Nat} {f : FunctionDef}

theorem sorted_entries (s : Script) : s.entries.Pairwise (· < ·) :=
  FunctionDef.sorted_layout [] s.bodiesStart s.functions .nil fun _ h => (List.not_mem_nil h).elim

theorem nodup_entries (s : Script) : s.entries.Nodup := s.sorted_entries.imp Nat.ne_of_lt

/-- The function that starts at an index, with its number. -/
def startingAt? (s : Script) (start : Nat) : Option (Nat × FunctionDef) :=
  (s.entries.idxOf? start).bind fun i => (s.functions[i]?).map (i, ·)

theorem startingAt?_eq_some_iff :
    s.startingAt? start = some (i, f) ↔ s.entries[i]? = some start ∧ s.functions[i]? = some f := by
  have hidx : s.entries.idxOf? start = some i ↔ s.entries[i]? = some start := by
    rw [List.idxOf?_eq_some_iff, List.getElem?_eq_some_iff]
    constructor
    · rintro ⟨hi, hstart, -⟩
      exact ⟨hi, hstart⟩
    · rintro ⟨hi, hstart⟩
      refine ⟨hi, hstart, fun j hj heq => ?_⟩
      have hsame := (s.nodup_entries.getElem_inj_iff).mp (heq.trans hstart.symm)
      omega
  rw [← hidx, startingAt?]
  simp only [Option.bind_eq_some_iff, Option.map_eq_some_iff, Prod.mk.injEq]
  constructor
  · rintro ⟨j, hj, g, hg, rfl, rfl⟩
    exact ⟨hj, hg⟩
  · rintro ⟨hi, hf⟩
    exact ⟨i, hi, f, hf, rfl, rfl⟩

/-- How many arguments the function takes that starts at an index. -/
def arity (s : Script) (start : Nat) : Option Nat :=
  (s.startingAt? start).map (·.2.params.length)

/-- Where a number of functions are in view, they are known by their entries. -/
theorem knows (hfunctions : k.functions = (s.functions.take i).map FunctionDef.signature)
    (hentries : site.entries = s.entries.take i) : Knows s.arity k site := by
  intro name callee n h
  obtain ⟨f, hf, hcallee, hparams, -⟩ := k.find?_of_function? hfunctions h
  have hlt : callee < s.entries.length := by
    rw [s.length_entries]
    exact (List.getElem?_eq_some_iff.mp hf).1
  have hentry : s.entries[callee]? = some (site.entry callee) := by
    simp [Site.entry, hentries, hcallee, List.getElem?_eq_getElem hlt]
  rw [arity, startingAt?_eq_some_iff.mpr ⟨hentry, hf⟩]
  exact congrArg some hparams

/-! ## Programs -/

theorem functionsAt_program (s : Script) : FunctionsAt s.program s.entries s.functions := by
  have hrest : CodeAt s.program s.bodiesStart (s.bodies ++ s.mainCode) := by
    simpa [bodiesStart] using s.codeAt_program.right.tail
  exact FunctionDef.functionsAt_layout hrest.left

/-- The region of the function that starts at an index. -/
def region (s : Script) (start : Nat) : Region :=
  match s.startingAt? start with
  | some (i, f) =>
    (f.site (s.entries.take (i + 1))).region s.arity start (f.code (s.entries.take (i + 1)) start)
  | none => ⟨.call, fun _ _ => False⟩

/-- The functions in view in the body of a function are known, itself included. -/
theorem knows_body {globals : List String} (hf : s.functions[i]? = some f) :
    Knows s.arity
      (f.names ⟨globals, [] ++ (s.functions.take i).map FunctionDef.signature, none⟩)
      (f.site (s.entries.take (i + 1))) := by
  refine s.knows (i := i + 1) ?_ rfl
  simp [FunctionDef.names, List.take_add_one, hf]

theorem sound_region (h : s.WellFormed) (hs : s.startingAt? start = some (i, f)) :
    (s.region start).Sound s.program s.arity ∧ (s.region start).shapes start .zero := by
  obtain ⟨hstart, hf⟩ := startingAt?_eq_some_iff.mp hs
  obtain ⟨start', hstart', hcode⟩ := s.functionsAt_program i f hf
  obtain rfl := Option.some.inj (hstart.symm.trans hstart')
  simp only [region, hs]
  exact FunctionDef.sound_region (knows_body hf) (h.functions.getElem? hf) hcode

theorem startingAt?_of_arity {n : Nat} (h : s.arity start = some n) :
    ∃ i f, s.startingAt? start = some (i, f) ∧ f.params.length = n := by
  obtain ⟨⟨i, f⟩, hs, hn⟩ := Option.map_eq_some_iff.mp h
  exact ⟨i, f, hs, hn⟩

/-- **What is known of the functions of a well-formed script.** -/
def plan (s : Script) (h : s.WellFormed) : Plan s.program where
  arity := s.arity
  region := s.region
  sound harity := by
    obtain ⟨i, f, hs, -⟩ := startingAt?_of_arity harity
    exact (sound_region h hs).1
  body harity := by
    obtain ⟨i, f, hs, rfl⟩ := startingAt?_of_arity harity
    refine ⟨f.decls.length, ?_⟩
    simp only [region, hs]
    rfl
  entry harity := by
    obtain ⟨i, f, hs, -⟩ := startingAt?_of_arity harity
    exact (sound_region h hs).2

/-- The calls in the code of functions that are laid out are complete. The induction goes through
the functions with those before in view. -/
theorem nested_layout (entries : List Nat) (start : Nat) (fs : List FunctionDef)
    (hi : entries.length = i) (hfs : s.functions.drop i = fs)
    (hentries : (FunctionDef.layout entries start fs).1 = s.entries)
    (hk : k.functions = (s.functions.take i).map FunctionDef.signature)
    (h : FunctionDef.AllWellFormed k fs) :
    Nested s.arity (FunctionDef.layout entries start fs).2 := by
  induction fs generalizing entries start i k with
  | nil => exact .nil
  | cons f rest ih =>
    obtain ⟨hf, hrest⟩ := h
    have hget : s.functions[i]? = some f := by
      rw [← List.head?_drop, hfs]
      rfl
    have hfunctions : k.functions ++ [f.signature] =
        (s.functions.take (i + 1)).map FunctionDef.signature := by
      simp [List.take_add_one, hget, hk]
    have htake : entries ++ [start] = s.entries.take (i + 1) := by
      obtain ⟨more, he, -⟩ := FunctionDef.layout_entries (entries ++ [start])
        (start + (f.code (entries ++ [start]) start).length) rest
      have hall : s.entries = entries ++ [start] ++ more := hentries.symm.trans he
      rw [hall, List.take_left' (by simp [hi])]
    have hdrop : s.functions.drop (i + 1) = rest := by
      rw [← List.drop_drop, hfs]
      rfl
    refine (FunctionDef.nested_code (s.knows hfunctions htake) hf start).append ?_
    exact ih (entries ++ [start]) _ (by simp [hi]) hdrop hentries hfunctions hrest

/-- **The calls in the program of a well-formed script are complete.** -/
theorem nested_program (h : s.WellFormed) : Nested s.arity s.program.code.instrs.toList := by
  have hfirst : Knows s.arity (.top s.globals []) (.top []) := s.knows (i := 0) rfl rfl
  have hmain : Knows s.arity s.names s.site :=
    s.knows (i := s.functions.length) (by simp [names, Names.top])
      (by simp [site, Site.top, ← s.length_entries])
  have hbodies : Nested s.arity s.bodies :=
    nested_layout [] s.bodiesStart s.functions rfl rfl rfl rfl h.functions
  exact (Decl.nested_listCode hfirst s.decls h.decls).append (.cons rfl (hbodies.append
    (((Decl.nested_listCode hmain s.lateDecls h.lateDecls).append
      (Stmt.nested_block hmain _ s.body h.body)).append Site.nested_defaultReturn)))

end Script

/-! ## Expressions on their own -/

/-- No function is in view. -/
theorem Knows.top (globals : List String) (site : Site) :
    Knows (fun _ => none) (.top globals []) site := by
  intro name callee n h
  exact absurd (Names.callee_lt_of_function? h) (Nat.not_lt_zero _)

/-- The plan of a program without functions. -/
def Expr.plan (e : Expr) : Plan e.program where
  arity _ := none
  region _ := ⟨.call, fun _ _ => False⟩
  sound := nofun
  body := nofun
  entry := nofun

theorem Expr.nested_program {e : Expr} (h : e.WellFormed (.top [] [])) :
    Nested e.plan.arity e.program.code.instrs.toList :=
  (Expr.nested_closedCode (Knows.top [] _) h).append (.single rfl)

end StackScript
