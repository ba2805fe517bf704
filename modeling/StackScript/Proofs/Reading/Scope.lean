import StackScript.Proofs.Script.Rules

/-!
# The names that a scope holds

A reader keeps the names it knows in a scope. `Scope.names` is what is in view by it, `Scope.Valid`
the invariant that readers keep: variables of a frame are numbered in order, and the function that
is being read has a name of its own. Under it a scope finds a name where it is in view
(`Scope.place?_eq`, `Scope.function?_eq`), and adding a variable to a scope introduces its name
(`Scope.addLocal_names`, `Scope.declare_names`).
-/

namespace StackScript

namespace Frame

/-- The names of the variables in order. -/
def names (f : Frame) : List String := f.vars.map (·.name)

@[simp] theorem length_names (f : Frame) : f.names.length = f.vars.length := List.length_map _

/-- Variables are numbered in the order of declaration. -/
def Numbered (f : Frame) : Prop :=
  ∀ (i : Nat) (v : FrameVariable), f.vars[i]? = some v → v.ordinal = i

variable {f f' : Frame} {name : String}

theorem find?_isSome_iff : (f.find? name).isSome ↔ name ∈ f.names := by
  simp [find?, names]

/-- The number of a variable is the place of its name. -/
theorem map_ordinal_find? (h : f.Numbered) (name : String) :
    (f.find? name).map (·.ordinal) = f.names.idxOf? name := by
  have hidx : f.names.idxOf? name = f.vars.findIdx? (·.name == name) := by
    simp [names, List.idxOf?, List.findIdx?_map, Function.comp_def]
  rw [find?, List.find?_eq_bind_findIdx?_getElem?, hidx]
  cases hi : f.vars.findIdx? (·.name == name) with
  | none => rfl
  | some i =>
    obtain ⟨hlt, -⟩ := List.findIdx?_eq_some_iff_getElem.mp hi
    simp [List.getElem?_eq_getElem hlt, h i _ (List.getElem?_eq_getElem hlt)]

/-- Adding a variable with the next number keeps the numbering. -/
theorem Numbered.snoc (h : f.Numbered) (isParameter : Bool) (params : Nat) :
    Numbered { f with params, vars := f.vars ++ [f.next name isParameter] } := by
  intro i v hv
  by_cases hi : i < f.vars.length
  · exact h i v (by rwa [List.getElem?_append_left hi] at hv)
  · rw [List.getElem?_append_right (by omega)] at hv
    obtain ⟨hzero, rfl⟩ := List.getElem?_eq_some_iff.mp hv
    simp only [List.length_singleton] at hzero
    simp [next]
    omega

theorem addLocal?_eq_some_iff :
    f.addLocal? name = some f' ↔
      name ∉ f.names ∧ f' = { f with vars := f.vars ++ [f.next name false] } := by
  unfold addLocal?
  rw [← find?_isSome_iff]
  split
  · rename_i h
    exact ⟨fun hnone => (by cases hnone), fun hnew => absurd h hnew.1⟩
  · rename_i h
    exact ⟨fun hf => ⟨h, (Option.some.inj hf).symm⟩, fun hf => congrArg some hf.2.symm⟩

theorem addParameter?_eq_some_iff :
    f.addParameter? name = some f' ↔
      name ∉ f.names ∧
        f' = { f with params := f.params + 1, vars := f.vars ++ [f.next name true] } := by
  unfold addParameter?
  rw [← find?_isSome_iff]
  split
  · rename_i h
    exact ⟨fun hnone => (by cases hnone), fun hnew => absurd h hnew.1⟩
  · rename_i h
    exact ⟨fun hf => ⟨h, (Option.some.inj hf).symm⟩, fun hf => congrArg some hf.2.symm⟩

end Frame

namespace Scope

/-- The names in view. -/
def names (s : Scope) : Names :=
  { globals := s.globals.names
    functions := s.functions ++ (s.frame.map fun f => ⟨f.name, f.params⟩).toList
    frame := s.frame.map Frame.names }

/-- The invariant of readers. -/
structure Valid (s : Scope) : Prop where
  numbered : ∀ f, s.frame = some f → f.Numbered
  new : ∀ f, s.frame = some f → f.name ∉ s.functions.map (·.name)

variable {s : Scope} {f : Frame} {name : String}

theorem valid_empty : Valid ∅ := ⟨fun f h => (by cases h), fun f h => (by cases h)⟩

theorem valid_of_frame_none (h : s.frame = none) : s.Valid :=
  ⟨fun f hf => (by rw [h] at hf; cases hf), fun f hf => (by rw [h] at hf; cases hf)⟩

theorem frame_names_eq_none : s.names.frame = none ↔ s.frame = none := by
  simp [names]

/-- A scope finds variables where they are in view. -/
theorem place?_eq (h : s.Valid) (name : String) : s.place? name = s.names.place? name := by
  unfold place? Names.place? Names.frameNames
  cases hframe : s.frame with
  | none => simp [names, hframe, Globals.slot?]
  | some f =>
    have hfind := f.map_ordinal_find? (h.numbered f hframe) name
    rw [Option.bind_some]
    simp only [names, hframe, Option.map_some, Option.getD_some]
    cases hv : f.find? name with
    | none =>
      rw [hv, Option.map_none] at hfind
      simp [← hfind, Globals.slot?]
    | some v =>
      rw [hv, Option.map_some] at hfind
      simp [← hfind]

/-- A scope finds functions where they are in view. -/
theorem function?_eq (h : s.Valid) (name : String) : s.function? name = s.names.function? name := by
  unfold function? complete? Names.function?
  cases hframe : s.frame with
  | none => simp [names, hframe]
  | some f =>
    simp only [names, hframe, Option.map_some, Option.toList_some, List.findIdx?_append,
      List.findIdx?_singleton]
    split
    · rename_i hname
      subst hname
      have hnone : s.functions.findIdx? (·.name == f.name) = none := by
        simpa [List.findIdx?_eq_none_iff] using h.new f hframe
      simp [hnone]
    · rename_i hname
      cases hi : s.functions.findIdx? (·.name == name) with
      | none => simp [hname]
      | some i =>
        obtain ⟨hlt, -⟩ := List.findIdx?_eq_some_iff_getElem.mp hi
        simp [List.getElem?_append_left hlt]

/-! ## Adding names -/

/-- A new local is introduced at the end of the frame. -/
theorem addLocal_names {f' : Frame} (hframe : s.frame = some f) (h : f.addLocal? name = some f') :
    { s with frame := some f' }.names = s.names.introduce name ∧ name ∉ s.names.frameNames ∧
      (s.names.introduce name).place? name = some (.frame f.vars.length) := by
  obtain ⟨hnew, rfl⟩ := Frame.addLocal?_eq_some_iff.mp h
  have hnone : f.names.idxOf? name = none := List.idxOf?_eq_none_iff.mpr hnew
  refine ⟨?_, ?_, ?_⟩
  · simp [names, Names.introduce, hframe, Frame.names, Frame.next]
  · simpa [Names.frameNames, names, hframe] using hnew
  · rw [List.idxOf?] at hnone
    simp [Names.place?, Names.frameNames, Names.introduce, names, hframe, List.idxOf?,
      List.findIdx?_append, hnone]

theorem Valid.addLocal {f' : Frame} (hs : s.Valid) (hframe : s.frame = some f)
    (h : f.addLocal? name = some f') : Valid { s with frame := some f' } := by
  obtain ⟨-, rfl⟩ := Frame.addLocal?_eq_some_iff.mp h
  refine ⟨?_, ?_⟩
  · rintro _ ⟨⟩
    exact (hs.numbered f hframe).snoc false f.params
  · rintro _ ⟨⟩
    exact hs.new f hframe

/-- Outside all functions a declared name is a global. -/
theorem declare_names (hframe : s.frame = none) (name : String) :
    { s with globals := (s.globals.declare name).2 }.names = s.names.introduce name ∧
      (s.names.introduce name).place? name = some (.global (s.globals.declare name).1) := by
  unfold Globals.declare Globals.slot?
  cases hslot : s.globals.names.idxOf? name with
  | some slot =>
    have hmem : name ∈ s.globals.names := by
      refine Decidable.byContradiction fun hnot => ?_
      rw [List.idxOf?_eq_none_iff.mpr hnot] at hslot
      cases hslot
    simp [names, Names.introduce, hframe, hmem, Names.place?, Names.frameNames, hslot]
  | none =>
    have hnew : name ∉ s.globals.names := List.idxOf?_eq_none_iff.mp hslot
    rw [List.idxOf?] at hslot
    simp [names, Names.introduce, hframe, hnew, Names.place?, Names.frameNames, List.idxOf?,
      List.findIdx?_append, hslot, Globals.size]

/-- When a function is complete its variables go out of view and it stays in view. -/
theorem complete_names {k : Names} {f : FunctionDef} {locals : List String}
    (hk : k.frame = none) (h : s.names = (f.names k).declare locals) :
    { s with functions := s.functions ++ [f.signature], frame := none }.names =
      { k with functions := k.functions ++ [f.signature] } := by
  obtain ⟨globals, functions, frame⟩ := k
  cases hk
  cases hframe : s.frame with
  | none => simp [names, hframe, FunctionDef.names, Names.declare] at h
  | some frame =>
    simp only [names, hframe, FunctionDef.names, Names.declare, Option.map_some,
      Option.toList_some, Names.mk.injEq] at h
    obtain ⟨hglobals, hfunctions, -⟩ := h
    have hold := (List.append_inj hfunctions (by simpa using congrArg List.length hfunctions)).1
    simp [names, hglobals, hold]

end Scope

end StackScript
