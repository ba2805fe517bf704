import StackScript.Proofs.Emission.Emits
import StackScript.Proofs.Reading.Scope

/-!
# What a compiler keeps track of

`Tracks` is the relation that is kept between a reader and the compiler beside it: they are at the
same place and know the same names, and what has been emitted is a draft of some code. That code
may depend on the `Site` at which it will turn out to be. While a function is compiled, the number
of its locals is not known and any number fits (`Stage.Fits`); for each the fix-ups of the function
are what the draft waits for.

There is one lemma for each way to emit an instruction, open or not, and one for patching a jump.
-/

namespace StackScript

open Instr (Operands)

namespace Frame

/-- Parameters come before all other variables. -/
structure ParametersFirst (f : Frame) : Prop where
  le : f.params ≤ f.vars.length
  kind : ∀ v ∈ f.vars, v.isParameter = decide (v.ordinal < f.params)

variable {f f' : Frame} {name : String} {v : FrameVariable}

theorem ParametersFirst.addLocal (h : f.ParametersFirst) (hf : f.addLocal? name = some f') :
    f'.ParametersFirst := by
  obtain ⟨-, rfl⟩ := addLocal?_eq_some_iff.mp hf
  refine ⟨Nat.le_trans h.le (by simp), fun v hv => ?_⟩
  rcases List.mem_append.mp hv with hold | hnew
  · exact h.kind v hold
  · obtain rfl := List.mem_singleton.mp hnew
    exact (decide_eq_false (Nat.not_lt.mpr h.le)).symm

/-- A variable that is known stays what it is when one is added. -/
theorem find?_addLocal (hf : f.addLocal? name = some f') {name' : String}
    (h : f.find? name' = some v) : f'.find? name' = some v := by
  obtain ⟨-, rfl⟩ := addLocal?_eq_some_iff.mp hf
  unfold find? at h ⊢
  rw [List.find?_append, h, Option.some_or]

end Frame

namespace OpenFunction

/-- The offset of a variable of the function by its name. -/
def offset (f : OpenFunction) (s : Site) (name : String) : Int :=
  ((f.frame.find? name).map (s.offset ·.ordinal)).getD 0

/-- What the code of the function waits for. -/
def fixups (f : OpenFunction) (s : Site) : List (Nat × Operands) :=
  f.localFixups.map (fun x => (x.1, .offset (f.offset s x.2))) ++
    f.returnFixups.map fun index => (index, .counts s.params s.locals)

/-- The invariant of the function that is being compiled. -/
structure Regular (f : OpenFunction) : Prop where
  parametersFirst : f.frame.ParametersFirst
  known : ∀ x ∈ f.localFixups, ∃ v, f.frame.find? x.2 = some v

variable {f : OpenFunction} {s : Site}

theorem mem_fixups {x : Nat × Operands} :
    x ∈ f.fixups s ↔ (∃ y ∈ f.localFixups, x = (y.1, .offset (f.offset s y.2))) ∨
      ∃ index ∈ f.returnFixups, x = (index, .counts s.params s.locals) := by
  simp only [fixups, List.mem_append, List.mem_map, eq_comm]

/-- No jump waits for the end of a function. -/
theorem not_fits_jump {x : Nat × Operands} (hx : x ∈ f.fixups s) {i : Instr} {target : Nat}
    (hi : (Operands.target target).fits i.kind) : x.2.fits i.kind = false := by
  rcases mem_fixups.mp hx with ⟨y, -, rfl⟩ | ⟨index, -, rfl⟩ <;> cases i <;> cases hi <;> rfl

theorem Regular.addLocal (h : f.Regular) {name : String} {frame : Frame}
    (hf : f.frame.addLocal? name = some frame) : Regular { f with frame } :=
  ⟨h.parametersFirst.addLocal hf, fun x hx => by
    obtain ⟨v, hv⟩ := h.known x hx
    exact ⟨v, Frame.find?_addLocal hf hv⟩⟩

theorem Regular.fixups_addLocal (h : f.Regular) {name : String} {frame : Frame}
    (hf : f.frame.addLocal? name = some frame) (s : Site) :
    fixups { f with frame } s = f.fixups s := by
  refine congrArg (· ++ _) (List.map_congr_left fun x hx => ?_)
  obtain ⟨v, hv⟩ := h.known x hx
  simp only [offset, hv, Frame.find?_addLocal hf hv]

end OpenFunction

namespace Compilation

/-- What the code waits for. -/
def fixups (c : Compilation) (s : Site) : List (Nat × Operands) :=
  (c.current.map (·.fixups s)).getD []

end Compilation

/-- What stays the same while a part of a text is compiled. -/
structure Stage where
  source : String
  /-- How many levels can be opened altogether. -/
  limit : Nat
  /-- The complete functions. -/
  functions : List FunctionEntry
  /-- Inside a function, where it starts and how many parameters it has. -/
  inside : Option (Nat × Nat)

namespace Stage

/-- Where the functions start, by number. -/
def entries (g : Stage) : List Nat := g.functions.map (·.entry) ++ (g.inside.map (·.1)).toList

/-- The part may turn out to be at this site. -/
structure Fits (g : Stage) (s : Site) : Prop where
  entries : s.entries = g.entries
  params : s.params = (g.inside.map (·.2)).getD 0
  locals : g.inside = none → s.locals = 0

variable {g : Stage} {s : Site}

theorem fits_exists (g : Stage) : ∃ s, g.Fits s := ⟨⟨g.entries, _, 0⟩, rfl, rfl, fun _ => rfl⟩

/-- Outside all functions there is no choice. -/
theorem fits_iff_top (h : g.inside = none) : g.Fits s ↔ s = .top g.entries := by
  obtain ⟨entries, params, locals⟩ := s
  refine ⟨fun hs => ?_, ?_⟩
  · obtain ⟨hentries, hparams, hlocals⟩ := hs
    rw [h] at hparams
    cases hentries
    cases hparams
    cases hlocals h
    rfl
  · rintro ⟨⟩
    exact ⟨rfl, by rw [h]; rfl, fun _ => rfl⟩

end Stage

/-- A compiler works beside a reader and what it has emitted is a draft of `t`. It may open `levels`
more levels. -/
structure Tracks (g : Stage) (levels : Nat) (t : Site → List Instr) (r : Reading)
    (c : Compilation) : Prop where
  place : SamePlace g.source r c
  globals : c.globals = r.scope.globals
  functions : c.functions = g.functions
  signatures : r.scope.functions = g.functions.map fun f => ⟨f.name, f.params⟩
  frame : r.scope.frame = c.current.map (·.frame)
  valid : r.scope.Valid
  inside : c.current.map (fun f => (f.entry, f.frame.params)) = g.inside
  depth : c.depth + levels = g.limit
  regular : ∀ f, c.current = some f → f.Regular
  pending : ∀ s, g.Fits s → c.code.Pending (c.fixups s) (t s)

/-- What a variable is for a compiler. -/
def Place.ref : Place → VariableRef
  | .global slot => .global slot
  | .frame _ => .frame

namespace Tracks

variable {g : Stage} {levels : Nat} {t t' : Site → List Instr} {r : Reading}
  {c : Compilation}

theorem moves : Moves g.source (Tracks g levels t) where
  place h := h.place
  move hrest h := { h with place := ⟨hrest.trans h.place.rest, rfl⟩ }

/-- Only the sites that fit matter. -/
theorem congr (h : Tracks g levels t r c) (ht : ∀ s, g.Fits s → t s = t' s) :
    Tracks g levels t' r c :=
  { h with pending := fun s hs => ht s hs ▸ h.pending s hs }

/-- Nothing has been added. -/
theorem append_nil (h : Tracks g levels t r c) : Tracks g levels (fun s => t s ++ []) r c :=
  h.congr fun s _ => (List.append_nil (t s)).symm

theorem size_eq (h : Tracks g levels t r c) {s : Site} (hs : g.Fits s) :
    c.code.size = (t s).length := (h.pending s hs).size

/-! ## Names -/

theorem frame_eq_some (h : Tracks g levels t r c) {f : OpenFunction} (hf : c.current = some f) :
    r.scope.frame = some f.frame := by
  rw [h.frame, hf, Option.map_some]

theorem frame_eq_none (h : Tracks g levels t r c) (hc : c.current = none) :
    r.scope.frame = none := by
  rw [h.frame, hc, Option.map_none]

theorem complete? (h : Tracks g levels t r c) (name : String) :
    c.complete? name = (r.scope.complete? name).map fun f => (g.entries[f.1]?.getD 0, f.2) := by
  unfold Compilation.complete? Scope.complete?
  rw [h.signatures, h.functions, List.findIdx?_map, List.find?_eq_bind_findIdx?_getElem?]
  change Option.map _ ((g.functions.findIdx? (·.name == name)).bind _) =
    Option.map _ ((g.functions.findIdx? (·.name == name)).bind _)
  cases hi : g.functions.findIdx? (·.name == name) with
  | none => rfl
  | some i =>
    obtain ⟨hlt, -⟩ := List.findIdx?_eq_some_iff_getElem.mp hi
    simp [Stage.entries, List.getElem?_append, hlt]

/-- The compiler calls a function at its entry, and the reader knows it by its number. -/
theorem function? (h : Tracks g levels t r c) (name : String) :
    c.function? name = (r.scope.function? name).map fun f => (g.entries[f.1]?.getD 0, f.2) := by
  unfold Compilation.function? Scope.function?
  rw [h.frame]
  have hinside := h.inside
  cases hcurrent : c.current with
  | none => exact h.complete? name
  | some f =>
    rw [hcurrent] at hinside
    simp only [Option.map_some]
    split
    · simp [Stage.entries, ← hinside, h.signatures]
    · exact h.complete? name

/-- The compiler finds the variable that the reader finds. -/
theorem resolve? (h : Tracks g levels t r c) (name : String) :
    c.resolve? name = (r.scope.place? name).map Place.ref := by
  unfold Compilation.resolve? Scope.place?
  rw [h.frame, h.globals]
  have hbind : (c.current.map (·.frame)).bind (·.find? name) =
      c.current.bind (·.frame.find? name) := by
    cases c.current <;> rfl
  rw [hbind]
  cases c.current.bind (·.frame.find? name) with
  | some v => rfl
  | none =>
    simp only [Option.isSome_none, Bool.false_eq_true, if_false, Option.map_map]
    rfl

/-! ## Emitting -/

/-- An instruction that is complete. -/
theorem push (h : Tracks g levels t r c) (i : Instr) :
    Tracks g levels (fun s => t s ++ [i]) r { c with code := (c.code.push i).2 } :=
  { h with
    place := ⟨h.place.rest, h.place.position⟩
    pending := fun s hs => (h.pending s hs).push (.inl ⟨rfl, rfl⟩)
      fun x => (by simp [Compilation.fixups]) }

/-- An instruction that is left open in a function, which makes a note of it. -/
theorem pushOpen (h : Tracks g levels t r c) {f f' : OpenFunction} {i : Instr}
    {o : Site → Operands} (hf : c.current = some f) (hframe : f'.frame = f.frame)
    (hentry : f'.entry = f.entry) (hregular : f'.Regular) (hfits : ∀ s, (o s).fits i.kind)
    (hmem : ∀ s x, x ∈ f'.fixups s ↔ x ∈ f.fixups s ∨ x ∈ [(c.code.size, o s)]) :
    Tracks g levels (fun s => t s ++ [i.withOperands (o s)]) r
      { c with code := (c.code.push i).2, current := some f' } := by
  refine { h with
    place := ⟨h.place.rest, h.place.position⟩
    frame := by rw [h.frame, hf, Option.map_some, Option.map_some, hframe]
    inside := by simpa only [hf, Option.map_some, hentry, hframe] using h.inside
    regular := fun f'' hf'' => ?_
    pending := fun s hs => ?_ }
  · cases hf''
    exact hregular
  · refine (h.pending s hs).push (.inr ⟨o s, rfl, hfits s, rfl⟩) fun x => ?_
    simpa only [Compilation.fixups, hf, Option.map_some, Option.getD_some] using hmem s x

end Tracks

namespace Compiler

theorem bind_get {α : Type} (f : Compilation → Compiler α) (source : String) (c : Compilation) :
    (get >>= f : Compiler α) source c = f c source c := rfl

theorem emit_push (i : Instr) (source : String) (c : Compilation) :
    emit (·.push i) source c = .ok c.code.size { c with code := (c.code.push i).2 } := by
  simp only [emit, Code.push_eq]

theorem patch_ok {change : Code → Except Code.PatchError Code} {source : String} {c : Compilation}
    {code : Code} (h : change c.code = .ok code) :
    patch change source c = .ok () { c with code } := by
  simp only [patch, h]

end Compiler

namespace Tracks

variable {g : Stage} {levels : Nat} {t : Site → List Instr} {r : Reading}
  {c : Compilation}

/-- An access to a variable of the frame. -/
theorem access (h : Tracks g levels t r c) {name : String} {v : FrameVariable}
    (hv : r.scope.frame.bind (·.find? name) = some v) {i : Instr}
    (hi : ∀ offset, (Operands.offset offset).fits i.kind) :
    ∃ c', (Compiler.emit (·.push i) >>= (Compiler.noteLocal · name)) g.source c = .ok () c' ∧
      Tracks g levels
        (fun s => t s ++ [i.withOperands (.offset (s.offset v.ordinal))]) r c' := by
  rw [h.frame] at hv
  obtain ⟨frame, hframe, hv⟩ := Option.bind_eq_some_iff.mp hv
  obtain ⟨f, hf, rfl⟩ := Option.map_eq_some_iff.mp hframe
  have hregular := h.regular f hf
  refine ⟨_, Compiler.bind_ok (Compiler.emit_push i g.source c), ?_⟩
  rw [hf]
  refine h.pushOpen hf rfl rfl ⟨hregular.parametersFirst, fun x hx => ?_⟩ (fun _ => hi _)
    fun s x => ?_
  · rcases List.mem_append.mp hx with hold | hnew
    · exact hregular.known x hold
    · obtain rfl := List.mem_singleton.mp hnew
      exact ⟨v, hv⟩
  · simp only [OpenFunction.fixups, List.map_append, List.map_cons, List.map_nil, List.mem_append,
      OpenFunction.offset, hv, Option.map_some, Option.getD_some]
    exact or_right_comm

theorem place?_cases {scope : Scope} {name : String} {p : Place} (hp : scope.place? name = some p) :
    (∃ v, scope.frame.bind (·.find? name) = some v ∧ p = .frame v.ordinal) ∨
      ∃ slot, p = .global slot := by
  unfold Scope.place? at hp
  cases hv : scope.frame.bind (·.find? name) with
  | some v =>
    rw [hv] at hp
    exact .inl ⟨v, rfl, (Option.some.inj hp).symm⟩
  | none =>
    rw [hv] at hp
    obtain ⟨slot, -, rfl⟩ := Option.map_eq_some_iff.mp hp
    exact .inr ⟨slot, rfl⟩

/-- A variable is read. -/
theorem load (h : Tracks g levels t r c) {name : String} {p : Place}
    (hp : r.scope.place? name = some p) (position : Nat) :
    ∃ c', Compiler.emitLoad name position g.source c = .ok () c' ∧
      Tracks g levels (fun s => t s ++ [p.load s]) r c' := by
  have hresolve := h.resolve? name
  rw [hp, Option.map_some] at hresolve
  rcases place?_cases hp with ⟨v, hv, rfl⟩ | ⟨slot, rfl⟩
  · obtain ⟨c', hrun, h'⟩ := h.access hv (i := .getLocal 0) fun _ => rfl
    refine ⟨c', ?_, h'⟩
    rw [Compiler.emitLoad, Compiler.bind_get, hresolve]
    exact hrun
  · refine ⟨_, ?_, h.push (.getGlobal slot)⟩
    rw [Compiler.emitLoad, Compiler.bind_get, hresolve]
    exact Compiler.bind_ok (Compiler.emit_push _ g.source c)

/-- A variable is written. -/
theorem store (h : Tracks g levels t r c) {name : String} {p : Place}
    (hp : r.scope.place? name = some p) (settings : Settings) (position : Nat) :
    ∃ c', Compiler.emitStore settings name position g.source c = .ok () c' ∧
      Tracks g levels (fun s => t s ++ [p.store s]) r c' := by
  have hresolve := h.resolve? name
  rw [hp, Option.map_some] at hresolve
  have htarget : Compiler.storeTarget settings name position g.source c = .ok p.ref c := by
    rw [Compiler.storeTarget, Compiler.bind_get, hresolve]
    rfl
  rw [Compiler.emitStore, Compiler.bind_ok htarget]
  rcases place?_cases hp with ⟨v, hv, rfl⟩ | ⟨slot, rfl⟩
  · exact h.access hv (i := .setLocal 0) fun _ => rfl
  · exact ⟨_, Compiler.bind_ok (Compiler.emit_push (.setGlobal slot) g.source c), h.push _⟩

/-- A return. Only inside a function it waits. -/
theorem ret (h : Tracks g levels t r c) :
    ∃ c', Compiler.emitReturn g.source c = .ok () c' ∧
      Tracks g levels (fun s => t s ++ [.ret s.params s.locals]) r c' := by
  refine ⟨_, Compiler.bind_ok (Compiler.emit_push (.ret 0 0) g.source c), ?_⟩
  cases hf : c.current with
  | none =>
    have hpush := h.push (.ret 0 0)
    rw [hf] at hpush
    refine hpush.congr fun s hs => ?_
    have hinside := h.inside
    rw [hf] at hinside
    rw [(Stage.fits_iff_top hinside.symm).mp hs]
    rfl
  | some f =>
    have hregular := h.regular f hf
    refine h.pushOpen (i := .ret 0 0) (o := fun s => .counts s.params s.locals) hf rfl rfl
      ⟨hregular.parametersFirst, hregular.known⟩ (fun _ => rfl) fun s x => ?_
    simp only [OpenFunction.fixups, List.map_append, List.map_cons, List.map_nil, List.mem_append]
    exact or_assoc.symm

/-! ## Patching -/

/-- The target of a jump is set. -/
theorem patch (h : Tracks g levels t r c) {index target : Nat} {i : Instr}
    {before after : Site → List Instr} (change : Code → Except Code.PatchError Code)
    (hchange : change c.code = c.code.patchJump index target)
    (hindex : ∀ s, g.Fits s → index = (before s).length)
    (ht : ∀ s, g.Fits s → t s = before s ++ i :: after s)
    (hi : (Operands.target target).fits i.kind) :
    ∃ c', Compiler.patch change g.source c = .ok () c' ∧
      Tracks g levels (fun s => before s ++ i.withOperands (.target target) :: after s) r c' := by
  have hget : ∀ s, g.Fits s → (t s)[index]? = some i := fun s hs => by
    rw [ht s hs, hindex s hs, List.getElem?_append_right (Nat.le_refl _), Nat.sub_self,
      List.getElem?_cons_zero]
  have hnot : ∀ s, ∀ x ∈ c.fixups s, x.2.fits i.kind = false := by
    intro s x hx
    unfold Compilation.fixups at hx
    cases hf : c.current with
    | none => simp [hf] at hx
    | some f =>
      rw [hf] at hx
      exact OpenFunction.not_fits_jump hx hi
  -- no jump waits for the end of the function, so what is emitted is the jump itself, at any site
  obtain ⟨s, hs⟩ := g.fits_exists
  have hfound := (h.pending s hs).get?_of_not_fits (hget s hs) (hnot s)
  refine ⟨_, Compiler.patch_ok (hchange.trans (Code.patchJump_eq_ok hfound hi)), { h with
    place := ⟨h.place.rest, h.place.position⟩
    pending := fun s hs => ?_ }⟩
  have hset := (h.pending s hs).set (j := i.withOperands (.target target)) (hget s hs) (hnot s)
  rwa [ht s hs, hindex s hs, List.set_append_right _ _ (Nat.le_refl _), Nat.sub_self,
    List.set_cons_zero, ← hindex s hs] at hset

theorem patchJump (h : Tracks g levels t r c) {index : Nat} (target : Nat) {i : Instr}
    {before after : Site → List Instr} (hindex : ∀ s, g.Fits s → index = (before s).length)
    (ht : ∀ s, g.Fits s → t s = before s ++ i :: after s)
    (hi : (Operands.target target).fits i.kind) :
    ∃ c', Compiler.patch (·.patchJump index target) g.source c = .ok () c' ∧
      Tracks g levels (fun s => before s ++ i.withOperands (.target target) :: after s) r c' :=
  h.patch (·.patchJump index target) rfl hindex ht hi

theorem patchJumpHere (h : Tracks g levels t r c) {index : Nat} {i : Instr}
    {before after : Site → List Instr} (hindex : ∀ s, g.Fits s → index = (before s).length)
    (ht : ∀ s, g.Fits s → t s = before s ++ i :: after s)
    (hi : (Operands.target c.code.size).fits i.kind) :
    ∃ c', Compiler.patch (·.patchJumpHere index) g.source c = .ok () c' ∧
      Tracks g levels (fun s => before s ++ i.withOperands (.target (t s).length) :: after s) r
        c' := by
  obtain ⟨c', hrun, h'⟩ := h.patch (·.patchJumpHere index) rfl hindex ht hi
  exact ⟨c', hrun, h'.congr fun s hs => by rw [h.size_eq hs]⟩

end Tracks

section Rules

variable {α β : Type} {g : Stage} {levels : Nat} {t : Site → List Instr} {r : Reading}
  {c : Compilation} {x : Reader α} {i : Instr} {settings : Settings}

/-- A compiler emits an instruction and goes on. -/
theorem Emits.emit {y : Nat → Compiler β} {Q : α → β → Reading → Compilation → Prop}
    (h : Tracks g levels t r c)
    (hrest : ∀ c', Tracks g levels (fun s => t s ++ [i]) r c' →
      Emits g.source x (y c.code.size) r c' Q) :
    Emits g.source x (Compiler.emit (·.push i) >>= y) r c Q :=
  .first (Compiler.emit_push i g.source c) (hrest _ (h.push i))

/-- A compiler emits the code of what a reader reads, which depends on the site and on the index at
which it starts. -/
def EmitsCode (g : Stage) (levels : Nat) (code : α → Site → Nat → List Instr) (x : Reader α)
    (y : Compiler β) : Prop :=
  ∀ t r c, Tracks g levels t r c → Emits g.source x y r c fun a _ r' c' =>
    Tracks g levels (fun s => t s ++ code a s (t s).length) r' c'

/-! ## Levels -/

theorem Compiler.enter_ok {source : String} (h : c.depth < settings.maxNesting) :
    enter settings source c = .ok () { c with depth := c.depth + 1 } := by
  rw [enter, bind_get, if_neg (Nat.not_le.mpr h)]
  rfl

theorem Compiler.enter_refuse {source : String} (h : settings.maxNesting ≤ c.depth) :
    enter settings source c =
      .error ⟨.nestingTooDeep settings.maxNesting, c.position⟩ c := by
  rw [enter, bind_get, if_pos h]
  rfl

variable {code : α → Site → Nat → List Instr}

/-- Where no level is left both refuse the text. -/
theorem EmitsCode.tooDeep (hlimit : g.limit = settings.maxNesting) {y : Compiler Unit} :
    EmitsCode g 0 code (Reader.tooDeep settings) (Compiler.nested settings y) := by
  intro t r c h
  have hdepth := h.depth
  rw [hlimit] at hdepth
  refine ⟨c, Compiler.bind_error ?_⟩
  rw [Compiler.enter_refuse (Nat.le_of_eq hdepth.symm), h.place.position]

/-- A level is opened and closed again. -/
theorem EmitsCode.nested (hlimit : g.limit = settings.maxNesting) {y : Compiler Unit}
    (hy : EmitsCode g levels code x y) :
    EmitsCode g (levels + 1) code x (Compiler.nested settings y) := by
  intro t r c h
  have hdepth := h.depth
  refine .first (Compiler.enter_ok (by omega)) ?_
  have hentered : Tracks g levels t r { c with depth := c.depth + 1 } :=
    { h with
      place := ⟨h.place.rest, h.place.position⟩
      depth := by rw [← hdepth]; exact Nat.add_right_comm _ _ _ }
  refine (hy t r _ hentered).last fun a _ r' c' h' => ⟨(), _, rfl, ?_⟩
  have hdepth' := h'.depth
  exact { h' with
    place := ⟨h'.place.rest, h'.place.position⟩
    depth := by change c'.depth - 1 + (levels + 1) = g.limit; omega }

end Rules

end StackScript
