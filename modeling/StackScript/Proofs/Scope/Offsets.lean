import Mathlib.Algebra.Ring.Int.Defs
import Mathlib.Algebra.Ring.Nat
import Mathlib.Data.List.Induction
import Mathlib.Data.Set.Function
import StackScript.Scope.Frame

/-!
# The offsets of a frame's variables

Names are offered to a frame one after another, as parameters and then as locals, and a name that is
taken is refused (`Frame.offer`). What is left are the distinct names in the order in which they
came (`Frame.declared_eq`), so the offset of a name is told by its place among them
(`Frame.offset?_parameter`, `Frame.offset?_local`).

**`Frame.offsets_complete`**: the offsets of the parameters are the numbers from `2` on, those of
the locals the negative ones, each number of one name only. The arithmetic that leads to them does
not leave 32 bits.
-/

namespace StackScript

namespace Frame

/-! ## Offering names -/

/-- The answer to a name that is offered to a frame, as a parameter or as a local: the variable that
it gets, or nothing if the name is taken. Then the frame after it. -/
def offer (f : Frame) (isParameter : Bool) (name : String) : Option FrameVariable × Frame :=
  match if isParameter then f.addParameter? name else f.addLocal? name with
  | some f' => (f'.find? name, f')
  | none => (none, f)

/-- A frame after names have been offered to it one after another. -/
def offerAll (isParameter : Bool) (names : List String) (f : Frame) : Frame :=
  names.foldl (fun f name => (f.offer isParameter name).2) f

/-- The frame of a function to which names have been offered, first as parameters and then as
locals. -/
def declared (name : String) (params locals : List String) : Frame :=
  ((empty name).offerAll true params).offerAll false locals

/-- The offset of the variable of a name, once it is assigned. -/
def offset? (f : Frame) (name : String) : Option Int := (f.find? name).bind (·.offset)

/-- The variable of a name with a place in the order of declaration. -/
def variableAt (params ordinal : Nat) (name : String) : FrameVariable :=
  ⟨name, ordinal, ordinal < params, none⟩

/-- The frame with given names, the first of which are parameters. -/
def ofNames (name : String) (params : Nat) (names : List String) : Frame :=
  ⟨name, params, names.mapIdx (variableAt params)⟩

section Names

variable {name n : String} {params : Nat} {names : List String}

/-- The first variable of a name is the one where the name is first. -/
theorem find?_mapIdx {g : Nat → String → FrameVariable} (h : ∀ i n, (g i n).name = n)
    (names : List String) (n : String) :
    (names.mapIdx g).find? (·.name == n) = (names.idxOf? n).map (g · n) := by
  induction names generalizing g with
  | nil => rfl
  | cons first names ih =>
    rw [List.mapIdx_cons, List.find?_cons, h, List.idxOf?_cons]
    cases hfirst : first == n with
    | true =>
      cases eq_of_beq hfirst
      rfl
    | false =>
      rw [if_neg Bool.false_ne_true, ih fun i n => h (i + 1) n, Option.map_map]
      rfl

theorem find?_ofNames :
    (ofNames name params names).find? n = (names.idxOf? n).map (variableAt params · n) :=
  find?_mapIdx (fun _ _ => rfl) names n

theorem find?_ofNames_of_notMem (name : String) (params : Nat) (h : n ∉ names) :
    (ofNames name params names).find? n = none := by
  rw [find?_ofNames, List.idxOf?_eq_none_iff.mpr h, Option.map_none]

/-- A name that is taken is refused, without effect. -/
theorem offer_of_mem (isParameter : Bool) (h : n ∈ names) :
    (ofNames name params names).offer isParameter n = (none, ofNames name params names) := by
  have hsome : ((ofNames name params names).find? n).isSome := by
    have hidx : names.idxOf? n ≠ none := fun hnone => List.idxOf?_eq_none_iff.mp hnone h
    rwa [find?_ofNames, Option.isSome_map, Option.isSome_iff_ne_none]
  cases isParameter with
  | true => simp only [offer, addParameter?, if_true, hsome]
  | false => simp only [offer, addLocal?, Bool.false_eq_true, if_false, hsome, if_true]

/-- A new name gets the next number. -/
theorem find?_snoc (h : n ∉ names) :
    (ofNames name params (names ++ [n])).find? n = some (variableAt params names.length n) := by
  have hidx : (names ++ [n]).idxOf? n = some names.length := by
    have hnone := List.idxOf?_eq_none_iff.mpr h
    rw [List.idxOf?] at hnone ⊢
    simp [List.findIdx?_append, hnone]
  rw [find?_ofNames, hidx, Option.map_some]

theorem offer_parameter (h : n ∉ names) :
    (ofNames name names.length names).offer true n =
      (some ⟨n, names.length, true, none⟩, ofNames name (names.length + 1) (names ++ [n])) := by
  -- one more parameter, and all the names before are parameters still
  have hvars : names.mapIdx (variableAt names.length) =
      names.mapIdx (variableAt (names.length + 1)) :=
    List.mapIdx_eq_mapIdx_iff.mpr fun i hi => by simp [variableAt, hi, Nat.lt_succ_of_lt hi]
  have hadd : (ofNames name names.length names).addParameter? n =
      some (ofNames name (names.length + 1) (names ++ [n])) := by
    rw [addParameter?, find?_ofNames_of_notMem name _ h]
    simp [ofNames, List.mapIdx_concat, hvars, next, variableAt]
  simp only [offer, if_true, hadd, find?_snoc h, variableAt, Nat.lt_succ_self, decide_true]

theorem offer_local (h : n ∉ names) (hp : params ≤ names.length) :
    (ofNames name params names).offer false n =
      (some ⟨n, names.length, false, none⟩, ofNames name params (names ++ [n])) := by
  have hadd : (ofNames name params names).addLocal? n =
      some (ofNames name params (names ++ [n])) := by
    rw [addLocal?, find?_ofNames_of_notMem name _ h]
    simp [ofNames, List.mapIdx_concat, next, variableAt, hp]
  simp only [offer, Bool.false_eq_true, if_false, hadd, find?_snoc h, variableAt, Nat.not_lt.mpr hp,
    decide_false]

/-! ## The names that are left -/

theorem eraseDups_snoc (seen : List String) (n : String) :
    (seen ++ [n]).eraseDups = if n ∈ seen then seen.eraseDups else seen.eraseDups ++ [n] := by
  rw [List.eraseDups_append]
  by_cases h : n ∈ seen <;> simp [List.removeAll, h, List.eraseDups_cons]

theorem nodup_eraseDups (seen : List String) : seen.eraseDups.Nodup := by
  induction seen using List.reverseRecOn with
  | nil => exact List.nodup_nil
  | append_singleton seen n ih =>
    rw [eraseDups_snoc]
    split
    · exact ih
    · rename_i h
      refine List.nodup_append.mpr ⟨ih, List.pairwise_singleton _ n, ?_⟩
      rintro a ha b hb rfl
      rw [List.mem_singleton.mp hb] at ha
      exact h (List.mem_eraseDups.mp ha)

/-- A name offered to a frame with the names of a list: refused without effect if it is in the list,
and otherwise the next variable. -/
structure Answers (f : Frame) (isParameter : Bool) (known : List String) (n : String) : Prop where
  refused : n ∈ known → f.offer isParameter n = (none, f)
  accepted : n ∉ known →
    (f.offer isParameter n).1 = some ⟨n, known.eraseDups.length, isParameter, none⟩

theorem length_eraseDups_append (params locals : List String) :
    params.eraseDups.length ≤ (params ++ locals).eraseDups.length := by
  rw [List.eraseDups_append, List.length_append]
  exact Nat.le_add_right _ _

/-- One more name offered as a parameter. -/
theorem offer_parameter_after (name n : String) (seen : List String) :
    ((ofNames name seen.eraseDups.length seen.eraseDups).offer true n).2 =
      ofNames name (seen ++ [n]).eraseDups.length (seen ++ [n]).eraseDups := by
  rw [eraseDups_snoc]
  split
  · rename_i h
    rw [offer_of_mem true (List.mem_eraseDups.mpr h)]
  · rename_i h
    rw [offer_parameter (mt List.mem_eraseDups.mp h), List.length_append, List.length_singleton]

/-- One more name offered as a local. -/
theorem offer_local_after (name n : String) (params seen : List String) :
    ((ofNames name params.eraseDups.length (params ++ seen).eraseDups).offer false n).2 =
      ofNames name params.eraseDups.length (params ++ (seen ++ [n])).eraseDups := by
  rw [← List.append_assoc, eraseDups_snoc]
  split
  · rename_i h
    rw [offer_of_mem false (List.mem_eraseDups.mpr h)]
  · rename_i h
    rw [offer_local (mt List.mem_eraseDups.mp h) (length_eraseDups_append params seen)]

/-- Offering names one after another leads where each of them leads a step further. -/
theorem offerAll_eq {g : List String → Frame} {isParameter : Bool}
    (h : ∀ seen n, ((g seen).offer isParameter n).2 = g (seen ++ [n])) (names : List String) :
    (g []).offerAll isParameter names = g names := by
  induction names using List.reverseRecOn with
  | nil => rfl
  | append_singleton names n ih =>
    rw [offerAll, List.foldl_append, List.foldl_cons, List.foldl_nil, ← h]
    exact congrArg (fun f => (f.offer isParameter n).2) ih

/-- **The variables of a frame** are the names that were offered, in the order in which they first
were. -/
theorem declared_eq (name : String) (params locals : List String) :
    declared name params locals =
      ofNames name params.eraseDups.length (params ++ locals).eraseDups := by
  have hparams : (empty name).offerAll true params =
      ofNames name params.eraseDups.length params.eraseDups :=
    offerAll_eq (fun seen n => offer_parameter_after name n seen) params
  have hlocals := offerAll_eq (fun seen n => offer_local_after name n params seen) locals
  rw [List.append_nil] at hlocals
  rw [declared, hparams, hlocals]

theorem declared_answers_parameter (name n : String) (params : List String) :
    Answers (declared name params []) true params n := by
  rw [declared_eq, List.append_nil]
  refine ⟨fun h => offer_of_mem true (List.mem_eraseDups.mpr h), fun h => ?_⟩
  rw [offer_parameter (mt List.mem_eraseDups.mp h)]

theorem declared_answers_local (name n : String) (params locals : List String) :
    Answers (declared name params locals) false (params ++ locals) n := by
  rw [declared_eq]
  refine ⟨fun h => offer_of_mem false (List.mem_eraseDups.mpr h), fun h => ?_⟩
  rw [offer_local (mt List.mem_eraseDups.mp h) (length_eraseDups_append params locals)]

/-! ## Offsets -/

theorem offset?_assignOffsets (f : Frame) (n : String) :
    f.assignOffsets.offset? n =
      (f.find? n).map fun v => offset f.params v.ordinal v.isParameter := by
  rw [offset?, find?, assignOffsets, List.find?_map, Option.bind_map, Option.map_eq_bind]
  rfl

theorem offset?_ofNames :
    (ofNames name params names).assignOffsets.offset? n =
      (names.idxOf? n).map fun i => offset params i (i < params) := by
  rw [offset?_assignOffsets, find?_ofNames, Option.map_map]
  rfl

/-- A name has the offset of its place. -/
theorem offset?_eq_some_iff (h : names.Nodup) {o : Int} :
    (ofNames name params names).assignOffsets.offset? n = some o ↔
      ∃ i, names[i]? = some n ∧ o = offset params i (i < params) := by
  have hidx (i : Nat) : names.idxOf? n = some i ↔ names[i]? = some n := by
    rw [List.idxOf?_eq_some_iff, List.getElem?_eq_some_iff]
    constructor
    · rintro ⟨hi, hn, -⟩
      exact ⟨hi, hn⟩
    · rintro ⟨hi, hn⟩
      refine ⟨hi, hn, fun j hj hn' => ?_⟩
      exact Nat.ne_of_lt hj ((List.getElem_inj h).mp (hn'.trans hn.symm))
  rw [offset?_ofNames, Option.map_eq_some_iff]
  simp only [hidx, eq_comm]

end Names

/-- The frame of a function to which names have been offered, with its offsets. -/
def complete (name : String) (params locals : List String) : Frame :=
  (declared name params locals).assignOffsets

section Complete

variable {name n : String} {params locals : List String} {i k : Nat} {o : Int}

theorem params_complete : (complete name params locals).params = params.eraseDups.length := by
  rw [complete, declared_eq]
  rfl

theorem locals_complete :
    (complete name params locals).locals = (locals.removeAll params).eraseDups.length := by
  rw [complete, declared_eq]
  simp [Frame.locals, assignOffsets, ofNames, List.eraseDups_append]

theorem offset?_complete :
    (complete name params locals).offset? n = some o ↔
      ∃ i, (params ++ locals).eraseDups[i]? = some n ∧
        o = offset params.eraseDups.length i (i < params.eraseDups.length) := by
  rw [complete, declared_eq, offset?_eq_some_iff (nodup_eraseDups _)]

theorem offset_of_lt {params ordinal : Nat} (h : ordinal < params) :
    offset params ordinal (ordinal < params) = (params : Int) - ordinal + 1 := by
  rw [decide_eq_true h, offset, if_pos rfl]

theorem offset_of_le {params ordinal : Nat} (h : params ≤ ordinal) :
    offset params ordinal (ordinal < params) = -1 - ((ordinal : Int) - params) := by
  rw [decide_eq_false (Nat.not_lt.mpr h), offset, if_neg Bool.false_ne_true]

theorem offset?_parameter (h : params.eraseDups[i]? = some n) :
    (complete name params locals).offset? n = some ((params.eraseDups.length : Int) - i + 1) := by
  obtain ⟨hi, -⟩ := List.getElem?_eq_some_iff.mp h
  refine offset?_complete.mpr ⟨i, ?_, (offset_of_lt hi).symm⟩
  rw [List.eraseDups_append, List.getElem?_append_left hi, h]

theorem offset?_local (h : (locals.removeAll params).eraseDups[k]? = some n) :
    (complete name params locals).offset? n = some (-1 - (k : Int)) := by
  refine offset?_complete.mpr ⟨params.eraseDups.length + k, ?_, ?_⟩
  · rw [List.eraseDups_append, List.getElem?_append_right (Nat.le_add_right _ _),
      Nat.add_sub_cancel_left, h]
  · rw [offset_of_le (Nat.le_add_right _ _)]
    omega

/-- What has an offset is a parameter or a local. -/
theorem exists_place_of_offset? (h : (complete name params locals).offset? n = some o) :
    (∃ i : Nat, params.eraseDups[i]? = some n ∧ o = (params.eraseDups.length : Int) - i + 1) ∨
      ∃ k : Nat, (locals.removeAll params).eraseDups[k]? = some n ∧ o = -1 - (k : Int) := by
  obtain ⟨i, hi, ho⟩ := offset?_complete.mp h
  rw [List.eraseDups_append] at hi
  by_cases hp : i < params.eraseDups.length
  · rw [List.getElem?_append_left hp] at hi
    exact .inl ⟨i, hi, ho.trans (offset_of_lt hp)⟩
  · have hle := Nat.le_of_not_lt hp
    rw [List.getElem?_append_right hle] at hi
    refine .inr ⟨_, hi, ?_⟩
    rw [ho, offset_of_le hle]
    omega

/-- No two names have the same offset. -/
theorem offset?_inj {n' : String} (h : (complete name params locals).offset? n = some o)
    (h' : (complete name params locals).offset? n' = some o) : n = n' := by
  rcases exists_place_of_offset? h with ⟨i, hi, ho⟩ | ⟨k, hk, ho⟩ <;>
    rcases exists_place_of_offset? h' with ⟨i', hi', ho'⟩ | ⟨k', hk', ho'⟩
  · have : i = i' := by omega
    subst this
    exact Option.some.inj (hi.symm.trans hi')
  · have := (List.getElem?_eq_some_iff.mp hi).1
    omega
  · have := (List.getElem?_eq_some_iff.mp hi').1
    omega
  · have : k = k' := by omega
    subst this
    exact Option.some.inj (hk.symm.trans hk')

theorem mem_removeAll : n ∈ locals.removeAll params ↔ n ∈ locals ∧ n ∉ params := by
  simp [List.removeAll]

/-- A number of 32 bits with a sign. -/
def IsNarrow (x : Int) : Prop := -2 ^ 31 ≤ x ∧ x < 2 ^ 31

/-- All numbers on the way to an offset fit 32 bits, if there are not too many variables. -/
theorem narrow_offset {params ordinal count : Nat} (hparams : params ≤ count)
    (hordinal : ordinal < count) (hcount : count < 2 ^ 31 - 2) :
    IsNarrow ordinal ∧ IsNarrow ((params : Int) - ordinal) ∧ IsNarrow ((ordinal : Int) - params) ∧
      IsNarrow (offset params ordinal (ordinal < params)) := by
  refine ⟨⟨by omega, by omega⟩, ⟨by omega, by omega⟩, ⟨by omega, by omega⟩, ?_⟩
  by_cases hp : ordinal < params
  · rw [offset_of_lt hp]
    exact ⟨by omega, by omega⟩
  · rw [offset_of_le (Nat.le_of_not_lt hp)]
    exact ⟨by omega, by omega⟩

/-- The offsets of the variables with given names: parameters have those from `2` on, locals the
negative ones, each exactly one, and all numbers on the way to them are narrow. -/
structure Offsets (f : Frame) (params locals : List String) : Prop where
  params_eq : f.params = params.eraseDups.length
  locals_eq : f.locals = (locals.removeAll params).eraseDups.length
  ofParameters : Set.BijOn f.offset? {n | n ∈ params} (some '' {o : Int | 2 ≤ o ∧ o ≤ f.params + 1})
  ofLocals : Set.BijOn f.offset? {n | n ∈ locals ∧ n ∉ params}
    (some '' {o : Int | -f.locals ≤ o ∧ o ≤ -1})
  ofOthers : ∀ n, n ∉ params → n ∉ locals → f.offset? n = none
  narrow : IsNarrow f.params ∧ ∀ v ∈ f.vars, IsNarrow v.ordinal ∧
    IsNarrow ((f.params : Int) - v.ordinal) ∧ IsNarrow ((v.ordinal : Int) - f.params) ∧
    ∃ o, v.offset = some o ∧ IsNarrow o

/-- Names whose offsets are told by their places have just the offsets of the places. -/
theorem bijOn_offset? {f : Frame} {names : List String} {place : Nat → Int} {low high : Int}
    (hat : ∀ i n, names[i]? = some n → f.offset? n = some (place i))
    (hinj : ∀ i j, place i = place j → i = j)
    (hrange : ∀ o, low ≤ o ∧ o ≤ high ↔ ∃ i < names.length, place i = o) :
    Set.BijOn f.offset? {n | n ∈ names} (some '' {o : Int | low ≤ o ∧ o ≤ high}) := by
  refine ⟨fun n hn => ?_, fun n hn n' hn' heq => ?_, ?_⟩
  · obtain ⟨i, hi⟩ := List.getElem?_of_mem hn
    have hlt := (List.getElem?_eq_some_iff.mp hi).1
    exact ⟨place i, (hrange _).mpr ⟨i, hlt, rfl⟩, (hat i n hi).symm⟩
  · obtain ⟨i, hi⟩ := List.getElem?_of_mem hn
    obtain ⟨i', hi'⟩ := List.getElem?_of_mem hn'
    rw [hat i n hi, hat i' n' hi'] at heq
    rw [hinj i i' (Option.some.inj heq)] at hi
    exact Option.some.inj (hi.symm.trans hi')
  · rintro _ ⟨o, ho, rfl⟩
    obtain ⟨i, hlt, rfl⟩ := (hrange o).mp ho
    exact ⟨names[i], List.getElem_mem hlt, hat i _ (List.getElem?_eq_getElem hlt)⟩

theorem eq_of_mem_vars_complete {v : FrameVariable}
    (hv : v ∈ (complete name params locals).vars) :
    v.ordinal < (params ++ locals).eraseDups.length ∧
      v.offset = some (offset params.eraseDups.length v.ordinal
        (v.ordinal < params.eraseDups.length)) := by
  rw [complete, declared_eq] at hv
  obtain ⟨w, hw, rfl⟩ := List.mem_map.mp hv
  obtain ⟨i, hi, rfl⟩ := List.mem_mapIdx.mp hw
  exact ⟨hi, rfl⟩

theorem narrow_complete (hfew : (params ++ locals).eraseDups.length < 2 ^ 31 - 2) :
    IsNarrow (complete name params locals).params ∧
      ∀ v ∈ (complete name params locals).vars, IsNarrow v.ordinal ∧
        IsNarrow ((complete name params locals).params - v.ordinal) ∧
        IsNarrow (v.ordinal - (complete name params locals).params) ∧
        ∃ o, v.offset = some o ∧ IsNarrow o := by
  have hparams := length_eraseDups_append params locals
  rw [params_complete]
  refine ⟨⟨by omega, by omega⟩, fun v hv => ?_⟩
  obtain ⟨hordinal, hoffset⟩ := eq_of_mem_vars_complete hv
  obtain ⟨hnumber, hbelow, habove, hnarrow⟩ := narrow_offset (by omega) hordinal hfew
  exact ⟨hnumber, hbelow, habove, _, hoffset, hnarrow⟩

theorem bijOn_parameters (name : String) (params locals : List String) :
    Set.BijOn (complete name params locals).offset? {n | n ∈ params}
      (some '' {o : Int | 2 ≤ o ∧ o ≤ params.eraseDups.length + 1}) := by
  have h : Set.BijOn (complete name params locals).offset? {n | n ∈ params.eraseDups}
      (some '' {o : Int | 2 ≤ o ∧ o ≤ params.eraseDups.length + 1}) := by
    refine bijOn_offset? (fun i n hi => offset?_parameter hi) (fun i j hij => by omega) fun o => ?_
    constructor
    · exact fun ho => ⟨(params.eraseDups.length + 1 - o).toNat, by omega, by omega⟩
    · rintro ⟨i, hi, rfl⟩
      omega
  simpa only [List.mem_eraseDups] using h

theorem bijOn_locals (name : String) (params locals : List String) :
    Set.BijOn (complete name params locals).offset? {n | n ∈ locals ∧ n ∉ params}
      (some '' {o : Int | -(locals.removeAll params).eraseDups.length ≤ o ∧ o ≤ -1}) := by
  have h : Set.BijOn (complete name params locals).offset?
      {n | n ∈ (locals.removeAll params).eraseDups}
      (some '' {o : Int | -(locals.removeAll params).eraseDups.length ≤ o ∧ o ≤ -1}) := by
    refine bijOn_offset? (fun k n hk => offset?_local hk) (fun i j hij => by omega) fun o => ?_
    constructor
    · exact fun ho => ⟨(-1 - o).toNat, by omega, by omega⟩
    · rintro ⟨k, hk, rfl⟩
      omega
  simpa only [List.mem_eraseDups, mem_removeAll] using h

/-- **The offsets of a frame** are told apart, leave out `0` and `1` and fit 32 bits. -/
theorem offsets_complete (name : String)
    (hfew : (params ++ locals).eraseDups.length < 2 ^ 31 - 2) :
    Offsets (complete name params locals) params locals where
  params_eq := params_complete
  locals_eq := locals_complete
  ofParameters := by
    rw [params_complete]
    exact bijOn_parameters name params locals
  ofLocals := by
    rw [locals_complete]
    exact bijOn_locals name params locals
  ofOthers := by
    intro n hparams hlocals
    refine Option.eq_none_iff_forall_ne_some.mpr fun o ho => ?_
    rcases exists_place_of_offset? ho with ⟨i, hi, -⟩ | ⟨k, hk, -⟩
    · exact hparams (List.mem_eraseDups.mp (List.mem_of_getElem? hi))
    · exact hlocals (mem_removeAll.mp (List.mem_eraseDups.mp (List.mem_of_getElem? hk))).1
  narrow := narrow_complete hfew

end Complete

end Frame

end StackScript
