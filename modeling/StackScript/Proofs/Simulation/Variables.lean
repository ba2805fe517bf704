import StackScript.Proofs.Script.WellFormed
import StackScript.Proofs.Simulation.Follows

/-!
# Variables by name and by place

An evaluation finds variables by name, a machine by slot and by offset. `Agrees` ties the names in
view to the store of the evaluation and to the activation of the machine; under it the instructions
that load, store and declare a variable do what the evaluation does with its name
(`Agrees.next_load`, `Agrees.next_store`, `Agrees.next_declare`).
-/

namespace StackScript

namespace Bindings

variable {b : Bindings} {name : String} {i : Nat} {v : Value}

theorem lookup_of_idxOf? (h : b.names.idxOf? name = some i) : b.lookup name = b.values[i]? := by
  induction b generalizing i with
  | nil => cases h
  | cons x rest ih =>
    obtain ⟨key, value⟩ := x
    simp only [names, List.map_cons, List.idxOf?_cons] at h
    by_cases hkey : key = name
    · rw [if_pos (by simpa using hkey)] at h
      cases h
      subst hkey
      exact List.lookup_cons_self
    · rw [if_neg (by simpa using hkey)] at h
      obtain ⟨j, hj, rfl⟩ := Option.map_eq_some_iff.mp h
      have hne : (name == key) = false := by simpa using fun h => hkey h.symm
      rw [List.lookup_cons, hne]
      exact ih hj

theorem lookup_isSome_of_idxOf? (h : b.names.idxOf? name = some i) :
    (b.lookup name).isSome = true := by
  rw [lookup_of_idxOf? h]
  have hlt : i < b.names.length := (List.idxOf?_eq_some_iff.mp h).1
  simpa using hlt

theorem lookup_of_idxOf?_none (h : b.names.idxOf? name = none) : b.lookup name = none := by
  have hmem : name ∉ b.names := List.idxOf?_eq_none_iff.mp h
  rw [List.lookup_eq_none_iff]
  intro x hx
  have hname : x.1 ∈ b.names := List.mem_map_of_mem hx
  simpa using fun (h : name = x.1) => hmem (h ▸ hname)

theorem names_zip {xs : List String} {vs : List Value} (h : xs.length ≤ vs.length) :
    names (xs.zip vs) = xs := List.map_fst_zip h

theorem values_zip {xs : List String} {vs : List Value} (h : vs.length ≤ xs.length) :
    values (xs.zip vs) = vs := List.map_snd_zip h

theorem names_assign : (assign name v b).names = b.names := by
  induction b with
  | nil => rfl
  | cons x rest ih =>
    unfold assign
    split
    · rfl
    · exact congrArg (x.1 :: ·) ih

theorem values_assign (h : b.names.idxOf? name = some i) :
    (assign name v b).values = b.values.set i v := by
  induction b generalizing i with
  | nil => cases h
  | cons x rest ih =>
    simp only [names, List.map_cons, List.idxOf?_cons] at h
    by_cases hx : x.1 = name
    · rw [if_pos (by simpa using hx)] at h
      cases h
      simp [assign, values, hx]
    · rw [if_neg (by simpa using hx)] at h
      obtain ⟨j, hj, rfl⟩ := Option.map_eq_some_iff.mp h
      simpa [assign, values, hx] using ih hj

end Bindings

/-! ## Agreement -/

/-- The names in view are those of a store, and those of the current function are held by the
activation whose code was generated for `site`. -/
structure Agrees (k : Names) (site : Site) (a : Activation) (s : Store) : Prop where
  globals : s.globals.names = k.globals
  frame : s.frame.names = k.frameNames
  activation : match a with
    | .top => k.frame = none
    | .call _ params _ _ _ =>
      k.frame.isSome ∧ params = site.params ∧ params ≤ k.frameNames.length

namespace Agrees

open Machine Activation

variable {p : Program} {k : Names} {site : Site} {a : Activation} {s : Store} {temps : List Value}
  {ops : List Operator} {ip t : Nat} {name : String} {place : Place}

/-- Two stores that hold the same names agree with the same names in view. -/
theorem transfer {s' : Store} (h : Agrees k site a s) (hg : s'.globals.names = s.globals.names)
    (hf : s'.frame.names = s.frame.names) : Agrees k site a s' :=
  ⟨hg.trans h.globals, hf.trans h.frame, h.activation⟩

/-- A variable of the frame has a place there, and so there is a frame. -/
theorem frame_of_place? {i : Nat} (h : Agrees k site a s) (hn : k.place? name = some (.frame i)) :
    s.frame.names.idxOf? name = some i ∧
      ∃ under ret base calls, a = .call under site.params ret base calls ∧
        site.params ≤ s.frame.length := by
  have hi : k.frameNames.idxOf? name = some i := by
    unfold Names.place? at hn
    split at hn
    · cases hn
      assumption
    · simp at hn
  have ha := h.activation
  have hlen : s.frame.length = k.frameNames.length := by rw [← h.frame, Bindings.length_names]
  rw [h.frame]
  refine ⟨hi, ?_⟩
  cases a with
  | top =>
    rw [Names.frameNames, ha] at hi
    cases hi
  | call under params ret base calls =>
    obtain ⟨-, rfl, hp⟩ := ha
    exact ⟨under, ret, base, calls, rfl, hlen ▸ hp⟩

/-- A global is in view where no variable of the frame has its name. -/
theorem global_of_place? {slot : Nat} (h : Agrees k site a s)
    (hn : k.place? name = some (.global slot)) :
    s.frame.names.idxOf? name = none ∧ s.globals.names.idxOf? name = some slot := by
  unfold Names.place? at hn
  rw [h.frame, h.globals]
  split at hn
  · cases hn
  · obtain ⟨i, hi, he⟩ := Option.map_eq_some_iff.mp hn
    cases he
    exact ⟨by assumption, hi⟩

/-- **Loading from the place of a name gives the value of the name.** -/
theorem next_load (h : Agrees k site a s) (hn : k.place? name = some place)
    (hi : p.code.get? ip = some (place.load site)) :
    Next p (a.machine s temps ops ip t)
      (.ok none (a.machine s (temps ++ [s.get name]) ops (ip + 1) (t + 1))) := by
  cases place with
  | frame i =>
    obtain ⟨hidx, under, ret, base, calls, rfl, hp⟩ := h.frame_of_place? hn
    obtain ⟨v, hv⟩ := Option.isSome_iff_exists.mp (Bindings.lookup_isSome_of_idxOf? hidx)
    have hget : s.get name = v := by simp [Store.get, hv]
    rw [hget]
    exact next_getLocal hi hp ((Bindings.lookup_of_idxOf? hidx).symm.trans hv)
  | global slot =>
    obtain ⟨hframe, hidx⟩ := h.global_of_place? hn
    obtain ⟨v, hv⟩ := Option.isSome_iff_exists.mp (Bindings.lookup_isSome_of_idxOf? hidx)
    have hget : s.get name = v := by
      simp [Store.get, Bindings.lookup_of_idxOf?_none hframe, hv]
    rw [hget]
    exact next_getGlobal hi ((Bindings.lookup_of_idxOf? hidx).symm.trans hv)

/-- **Storing to the place of a name changes the value of the name.** -/
theorem next_store {v : Value} (h : Agrees k site a s) (hn : k.place? name = some place)
    (hi : p.code.get? ip = some (place.store site)) :
    Next p (a.machine s (temps ++ [v]) ops ip t)
      (.ok none (a.machine (s.set name v) temps ops (ip + 1) (t + 1))) := by
  cases place with
  | frame i =>
    obtain ⟨hidx, under, ret, base, calls, rfl, hp⟩ := h.frame_of_place? hn
    have hlt : i < s.frame.names.length := (List.idxOf?_eq_some_iff.mp hidx).1
    rw [Store.set, if_pos (Bindings.lookup_isSome_of_idxOf? hidx)]
    exact next_setLocal hi hp (by simpa using hlt) (Bindings.values_assign hidx)
  | global slot =>
    obtain ⟨hframe, hidx⟩ := h.global_of_place? hn
    have hlt : slot < s.globals.names.length := (List.idxOf?_eq_some_iff.mp hidx).1
    rw [Store.set, if_neg (by simp [Bindings.lookup_of_idxOf?_none hframe])]
    exact next_setGlobal hi (by simpa using hlt) (Bindings.values_assign hidx)

theorem set (h : Agrees k site a s) (name : String) (v : Value) :
    Agrees k site a (s.set name v) := by
  unfold Store.set
  split
  · exact h.transfer rfl Bindings.names_assign
  · exact h.transfer Bindings.names_assign rfl

/-- Declaring a local makes room for it and brings its name into view. -/
theorem next_declare (h : Agrees k site a s) (hk : k.frame.isSome)
    (hi : p.code.get? ip = some .declareLocal) :
    Next p (a.machine s [] ops ip t) (.ok none (a.machine (s.declare name) [] ops (ip + 1) (t + 1))) ∧
      Agrees (k.declare [name]) site a (s.declare name) := by
  have hlen : s.frame.length = k.frameNames.length := by rw [← h.frame, Bindings.length_names]
  have ha := h.activation
  cases a with
  | top =>
    rw [ha] at hk
    cases hk
  | call under params ret base calls =>
    obtain ⟨-, hparams, hp⟩ := ha
    refine ⟨next_declareLocal hi (hlen ▸ hp), h.globals, ?_, Names.frame_declare hk _, hparams, ?_⟩
    · rw [Names.frameNames_declare hk, Store.declare, Bindings.names_snoc, h.frame]
    · rw [Names.frameNames_declare hk, List.length_append]
      omega

end Agrees

end StackScript
