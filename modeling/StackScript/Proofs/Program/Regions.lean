import StackScript.Proofs.Simulation.Follows

/-!
# Regions of a program

The bodies of the functions of a program follow one another: each reaches from its entry to the
entry of the next function, and the last one to the target of the first jump, which skips them all.
What lies in no body is top-level code. Both are read off the tables and the code alone.
-/

namespace StackScript.Program

variable {p : Program} {f : FunctionEntry} {k index : Nat}

/-- The index and the target of the first jump of a program, which skips the functions. -/
def skip? (p : Program) : Option (Nat × Nat) :=
  p.code.instrs.toList.zipIdx.findSome? fun (i, index) => i.jumpTarget?.map (index, ·)

/-- The index behind the bodies of all functions. -/
def bodiesEnd (p : Program) : Nat := (p.skip?.map (·.2)).getD 0

/-- The index behind the body of the function with a number. -/
def bodyEnd (p : Program) (k : Nat) : Nat := ((p.functions[k + 1]?).map (·.entry)).getD p.bodiesEnd

/-- An index in the body of the function with a number. -/
def InBody (p : Program) (k index : Nat) : Prop :=
  ∃ f, p.functions[k]? = some f ∧ f.entry ≤ index ∧ index < p.bodyEnd k

/-- An index outside all bodies. -/
def TopLevel (p : Program) (index : Nat) : Prop :=
  index < p.code.size ∧ ∀ k, ¬ p.InBody k index

/-- An index in a region: the body of the function with a number, or else the top-level code. -/
def InRegion (p : Program) : (region : Option Nat) → (index : Nat) → Prop
  | some k => p.InBody k
  | none => p.TopLevel

/-- The code of the function with a number. -/
def bodyCode (p : Program) (k : Nat) : List Instr :=
  (p.functions[k]?).elim [] fun f => (p.code.instrs.toList.take (p.bodyEnd k)).drop f.entry

/-- Code that fills a body is the code of it. -/
theorem bodyCode_eq {code : List Instr} (hf : p.functions[k]? = some f)
    (hend : p.bodyEnd k = f.entry + code.length) (hc : CodeAt p f.entry code) :
    p.bodyCode k = code := by
  simp only [bodyCode, hf, Option.elim_some, hend]
  refine List.ext_getElem? fun j => ?_
  rw [List.getElem?_drop, List.getElem?_take]
  by_cases hj : j < code.length
  · rw [if_pos (by omega), Array.getElem?_toList]
    exact (hc j _ (List.getElem?_eq_getElem hj)).trans (List.getElem?_eq_getElem hj).symm
  · rw [if_neg (by omega), List.getElem?_eq_none (by omega)]

theorem mem_bodyCode {i : Instr} (hin : p.InBody k index) (hi : p.code.get? index = some i) :
    i ∈ p.bodyCode k := by
  obtain ⟨f, hf, hlow, hhigh⟩ := hin
  simp only [bodyCode, hf, Option.elim_some]
  refine List.mem_of_getElem? (i := index - f.entry) ?_
  rw [List.getElem?_drop, List.getElem?_take, Nat.add_sub_cancel' hlow, if_pos hhigh,
    Array.getElem?_toList]
  exact hi

/-- From a function that has started on, every index before the end of the bodies is in one. The
induction is on the number of functions behind. -/
theorem exists_inBody (hf : p.functions[k]? = some f) (hlow : f.entry ≤ index)
    (hhigh : index < p.bodiesEnd) : ∃ j, p.InBody j index := by
  induction hn : p.functions.length - k generalizing k f with
  | zero =>
    have hk := (List.getElem?_eq_some_iff.mp hf).1
    omega
  | succ n ih =>
    cases hnext : p.functions[k + 1]? with
    | none => exact ⟨k, f, hf, hlow, by simpa [bodyEnd, hnext] using hhigh⟩
    | some g =>
      by_cases hlt : index < g.entry
      · exact ⟨k, f, hf, hlow, by simpa [bodyEnd, hnext] using hlt⟩
      · exact ih hnext (Nat.not_lt.mp hlt) (by omega)

end StackScript.Program
