import StackScript.Proofs.Machine.Post
import StackScript.Proofs.Scope.Offsets

/-!
# The addresses of a frame's variables

A call leaves its arguments, the links and then the locals on the stack (`Exec.post_open`). In every
machine that holds such a frame (`Machine.Framed`) the instructions reach by the offset of a
parameter the argument of the same place and by the offset of a local the cell of the same place
above the base, whatever lies below and above. The offsets leave out `0` and `1`, so no variable is
taken for another one or for a link (**`Frame.variables_addressed`**).
-/

namespace StackScript

namespace Exec

/-- Executes instructions one after another, wherever they stand. -/
def steps (l : Limits) (p : Program) : List Instr → Exec Unit
  | [] => return ()
  | i :: rest => do
    let _ ← step l p i
    steps l p rest

/-- The instructions that open a frame, once the arguments are on the stack. -/
def opening (target locals : Nat) : List Instr :=
  .call target :: List.replicate locals .declareLocal

end Exec

/-- A machine in a call: above the cells of the callers lie the arguments, the links, the locals and
whatever the code at hand has put there. -/
structure Machine.Framed (m : Machine) (under : List Cell) (args : List Value) (ret base : Nat)
    (vars : List Value) : Prop where
  stack : ∃ temps, m.stack.toList = under ++ args.map Cell.value ++
    [.returnAddress ret, .savedBase base] ++ vars.map Cell.value ++ temps
  height : m.base = under.length + args.length + 2

/-! ## Opening a frame -/

namespace Exec

variable {l : Limits} {p : Program} {m : Machine}

theorem Post.noResult {E : Cause → Prop} {x : Exec Unit} {Q : Machine → Prop}
    (h : Post E x m fun _ => Q) : Post E (do x; return (none : Option Value)) m fun _ => Q :=
  h.bind fun _ _ h => h

theorem post_declareLocals (n : Nat) (m : Machine) :
    Post l.Cuts (steps l p (List.replicate n .declareLocal)) m fun _ m' =>
      m'.stack.toList = m.stack.toList ++ (List.replicate n Value.undefined).map Cell.value ∧
        m'.base = m.base := by
  induction n generalizing m with
  | zero => exact ⟨(List.append_nil _).symm, rfl⟩
  | succ n ih =>
    have hpush : Post l.Cuts (push l .undefined) m fun _ m' =>
        m'.stack.toList = m.stack.toList ++ [.value .undefined] ∧ m'.base = m.base :=
      Post.pushCell rfl fun _ => ⟨Array.toList_push, rfl⟩
    refine hpush.noResult.bind fun _ m₁ h₁ => (ih m₁).mono fun _ m' h' => ?_
    rw [h'.1, h'.2, h₁.1, h₁.2]
    exact ⟨by simp [List.replicate_succ], rfl⟩

/-- **A call builds a frame**, unless a limit stops it. -/
theorem post_open {under : List Cell} {args : List Value} (target locals : Nat)
    (hm : m.stack.toList = under ++ args.map Cell.value) :
    Post l.Cuts (steps l p (opening target locals)) m fun _ m' =>
      m'.Framed under args m.ip m.base (List.replicate locals .undefined) := by
  have hsize : m.stack.size = under.length + args.length := by
    rw [← Array.length_toList, hm, List.length_append, List.length_map]
  have hcall : Post l.Cuts (call l p target) m fun _ m' =>
      m'.stack.toList = under ++ args.map Cell.value ++ [.returnAddress m.ip, .savedBase m.base] ∧
        m'.base = under.length + args.length + 2 :=
    Post.call rfl rfl fun _ _ => ⟨by simp [hm], by rw [hsize]⟩
  refine hcall.noResult.bind fun _ m₁ h₁ => (post_declareLocals locals m₁).mono fun _ m' h' => ?_
  rw [h₁.1, h₁.2] at h'
  exact ⟨⟨[], by rw [h'.1, List.append_nil]⟩, h'.2⟩

end Exec

/-! ## Reaching variables -/

namespace Machine

variable {m : Machine} {under : List Cell} {args vars : List Value} {ret base i k a : Nat} {o : Int}

theorem address?_eq_some_iff :
    m.address? o = some a ↔ (a : Int) = m.base - 1 - o ∧ a < m.stack.size := by
  unfold address?
  simp only
  split <;> simp only [Option.some.injEq, reduceCtorEq, false_iff] <;> omega

namespace Framed

theorem base_add_le (h : m.Framed under args ret base vars) :
    m.base + vars.length ≤ m.stack.size := by
  obtain ⟨temps, hstack⟩ := h.stack
  have hsize := congrArg List.length hstack
  simp only [Array.length_toList, List.length_append, List.length_map, List.length_cons,
    List.length_nil] at hsize
  have := h.height
  omega

theorem getElem?_argument (h : m.Framed under args ret base vars) (hi : i < args.length) :
    m.stack[under.length + i]? = (args[i]?).map Cell.value := by
  obtain ⟨temps, hstack⟩ := h.stack
  rw [← Array.getElem?_toList, hstack, List.append_assoc, List.append_assoc, List.append_assoc,
    List.getElem?_append_right (Nat.le_add_right _ _), Nat.add_sub_cancel_left,
    List.getElem?_append_left (by rwa [List.length_map]), List.getElem?_map]

theorem getElem?_local (h : m.Framed under args ret base vars) (hk : k < vars.length) :
    m.stack[m.base + k]? = (vars[k]?).map Cell.value := by
  obtain ⟨temps, hstack⟩ := h.stack
  have hbelow : (under ++ args.map Cell.value ++
      [Cell.returnAddress ret, Cell.savedBase base]).length = m.base := by
    simp [h.height]; omega
  rw [← Array.getElem?_toList, hstack, List.append_assoc, ← hbelow,
    List.getElem?_append_right (Nat.le_add_right _ _), Nat.add_sub_cancel_left,
    List.getElem?_append_left (by rwa [List.length_map]), List.getElem?_map]

theorem links (h : m.Framed under args ret base vars) :
    m.stack[m.base - 2]? = some (.returnAddress ret) ∧
      m.stack[m.base - 1]? = some (.savedBase base) := by
  obtain ⟨temps, hstack⟩ := h.stack
  have hbelow : m.base - 2 = (under ++ args.map Cell.value).length := by
    simp [h.height]
  have hnext : m.base - 1 = (under ++ args.map Cell.value).length + 1 := by
    simp [h.height]
  rw [← Array.getElem?_toList, ← Array.getElem?_toList, hstack, hbelow, hnext, List.append_assoc,
    List.append_assoc, List.getElem?_append_right (Nat.le_refl _),
    List.getElem?_append_right (Nat.le_add_right _ 1), Nat.sub_self, Nat.add_sub_cancel_left]
  exact ⟨rfl, rfl⟩

end Framed

end Machine

namespace Frame

/-- The variables of a frame on the stack of a machine: each parameter is reached at the argument of
its place and each local at its place above the base, no two at one address and none at a link. -/
structure Reached (f : Frame) (params locals : List String) (m : Machine) (under : List Cell)
    (args : List Value) (ret base : Nat) (vars : List Value) : Prop where
  arguments : ∀ i n, params.eraseDups[i]? = some n → ∃ o, f.offset? n = some o ∧
    m.address? o = some (under.length + i) ∧
    m.stack[under.length + i]? = (args[i]?).map Cell.value
  above : ∀ k n, (locals.removeAll params).eraseDups[k]? = some n → ∃ o, f.offset? n = some o ∧
    m.address? o = some (m.base + k) ∧ m.stack[m.base + k]? = (vars[k]?).map Cell.value
  apart : ∀ n n' o o' a, f.offset? n = some o → f.offset? n' = some o' →
    m.address? o = some a → m.address? o' = some a → n = n'
  links : m.stack[m.base - 2]? = some (.returnAddress ret) ∧
    m.stack[m.base - 1]? = some (.savedBase base) ∧
    ∀ n o, f.offset? n = some o →
      m.address? o ≠ some (m.base - 2) ∧ m.address? o ≠ some (m.base - 1)

variable {params locals : List String} {m : Machine} {under : List Cell} {args vars : List Value}
  {ret base : Nat}

theorem reached_of_framed (name : String) (h : m.Framed under args ret base vars)
    (hargs : args.length = (complete name params locals).params)
    (hvars : vars.length = (complete name params locals).locals) :
    Reached (complete name params locals) params locals m under args ret base vars := by
  have hheight := h.height
  have hroom := h.base_add_le
  rw [params_complete] at hargs
  rw [locals_complete] at hvars
  refine ⟨fun i n hi => ?_, fun k n hk => ?_, fun n n' o o' a ho ho' ha ha' => ?_,
    h.links.1, h.links.2, fun n o ho => ?_⟩
  · have hlt := (List.getElem?_eq_some_iff.mp hi).1
    exact ⟨_, offset?_parameter hi, Machine.address?_eq_some_iff.mpr ⟨by omega, by omega⟩,
      h.getElem?_argument (by omega)⟩
  · have hlt := (List.getElem?_eq_some_iff.mp hk).1
    exact ⟨_, offset?_local hk, Machine.address?_eq_some_iff.mpr ⟨by omega, by omega⟩,
      h.getElem?_local (by omega)⟩
  · have heq := (Machine.address?_eq_some_iff.mp ha).1
    have heq' := (Machine.address?_eq_some_iff.mp ha').1
    have hsame : o' = o := by omega
    exact offset?_inj ho (hsame ▸ ho')
  · -- the links have the offsets 0 and 1, which lie between those of parameters and locals
    simp only [ne_eq, Machine.address?_eq_some_iff]
    rcases exists_place_of_offset? ho with ⟨i, hi, rfl⟩ | ⟨k, hk, rfl⟩
    · have hlt := (List.getElem?_eq_some_iff.mp hi).1
      omega
    · omega

/-- **Every variable of a frame has a cell of its own.** After any sequence of names offered as
parameters and then as locals, where a name that is taken is refused without effect, the offsets
tell the names apart: those of the parameters are the numbers from `2` to one more than there are
parameters, those of the locals the negative ones down to minus the number of locals. A call builds
a frame of the arguments in order, the links and the locals, and in every machine that holds such a
frame a parameter is reached at its argument and a local at its place above the base, no two at the
same address and none at a link. -/
theorem variables_addressed (name : String) (params locals : List String)
    (hfew : (params ++ locals).eraseDups.length < 2 ^ 31 - 2) :
    (∀ seen n rest, params = seen ++ n :: rest → Answers (declared name seen []) true seen n) ∧
      (∀ seen n rest, locals = seen ++ n :: rest →
        Answers (declared name params seen) false (params ++ seen) n) ∧
      Offsets (complete name params locals) params locals ∧
      (∀ l p target m under args, m.stack.toList = under ++ args.map Cell.value →
        Exec.Post l.Cuts
          (Exec.steps l p (Exec.opening target (complete name params locals).locals)) m fun _ m' =>
            m'.Framed under args m.ip m.base
              (List.replicate (complete name params locals).locals .undefined)) ∧
      ∀ m under args ret base vars, m.Framed under args ret base vars →
        args.length = (complete name params locals).params →
        vars.length = (complete name params locals).locals →
        Reached (complete name params locals) params locals m under args ret base vars :=
  ⟨fun seen n _ _ => declared_answers_parameter name n seen,
    fun seen n _ _ => declared_answers_local name n params seen, offsets_complete name hfew,
    fun _ _ target _ _ _ hm => Exec.post_open target _ hm,
    fun _ _ _ _ _ _ h hargs hvars => reached_of_framed name h hargs hvars⟩

/-- A machine in a call with two arguments and two locals, while a condition is on the stack. -/
def midCall : Machine :=
  { Machine.idle with
    stack := #[.value (.int 7), .value (.int 1), .value (.int 2), .returnAddress 4, .savedBase 0,
      .value .undefined, .value (.string "s"), .value (.bool true)]
    base := 5
    calls := #["f"] }

/-- Names that are offered twice. -/
theorem variables_addressed_midCall :
    (["a", "b", "a"] ++ ["x", "b", "y", "x"]).eraseDups.length < 2 ^ 31 - 2 ∧
      ["a", "b", "x", "y"].map (complete "f" ["a", "b", "a"] ["x", "b", "y", "x"]).offset? =
        [some 3, some 2, some (-1), some (-2)] ∧
      midCall.Framed [.value (.int 7)] [.int 1, .int 2] 4 0 [.undefined, .string "s"] ∧
      Reached (complete "f" ["a", "b", "a"] ["x", "b", "y", "x"]) ["a", "b", "a"]
        ["x", "b", "y", "x"] midCall [.value (.int 7)] [.int 1, .int 2] 4 0
        [.undefined, .string "s"] := by
  have hfew : (["a", "b", "a"] ++ ["x", "b", "y", "x"]).eraseDups.length < 2 ^ 31 - 2 := by decide
  have hframed : midCall.Framed [.value (.int 7)] [.int 1, .int 2] 4 0 [.undefined, .string "s"] :=
    ⟨⟨[.value (.bool true)], rfl⟩, rfl⟩
  exact ⟨hfew, by decide, hframed,
    (variables_addressed "f" _ _ hfew).2.2.2.2 _ _ _ _ _ _ hframed (by decide) (by decide)⟩

end Frame

end StackScript
