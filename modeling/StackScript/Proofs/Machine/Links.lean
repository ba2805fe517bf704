import StackScript.Proofs.Compile.Compiled
import StackScript.Proofs.Machine.Post

/-!
# Frame links of checked programs

A program that passes the check may be anything otherwise: it may drop and store what and where it
likes, return with any counts and leave operators unbalanced. Still no run of it loses the frame
links. On the stack return addresses and saved bases stand in pairs, one for each active call, and
the bases lead from pair to pair down to the bottom (`Linked`). Values can be pushed, popped and
changed without touching that, and only calls and returns add or remove a pair.

* **`Machine.checked_boundary`**: at every boundary between two instructions of a run the next
  instruction is there, the globals are, the limits are kept and the links are in order
  (`Machine.Boundary`); hence three of the defects are never reported.
-/

namespace StackScript

/-! ## Chains of links -/

/-- Cells, the topmost first, on which the links stand in pairs. Each pair holds an index below
`size` and the base of the frame below; `base` is the height above the topmost pair, and `depth`
the number of pairs. -/
inductive Linked (size : Nat) : (cells : List Cell) → (base depth : Nat) → Prop where
  | bottom : Linked size [] 0 0
  | value {cells : List Cell} {base depth : Nat} (v : Value) (h : Linked size cells base depth) :
      Linked size (.value v :: cells) base depth
  | links {cells : List Cell} {base depth r : Nat} (hr : r < size)
      (h : Linked size cells base depth) :
      Linked size (.savedBase base :: .returnAddress r :: cells) (cells.length + 2) (depth + 1)

namespace Linked

variable {size base depth : Nat} {cells : List Cell}

theorem base_le (h : Linked size cells base depth) : base ≤ cells.length := by
  induction h with
  | bottom => exact Nat.le_refl 0
  | value v h ih =>
    rw [List.length_cons]
    omega
  | links hr h ih => exact Nat.le_refl _

/-- Values may change. -/
theorem set {above below : List Cell} {v w : Value}
    (h : Linked size (above ++ .value v :: below) base depth) :
    Linked size (above ++ .value w :: below) base depth := by
  generalize hc : above ++ Cell.value v :: below = cells at h
  induction h generalizing above with
  | bottom => simp at hc
  | value u h ih =>
    cases above with
    | nil =>
      cases hc
      exact .value w h
    | cons c above =>
      cases hc
      exact .value u (ih rfl)
  | links hr h ih =>
    -- the value lies below the whole pair, whose cells are none
    match above, hc with
    | [], hc => cases hc
    | [c], hc => cases hc
    | c :: c' :: above, hc =>
      simp only [List.cons_append, List.cons.injEq] at hc
      obtain ⟨rfl, rfl, rfl⟩ := hc
      have hlen : (above ++ .value v :: below).length = (above ++ .value w :: below).length := by
        simp
      rw [hlen]
      exact .links hr (ih rfl)

/-- Where the cells end at the base, the topmost two are a pair of links. -/
theorem top {c : Cell} (h : Linked size (c :: cells) base depth) (hbase : base = cells.length + 1) :
    ∃ b r below d, c = .savedBase b ∧ cells = .returnAddress r :: below ∧ depth = d + 1 ∧
      r < size ∧ Linked size below b d := by
  cases h with
  | value v h =>
    have hle := h.base_le
    omega
  | links hr h => exact ⟨_, _, _, _, rfl, rfl, rfl, hr, h⟩

end Linked

/-- The pairs of links on a stack stand at the indices `links`, the topmost first: `base` is one
past the topmost saved base, and each saved base is one past the next lower one, `0` if there is
none. -/
def Chain (size : Nat) (stack : List Cell) : (links : List Nat) → (base : Nat) → Prop
  | [], base => base = 0
  | i :: rest, base =>
    base = i + 2 ∧ (∃ r < size, stack[i]? = some (.returnAddress r)) ∧
      ∃ below, stack[i + 1]? = some (.savedBase below) ∧ Chain size stack rest below

/-- The cells that are no values stand at the indices of links or right above them. -/
def OnlyLinks (stack : List Cell) (links : List Nat) : Prop :=
  ∀ i c, stack[i]? = some c → (∃ v, c = .value v) ∨ ∃ j ∈ links, i = j ∨ i = j + 1

theorem Chain.append {size base : Nat} {stack : List Cell} {links : List Nat}
    (h : Chain size stack links base) (above : List Cell) :
    Chain size (stack ++ above) links base := by
  have hold {i : Nat} {c : Cell} (hi : stack[i]? = some c) : (stack ++ above)[i]? = some c := by
    rw [List.getElem?_append_left (List.getElem?_eq_some_iff.mp hi).1, hi]
  induction links generalizing base with
  | nil => exact h
  | cons i rest ih =>
    obtain ⟨hbase, ⟨r, hr, hi⟩, below, hsaved, hrest⟩ := h
    exact ⟨hbase, ⟨r, hr, hold hi⟩, below, hold hsaved, ih hrest⟩

/-- The pairs of a linked stack are found at indices of their own. -/
theorem Linked.chain {size base depth : Nat} {cells : List Cell}
    (h : Linked size cells base depth) :
    ∃ links, links.length = depth ∧ (∀ j ∈ links, j + 2 ≤ cells.length) ∧
      links.Pairwise (fun i j => j + 2 ≤ i) ∧ Chain size cells.reverse links base ∧
        OnlyLinks cells.reverse links := by
  induction h with
  | bottom => exact ⟨[], rfl, by simp, .nil, rfl, fun i c hi => by simp at hi⟩
  | value v h ih =>
    obtain ⟨links, hlen, hin, hpair, hchain, honly⟩ := ih
    refine ⟨links, hlen, fun j hj => ?_, hpair, ?_, fun i c hi => ?_⟩
    · have := hin j hj
      rw [List.length_cons]
      omega
    · rw [List.reverse_cons]
      exact hchain.append _
    · rw [List.reverse_cons] at hi
      rw [List.getElem?_append] at hi
      split at hi
      · exact honly i c hi
      · exact .inl ⟨v, (List.mem_singleton.mp (List.mem_of_getElem? hi))⟩
  | @links cells base depth r hr h ih =>
    obtain ⟨links, hlen, hin, hpair, hchain, honly⟩ := ih
    have hreverse : (Cell.savedBase base :: .returnAddress r :: cells).reverse =
        cells.reverse ++ [.returnAddress r, .savedBase base] := by simp
    rw [hreverse]
    refine ⟨cells.length :: links, by rw [List.length_cons, hlen], ?_, ?_, ?_, fun i c hi => ?_⟩
    · intro j hj
      rcases List.mem_cons.mp hj with rfl | hj
      · simp
      · have := hin j hj
        simp only [List.length_cons]
        omega
    · exact List.pairwise_cons.mpr ⟨hin, hpair⟩
    · refine ⟨rfl, ⟨r, hr, ?_⟩, base, ?_, hchain.append _⟩ <;>
        rw [List.getElem?_append_right (by simp)] <;> simp
    · rw [List.getElem?_append] at hi
      split at hi
      case isTrue =>
        rcases honly i c hi with hv | ⟨j, hj, hij⟩
        · exact .inl hv
        · exact .inr ⟨j, List.mem_cons_of_mem _ hj, hij⟩
      case isFalse hle =>
        have hlt := (List.getElem?_eq_some_iff.mp hi).1
        simp only [List.length_reverse, List.length_cons, List.length_nil] at hle hlt
        exact .inr ⟨cells.length, List.mem_cons_self, by omega⟩

/-! ## What one instruction keeps -/

/-- The defects that would show a lost instruction pointer, global or pair of links. -/
def Cause.IsLoss : Cause → Prop
  | .defect .indexOutOfRange | .defect (.noGlobalSlot _) | .defect (.expectedReturnAddress _) => True
  | _ => False

theorem Cause.IsOwn.not_isLoss {c : Cause} (h : c.IsOwn) : ¬ c.IsLoss := by
  cases c <;> first | exact id | cases h

/-- What holds while an instruction is executed: the limits are kept, the globals are there, and
`depth` pairs of links are in order. -/
structure Held (l : Limits) (p : Program) (ip calls depth : Nat) (m : Machine) : Prop where
  ip_eq : m.ip = ip
  globals : m.globals.size = p.globals.length
  calls_eq : m.calls.size = calls
  calls_le : calls ≤ l.maxDepth
  stack_le : m.stack.size ≤ l.maxStack
  linked : Linked p.code.size m.stack.toList.reverse m.base depth

namespace Held

variable {l : Limits} {p : Program} {ip calls depth : Nat} {m : Machine}

theorem pushed (h : Held l p ip calls depth m) (hroom : m.stack.size < l.maxStack) (v : Value) :
    Held l p ip calls depth { m with stack := m.stack.push (.value v) } where
  ip_eq := h.ip_eq
  globals := h.globals
  calls_eq := h.calls_eq
  calls_le := h.calls_le
  stack_le := by
    rw [Array.size_push]
    exact hroom
  linked := by
    rw [Array.toList_push, List.reverse_append]
    exact .value v h.linked

theorem popped {s : Array Cell} {v : Value} (h : Held l p ip calls depth m)
    (hs : m.stack = s.push (.value v)) : Held l p ip calls depth { m with stack := s } where
  ip_eq := h.ip_eq
  globals := h.globals
  calls_eq := h.calls_eq
  calls_le := h.calls_le
  stack_le := by
    have hle := h.stack_le
    rw [hs, Array.size_push] at hle
    exact Nat.le_of_succ_le hle
  linked := by
    have hlinked := h.linked
    rw [hs, Array.toList_push, List.reverse_append] at hlinked
    cases hlinked with
    | value v hbelow => exact hbelow

theorem changed {a : Nat} {w : Value} (h : Held l p ip calls depth m)
    (ha : m.stack[a]? = some (.value w)) (v : Value) :
    Held l p ip calls depth { m with stack := m.stack.setIfInBounds a (.value v) } where
  ip_eq := h.ip_eq
  globals := h.globals
  calls_eq := h.calls_eq
  calls_le := h.calls_le
  stack_le := by
    rw [Array.size_setIfInBounds]
    exact h.stack_le
  linked := by
    have hlinked := h.linked
    rw [← Array.getElem?_toList] at ha
    obtain ⟨hlt, hget⟩ := List.getElem?_eq_some_iff.mp ha
    rw [← List.take_append_drop a m.stack.toList, List.drop_eq_getElem_cons hlt, hget,
      List.reverse_append, List.reverse_cons, List.append_assoc] at hlinked
    rw [Array.toList_setIfInBounds, List.set_eq_take_append_cons_drop, if_pos hlt,
      List.reverse_append, List.reverse_cons, List.append_assoc]
    exact hlinked.set

theorem base_le (h : Held l p ip calls depth m) : m.base ≤ m.stack.size := by
  have hle := h.linked.base_le
  rwa [List.length_reverse, Array.length_toList] at hle

/-- Where a return compares the height of the stack with that of the frame, a sum of 64 bits tells
the same as one without bound: the base is within the stack, so a sum that wraps is too small. -/
theorem height_iff_wrapped (h : Held l p ip calls depth m) (hstack : l.maxStack < 2 ^ 64)
    {locals : Nat} (hlocals : locals < 2 ^ 64) :
    m.stack.size = (m.base + locals) % 2 ^ 64 ↔ m.stack.size = m.base + locals := by
  have hbase := h.base_le
  have hsize := h.stack_le
  omega

end Held

namespace Exec

variable {l : Limits} {p : Program} {ip calls depth : Nat} {m : Machine}

/-- The causes by which a computation may fail while the links are in order. -/
abbrev NoLoss (c : Cause) : Prop := ¬ c.IsLoss

theorem keeps_push (v : Value) : Keeps NoLoss (Held l p ip calls depth) (push l v) :=
  fun _ h => Post.pushCell id fun hroom => h.pushed hroom v

theorem keeps_pop : Keeps NoLoss (Held l p ip calls depth) pop :=
  fun _ h => Post.pop id (fun _ => id) fun _ _ hs => h.popped hs

theorem keeps_setLocal (offset : Int) (v : Value) :
    Keeps NoLoss (Held l p ip calls depth) (setLocal offset v) :=
  fun _ h => Post.setLocal (fun _ => id) (fun _ => id) fun _ _ _ ha => h.changed ha v

theorem keeps_getLocal (offset : Int) :
    Keeps NoLoss (Held l p ip calls depth) (getLocal offset) :=
  fun _ h => Post.getLocal (fun _ => id) (fun _ => id) fun _ => h

theorem keeps_getGlobal {slot : Nat} (hslot : slot < p.globals.length) :
    Keeps NoLoss (Held l p ip calls depth) (getGlobal slot) := fun _ h =>
  Post.getGlobal (fun hle => absurd (h.globals ▸ hle) (Nat.not_le.mpr hslot)) fun _ => h

theorem keeps_setGlobal {slot : Nat} (hslot : slot < p.globals.length) (v : Value) :
    Keeps NoLoss (Held l p ip calls depth) (setGlobal slot v) := fun _ h =>
  Post.setGlobal (fun hle => absurd (h.globals ▸ hle) (Nat.not_le.mpr hslot))
    { h with globals := (Array.size_setIfInBounds ..).trans h.globals }

theorem keeps_operator (op : Operator) :
    Keeps NoLoss (Held l p ip calls depth) (operator l op) :=
  Keeps.operator (Keeps.reduce keeps_pop keeps_push fun _ h => h.not_isLoss)
    (fun _ _ h => { h with }) id op

theorem post_jumpIfFalse (h : Held l p ip calls depth m) (target : Nat) :
    Post NoLoss (jumpIfFalse target) m fun _ m' =>
      Held l p ip calls depth m' ∨ Held l p target calls depth m' := by
  unfold jumpIfFalse
  refine (keeps_pop m h).bind fun v m' h' => ?_
  split
  · exact Or.inl h'
  · exact Or.inr { h' with ip_eq := rfl }
  · exact id

/-- A call adds a pair of links. -/
theorem post_call (h : Held l p ip calls calls m) (hip : ip < p.code.size) (target : Nat) :
    Post NoLoss (call l p target) m fun _ => Held l p target (calls + 1) (calls + 1) := by
  refine Post.call id id fun hdepth hroom => ⟨rfl, h.globals, ?_, ?_, ?_, ?_⟩
  · rw [Array.size_push, h.calls_eq]
  · rw [← h.calls_eq]
    exact hdepth
  · rw [Array.size_push, Array.size_push]
    exact hroom
  · have hlinked := Linked.links (h.ip_eq.symm ▸ hip) h.linked
    simpa using hlinked

theorem post_drop (h : Held l p ip calls depth m) (count : Nat) :
    Post NoLoss (drop count) m fun _ m' =>
      Held l p ip calls depth m' ∧ m'.base = m.base ∧ m'.stack.size + count = m.stack.size := by
  induction count generalizing m with
  | zero => exact ⟨h, rfl, rfl⟩
  | succ count ih =>
    refine (Post.pop (Q := fun _ m' => Held l p ip calls depth m' ∧ m'.base = m.base ∧
      m'.stack.size + 1 = m.stack.size) id (fun _ => id) fun s v hs => ⟨h.popped hs, rfl, ?_⟩).bind ?_
    · rw [hs, Array.size_push]
    · rintro _ m' ⟨h', hb, hsize⟩
      refine (ih h').mono fun _ m'' ⟨h'', hb', hsize'⟩ => ⟨h'', hb'.trans hb, ?_⟩
      omega

/-- Where a frame holds no value, the topmost cell is the saved base, and the return address lies
right below it. -/
theorem post_restoreBase (h : Held l p ip calls depth m) (hbase : m.base = m.stack.size) :
    Post NoLoss restoreBase m fun _ m' => ∃ r < p.code.size, ∃ d s, depth = d + 1 ∧
      m'.stack = s.push (.returnAddress r) ∧ Held l p ip calls d { m' with stack := s } := by
  refine Post.bind_popCell id fun s c hs => ?_
  have hlinked := h.linked
  rw [hs, Array.toList_push, List.reverse_append] at hlinked
  obtain ⟨b, r, below, d, rfl, hcells, hd, hr, hbelow⟩ := hlinked.top (by simp [hbase, hs])
  have hbottom : s = below.reverse.toArray.push (.returnAddress r) := by
    apply Array.toList_inj.mp
    rw [Array.toList_push, ← List.reverse_inj, List.reverse_append, List.reverse_reverse]
    exact hcells
  have hle := h.stack_le
  rw [hs, hbottom, Array.size_push, Array.size_push] at hle
  refine ⟨r, hr, d, below.reverse.toArray, hd, hbottom, h.ip_eq, h.globals, h.calls_eq, h.calls_le,
    ?_, ?_⟩
  · exact Nat.le_of_succ_le (Nat.le_of_succ_le hle)
  · rw [List.reverse_reverse]
    exact hbelow

/-- A return removes the topmost pair of links. -/
theorem post_unwind (h : Held l p ip calls calls m) (params locals : Nat) :
    Post NoLoss (unwind l params locals) m fun _ m' =>
      ∃ r < p.code.size, ∃ c, Held l p r c c m' := by
  unfold unwind
  refine (keeps_pop m h).bind fun v m₁ h₁ => Post.bind_get ?_
  have htail (hsize : m₁.stack.size = m₁.base + locals) : Post NoLoss
      (do drop locals; restoreBase; restoreAddress; drop params; leave; push l v) m₁ fun _ m' =>
        ∃ r < p.code.size, ∃ c, Held l p r c c m' := by
    refine (post_drop h₁ locals).bind fun _ m₂ ⟨h₂, hb, hs⟩ => ?_
    refine (post_restoreBase h₂ (by omega)).bind fun _ m₃ ⟨r, hr, d, s, hd, hs₃, h₃⟩ => ?_
    have haddress : Post NoLoss restoreAddress m₃ fun _ => Held l p r calls d :=
      Post.restoreAddress hs₃ { h₃ with ip_eq := rfl }
    refine haddress.bind fun _ m₄ h₄ => ?_
    refine (Keeps.drop keeps_pop params m₄ h₄).bind fun _ m₅ h₅ => ?_
    have hleave : Post NoLoss leave m₅ fun _ => Held l p r d d :=
      { h₅ with
        calls_eq := by
          show m₅.calls.pop.size = d
          rw [Array.size_pop, h₅.calls_eq, hd, Nat.add_sub_cancel]
        calls_le := Nat.le_trans (by omega) h₅.calls_le }
    exact hleave.bind fun _ m₆ h₆ => (keeps_push v m₆ h₆).mono fun _ m₇ h₇ => ⟨r, hr, d, h₇⟩
  by_cases hsize : m₁.stack.size ≠ m₁.base + locals
  · rw [if_pos hsize]
    exact id
  · rw [if_neg hsize]
    exact htail (not_not.mp hsize)

end Exec

namespace Machine

variable {l : Limits} {p : Program} {m : Machine}

/-- Between two instructions: the next one is there, and there are as many pairs of links as active
calls. -/
structure Ordered (l : Limits) (p : Program) (m : Machine) : Prop where
  ip_lt : m.ip < p.code.size
  held : Held l p m.ip m.calls.size m.calls.size m

theorem Ordered.ofHeld {ip calls : Nat} (h : Held l p ip calls calls m) (hip : ip < p.code.size) :
    Ordered l p m := by
  obtain rfl := h.ip_eq
  obtain rfl := h.calls_eq
  exact ⟨hip, h⟩

end Machine

/-- Only a return can be the last instruction. -/
theorem Program.Closed.succ_lt {p : Program} (hp : p.Closed) {index : Nat} {i : Instr}
    (hi : p.code.get? index = some i) (hret : ∀ params locals, i ≠ .ret params locals) :
    index + 1 < p.code.size := by
  obtain ⟨params, locals, hlast⟩ := hp.ending
  have hlt := (Array.getElem?_eq_some_iff.mp hi).1
  have hne : index ≠ p.code.instrs.size - 1 := by
    rintro rfl
    rw [Array.back?] at hlast
    exact hret params locals (Option.some.inj (hi.symm.trans hlast))
  show index + 1 < p.code.instrs.size
  omega

namespace Exec

variable {l : Limits} {p : Program} {m : Machine} {ip : Nat}

theorem post_ret (h : Held l p ip m.calls.size m.calls.size m) (params locals : Nat) :
    Post NoLoss (ret l params locals) m fun r m' => r = none → m'.Ordered l p := by
  unfold ret
  refine Post.bind_get ?_
  split
  · rename_i rest hops
    have h' : Held l p ip m.calls.size m.calls.size { m with operators := rest } := { h with }
    exact (post_unwind h' params locals).bind fun _ m' ⟨r, hr, c, hc⟩ =>
      Post.pure fun _ => .ofHeld hc hr
  · have hfinish : Keeps NoLoss (Held l p ip m.calls.size m.calls.size) finish :=
      keeps_pop.bind fun v => Keeps.get.bind fun m' => by
        split
        · exact .pure v
        · exact fun _ _ => id
    exact (hfinish m h).bind fun v _ _ => Post.pure nofun

/-- **Every instruction of a checked program keeps the links in order.** -/
theorem post_step {i : Instr} (hp : p.Closed) (hi : i ∈ p.code.instrs)
    (hnext : (∀ params locals, i ≠ .ret params locals) → ip < p.code.size)
    (h : Held l p ip m.calls.size m.calls.size m) :
    Post NoLoss (step l p i) m fun r m' => r = none → m'.Ordered l p := by
  have andNone {x : Exec Unit} {Q : Unit → Machine → Prop} (hx : Post NoLoss x m Q)
      (hQ : ∀ m', Q () m' → m'.Ordered l p) :
      Post NoLoss (do x; return (none : Option Value)) m fun r m' => r = none → m'.Ordered l p :=
    hx.bind fun _ m' h' => Post.pure fun _ => hQ m' h'
  have keeping (hret : ∀ params locals, i ≠ .ret params locals) {x : Exec (Option Value)}
      (hx : Keeps NoLoss (Held l p ip m.calls.size m.calls.size) x) :
      Post NoLoss x m fun r m' => r = none → m'.Ordered l p :=
    (hx m h).mono fun _ m' h' _ => .ofHeld h' (hnext hret)
  cases i with
  | push v => exact keeping nofun ((keeps_push v).bind fun _ => .pure none)
  | getGlobal slot =>
    exact keeping nofun ((keeps_getGlobal (hp.reads slot hi)).bind fun v =>
      (keeps_push v).bind fun _ => .pure none)
  | setGlobal slot =>
    exact keeping nofun (keeps_pop.bind fun v =>
      (keeps_setGlobal (hp.writes slot hi) v).bind fun _ => .pure none)
  | getLocal offset =>
    exact keeping nofun ((keeps_getLocal offset).bind fun v =>
      (keeps_push v).bind fun _ => .pure none)
  | setLocal offset =>
    exact keeping nofun (keeps_pop.bind fun v =>
      (keeps_setLocal offset v).bind fun _ => .pure none)
  | declareLocal => exact keeping nofun ((keeps_push .undefined).bind fun _ => .pure none)
  | jump target =>
    exact fun _ => .ofHeld { h with ip_eq := rfl } (hp.jumps _ hi target rfl)
  | jumpIfFalse target =>
    refine andNone (post_jumpIfFalse h target) fun m' h' => ?_
    rcases h' with h' | h'
    · exact .ofHeld h' (hnext nofun)
    · exact .ofHeld h' (hp.jumps _ hi target rfl)
  | call target =>
    obtain ⟨f, hf, rfl⟩ := hp.calls target hi
    exact andNone (post_call h (hnext nofun) f.entry) fun m' h' => .ofHeld h' (hp.functions f hf)
  | ret params locals => exact post_ret h params locals
  | operator op => exact keeping nofun ((keeps_operator op).bind fun _ => .pure none)
  | pop => exact keeping nofun (keeps_pop.bind fun _ => .pure none)

end Exec

/-! ## Runs -/

namespace Machine

variable {l : Limits} {p : Program} {m : Machine}

/-- A machine that starts a checked program is in order. -/
theorem Ordered.start (hp : p.Closed) (m : Machine) : (m.start p).Ordered l p := by
  refine ⟨?_, rfl, Array.size_replicate, rfl, Nat.zero_le _, Nat.zero_le _, .bottom⟩
  obtain ⟨params, locals, hlast⟩ := hp.ending
  obtain ⟨before, hcode⟩ := Array.back?_eq_some_iff.mp hlast
  show 0 < p.code.instrs.size
  rw [hcode, Array.size_push]
  exact Nat.succ_pos _

/-- A tick keeps the machine in order or fails with none of the losses. -/
theorem Ordered.tick (hp : p.Closed) (h : m.Ordered l p) :
    (∀ m', tick l p m = .ok none m' → m'.Ordered l p) ∧
      ∀ f m', tick l p m = .error f m' → ¬ f.cause.IsLoss := by
  cases hi : p.code.get? m.ip with
  | none =>
    have hle := Array.getElem?_eq_none_iff.mp hi
    exact absurd h.ip_lt (Nat.not_lt.mpr hle)
  | some i =>
    have hstep : Exec.Post Exec.NoLoss (Exec.step l p i)
        { m with ip := m.ip + 1, steps := m.steps + 1 } fun r m' => r = none → m'.Ordered l p :=
      Exec.post_step hp (Array.mem_of_getElem? hi) (hp.succ_lt hi) { h.held with ip_eq := rfl }
    constructor
    · intro m' ht
      obtain ⟨j, hj, hm'⟩ := tick_eq_ok ht
      obtain rfl := Option.some.inj (hi.symm.trans hj)
      exact hstep.ok hm' rfl
    · intro f m' ht
      rcases tick_eq_error ht with ⟨bound, hc⟩ | ⟨hnone, -⟩ | ⟨j, hj, hm'⟩
      · rw [hc]
        exact id
      · rw [hi] at hnone
        cases hnone
      · obtain rfl := Option.some.inj (hi.symm.trans hj)
        exact hstep.error hm'

/-- The machines of a run of a checked program are in order. -/
theorem Ordered.after? (hp : p.check = .ok ()) {n : Nat} {m₀ : Machine}
    (h : after? l p n (m₀.start p) = some m) : m.Ordered l p := by
  have hclosed := p.check_eq_ok_iff_closed.mp hp
  exact after?_induct (fun _ m₁ hm ht => (hm.tick hclosed).1 m₁ ht) (.start hclosed m₀) h

/-- What holds at a boundary between two instructions: the instruction pointer and the base are
within the code and the stack, the globals are there, the limits are kept, and the cells that are no
values are the links of the active calls. -/
structure Boundary (l : Limits) (p : Program) (m : Machine) : Prop where
  ip_lt : m.ip < p.code.size
  globals : m.globals.size = p.globals.length
  stack_le : m.stack.size ≤ l.maxStack
  calls_le : m.calls.size ≤ l.maxDepth
  base_le : m.base ≤ m.stack.size
  links : ∃ links, links.length = m.calls.size ∧ links.Pairwise (fun i j => j + 2 ≤ i) ∧
    Chain p.code.size m.stack.toList links m.base ∧ OnlyLinks m.stack.toList links

theorem Ordered.boundary (h : m.Ordered l p) : m.Boundary l p where
  ip_lt := h.ip_lt
  globals := h.held.globals
  stack_le := h.held.stack_le
  calls_le := h.held.calls_le
  base_le := h.held.base_le
  links := by
    obtain ⟨links, hlen, -, hpair, hchain, honly⟩ := h.held.linked.chain
    rw [List.reverse_reverse] at hchain honly
    exact ⟨links, hlen, hpair, hchain, honly⟩

/-- **The links of a checked program are never lost**: every boundary of every run is in order, and
the run neither leaves the code, nor misses a global, nor finds a saved base without its return
address. -/
theorem checked_boundary (l : Limits) (p : Program) (m₀ : Machine) (hp : p.check = .ok ()) :
    (∀ n m, after? l p n (m₀.start p) = some m → m.Boundary l p) ∧
      ∀ fuel f m, m₀.run? l p fuel = some (.error f, m) →
        f.cause ≠ .defect .indexOutOfRange ∧ (∀ slot, f.cause ≠ .defect (.noGlobalSlot slot)) ∧
          ∀ c, f.cause ≠ .defect (.expectedReturnAddress c) := by
  constructor
  · exact fun n m h => (Ordered.after? hp h).boundary
  · intro fuel f m h
    rw [run?_eq hp] at h
    obtain ⟨result, hrun, hended⟩ := Option.map_eq_some_iff.mp h
    obtain ⟨n, m₁, hn, hlast⟩ := runFor_eq_some hrun
    have hcause : ¬ f.cause.IsLoss := by
      cases result with
      | ok v m₂ => cases hended
      | error g m₂ =>
        obtain rfl : g.within m₂.calls.toList = f := Except.error.inj (congrArg Prod.fst hended)
        rw [cause_within]
        exact ((Ordered.after? hp hn).tick (p.check_eq_ok_iff_closed.mp hp)).2 g m₂ hlast
    refine ⟨fun hc => ?_, fun slot hc => ?_, fun c hc => ?_⟩
    all_goals
      rw [hc] at hcause
      exact hcause trivial

end Machine

/-- A function that calls itself without end and that is passed one value where it would drop two on
return. -/
def Program.greedy : Program where
  code := ⟨#[.operator .prepareCall, .push (.int 5), .call 4, .ret 0 0,
    .operator .prepareCall, .getLocal 2, .call 4, .ret 2 0]⟩
  globals := []
  functions := [⟨"f", 4, 1, 0⟩]

/-- Three calls deep. -/
theorem Machine.checked_boundary_greedy :
    Program.greedy.check = .ok () ∧
      ∃ m, after? ⟨20, 3, none⟩ Program.greedy 9 (idle.start Program.greedy) = some m ∧
        m.calls.size = 3 ∧ m.Boundary ⟨20, 3, none⟩ Program.greedy := by
  have hcheck : Program.greedy.check = .ok () := by decide
  have hcalls : (after? ⟨20, 3, none⟩ Program.greedy 9 (idle.start Program.greedy)).map
      (·.calls.size) = some 3 := by decide
  obtain ⟨m, hm, hsize⟩ := Option.map_eq_some_iff.mp hcalls
  exact ⟨hcheck, m, hm, hsize, (checked_boundary _ _ idle hcheck).1 9 m hm⟩

end StackScript
