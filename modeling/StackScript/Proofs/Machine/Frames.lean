import StackScript.Proofs.Machine.Shape
import StackScript.Proofs.Machine.Untouched

/-!
# Frames at run time

The shapes of code describe the frames of a running machine. `Framed` says that a machine holds a
number of values and pending operators above a `Ground`, which is what belongs to the callers, and
`Stacked` that the ground consists of the frames of callers, each waiting behind a call for a shape of
its own code. Every tick that succeeds leads from such a machine to such a machine
(`Active.tick`); a return gives back the ground of the caller as the call left it, for nothing that
happens in between reaches below the arguments.
-/

namespace StackScript

/-- What lies below the values of a frame. -/
structure Ground where
  cells : List Cell
  ops : List Operator
  base : Nat
  calls : Array String

/-- A machine at an index that holds `n` values and the pending operators `ops` above a ground. -/
structure Framed (g : Ground) (n : Nat) (ops : List Operator) (index : Nat) (m : Machine) : Prop where
  stack : ∃ vs : List Value, vs.length = n ∧ m.stack = (g.cells ++ vs.map Cell.value).toArray
  operators : m.operators = ops ++ g.ops
  base : m.base = g.base
  calls : m.calls = g.calls
  ip : m.ip = index

theorem exists_snoc_of_length {α : Type} {xs : List α} {n : Nat} (h : xs.length = n + 1) :
    ∃ ys y, xs = ys ++ [y] ∧ ys.length = n := by
  rcases List.eq_nil_or_concat xs with rfl | ⟨ys, y, rfl⟩
  · cases h
  · rw [List.concat_eq_append] at h ⊢
    exact ⟨ys, y, rfl, by simpa using h⟩

open Exec

/-- No failure is excluded. -/
abbrev AnyCause : Cause → Prop := fun _ => True

namespace Framed

variable {l : Limits} {p : Program} {g : Ground} {n index : Nat} {ops : List Operator} {m : Machine}

/-! ## Values and operators -/

theorem push (h : Framed g n ops index m) (v : Value) :
    Post AnyCause (Exec.push l v) m fun _ => Framed g (n + 1) ops index := by
  obtain ⟨vs, hlen, hs⟩ := h.stack
  exact Post.pushCell trivial fun _ =>
    { h with stack := ⟨vs ++ [v], by simp [hlen], by simp [hs]⟩ }

theorem pop (h : Framed g (n + 1) ops index m) :
    Post AnyCause Exec.pop m fun _ => Framed g n ops index := by
  obtain ⟨vs, hlen, hs⟩ := h.stack
  obtain ⟨ws, w, rfl, hws⟩ := exists_snoc_of_length hlen
  refine Post.pop trivial (fun _ => trivial) fun s v hv => ?_
  have hpush : s.push (.value v) = (g.cells ++ ws.map Cell.value).toArray.push (.value w) := by
    rw [← hv, hs]
    simp
  exact { h with stack := ⟨ws, hws, (Array.push_eq_push.mp hpush).2⟩ }

theorem drop (h : Framed g n ops index m) {count : Nat} (hcount : count ≤ n) :
    Post AnyCause (Exec.drop count) m fun _ => Framed g (n - count) ops index := by
  induction count generalizing m n with
  | zero => exact h
  | succ count ih =>
    obtain ⟨n, rfl⟩ : ∃ k, n = k + 1 := ⟨n - 1, by omega⟩
    refine h.pop.bind fun _ m' h' => ?_
    rw [Nat.add_sub_add_right]
    exact ih h' (by omega)

/-- An operator replaces its operands by a value. -/
theorem reduce {op : Operator} (h : Framed g n ops index m) (hn : binaries [op] < n) :
    Post AnyCause (Exec.reduce l op) m fun _ => Framed g (n - binaries [op]) ops index := by
  have hresult {k : Nat} {m : Machine} (h : Framed g k ops index m) (x : Except Cause Value) :
      Post AnyCause (do Exec.push l (← Exec.ofExcept x)) m fun _ => Framed g (k + 1) ops index :=
    (Post.ofExcept (Q := fun _ m' => Framed g k ops index m') (fun _ _ => trivial)
      fun _ _ => h).bind fun v _ h' => h'.push v
  unfold Exec.reduce
  by_cases hu : op.isUnary = true
  · have hbinaries : binaries [op] = 0 := by simp [binaries, hu]
    obtain ⟨n, rfl⟩ : ∃ k, n = k + 1 := ⟨n - 1, by omega⟩
    rw [if_pos hu, hbinaries]
    exact h.pop.bind fun v _ h' => hresult h' _
  · have hbinaries : binaries [op] = 1 := by simp [binaries, hu]
    obtain ⟨n, rfl⟩ : ∃ k, n = k + 2 := ⟨n - 2, by omega⟩
    rw [if_neg hu, hbinaries]
    exact h.pop.bind fun b _ h' => h'.pop.bind fun a _ h'' => hresult h'' _

theorem setOperators (h : Framed g n ops index m) (ops' : List Operator) :
    Framed g n ops' index { m with operators := ops' ++ g.ops } :=
  { h with operators := rfl }

/-- Operators are taken off and applied as long as a test holds of them. It has to end inside the
frame or on its ground. -/
theorem applyWhile {test : Operator → Bool} (h : Framed g n ops index m)
    (hn : binaries (ops.takeWhile test) < n)
    (hstop : ops.dropWhile test ≠ [] ∨ ∀ q ∈ g.ops.head?, test q = false) :
    Post AnyCause (Exec.applyWhile (Exec.reduce l) test (ops ++ g.ops)) m fun _ =>
      Framed g (n - binaries (ops.takeWhile test)) (ops.dropWhile test) index := by
  induction ops generalizing m n with
  | nil =>
    have hground := hstop.resolve_left fun hne => hne rfl
    unfold Post
    rw [List.nil_append, applyWhile_stop hground]
    exact h
  | cons op rest ih =>
    unfold Post
    rw [List.cons_append]
    by_cases hop : test op = true
    · rw [List.takeWhile_cons_of_pos hop] at hn ⊢
      rw [List.dropWhile_cons_of_pos hop] at hstop ⊢
      have hsum : binaries (op :: rest.takeWhile test) =
          binaries [op] + binaries (rest.takeWhile test) := by
        rw [binaries, binaries, binaries, ← List.countP_append, List.singleton_append]
      rw [hsum] at hn ⊢
      rw [applyWhile_next hop, ← Nat.sub_sub]
      exact ((h.setOperators rest).reduce (by omega)).bind fun _ m' h' => ih h' (by omega) hstop
    · rw [List.takeWhile_cons_of_neg hop, List.dropWhile_cons_of_neg hop]
      rw [applyWhile_stop fun q hq => ?_]
      · exact h
      · cases hq
        exact Bool.eq_false_iff.mpr hop

section Shapes

variable {body : Body} {X Y : Shape} {op : Operator}

/-- Operators are applied as the shape says. -/
theorem applyWhile_shape {test : Operator → Bool} {rest : List Operator}
    (hY : X.reduce? (X.ops.takeWhile test) rest = some Y)
    (h : Framed g (X.locals + X.temps) X.ops index m)
    (hstop : X.ops.dropWhile test ≠ [] ∨ ∀ q ∈ g.ops.head?, test q = false) :
    Post AnyCause (Exec.applyWhile (Exec.reduce l) test m.operators) m fun _ =>
      Framed g (Y.locals + Y.temps) (X.ops.dropWhile test) index := by
  unfold Shape.reduce? at hY
  split at hY
  · rename_i hlt
    cases hY
    have hpost := h.applyWhile (l := l) (Nat.lt_of_lt_of_le hlt (Nat.le_add_left _ _)) hstop
    rwa [Nat.add_sub_assoc (Nat.le_of_lt hlt), ← h.operators] at hpost
  · cases hY

theorem settle (hground : body ≠ .call → ∀ q ∈ g.ops.head?, q.isBarrier)
    (hY : X.settle? body op = some Y) (h : Framed g (X.locals + X.temps) X.ops index m) :
    Post AnyCause (Exec.settle (Exec.reduce l) op) m fun _ =>
      Framed g (Y.locals + Y.temps) Y.ops index := by
  unfold Shape.settle? at hY
  simp only at hY
  split at hY
  · cases hY
  · rename_i hbody
    rw [Shape.ops_of_reduce? hY]
    refine h.applyWhile_shape hY ?_
    by_cases hrest : X.ops.dropWhile (yieldsTo op) = []
    · have hcall : body ≠ .call := fun hb => hbody ⟨hb, hrest⟩
      exact Or.inr fun q hq => by simp [yieldsTo, hground hcall q hq]
    · exact Or.inl hrest

theorem closeGroup (hY : X.closeGroup? = some Y) (h : Framed g (X.locals + X.temps) X.ops index m) :
    Post AnyCause (Exec.closeGroup (Exec.reduce l)) m fun _ =>
      Framed g (Y.locals + Y.temps) Y.ops index := by
  unfold Shape.closeGroup? at hY
  split at hY
  · rename_i rest hopen
    have hstop : X.ops.dropWhile (!·.isBarrier) ≠ [] := by
      rw [hopen]
      exact List.cons_ne_nil _ _
    refine (h.applyWhile_shape hY (Or.inl hstop)).bind fun _ m' h' => ?_
    rw [hopen] at h'
    unfold removeParen
    refine Post.bind_get ?_
    rw [h'.operators, Shape.ops_of_reduce? hY]
    exact h'.setOperators rest
  · cases hY

/-- An operator changes a frame as the shape says. -/
theorem operator (hground : body ≠ .call → ∀ q ∈ g.ops.head?, q.isBarrier)
    (hY : X.operator? body op = some Y) (h : Framed g (X.locals + X.temps) X.ops index m) :
    Post AnyCause (Exec.operator l op) m fun _ => Framed g (Y.locals + Y.temps) Y.ops index := by
  have hawait {X : Shape} {m : Machine} (h : Framed g (X.locals + X.temps) X.ops index m) :
      Post AnyCause (Exec.await op) m fun _ => Framed g (X.locals + X.temps) (op :: X.ops) index :=
    { h with operators := congrArg (op :: ·) h.operators }
  have hbinary (hstep : Exec.operator l op = (do Exec.settle (Exec.reduce l) op; Exec.await op))
      (hY : (X.settle? body op).map (fun Z => { Z with ops := op :: Z.ops }) = some Y) :
      Post AnyCause (Exec.operator l op) m fun _ => Framed g (Y.locals + Y.temps) Y.ops index := by
    obtain ⟨Z, hZ, rfl⟩ := Option.map_eq_some_iff.mp hY
    rw [hstep]
    exact (h.settle hground hZ).bind fun _ m' h' => hawait h'
  cases op with
  | openParen | prepareCall | not | neg | pos =>
    cases hY
    exact hawait h
  | closeParen => exact h.closeGroup hY
  | endOfExpression => exact h.settle hground hY
  | _ => exact hbinary rfl hY

end Shapes

end Framed

/-! ## Frames of callers -/

/-- A region runs on a ground: on the given one the region `root`, and on the frame of another region
a function that has been called from there. The caller waits with `ws` below the arguments, for a
shape `Y` of the index behind the call. -/
inductive Stacked {p : Program} (plan : Plan p) (root : Region) (g₀ : Ground) :
    Region → Ground → Prop where
  | root : Stacked plan root g₀ root g₀
  | call {R : Region} {g : Ground} {Y : Shape} {index target n : Nat} {ws args : List Value}
      (name : String) (below : Stacked plan root g₀ R g) (hafter : R.shapes index Y)
      (hws : ws.length + 1 = Y.locals + Y.temps) (hn : plan.arity target = some n)
      (hargs : args.length = n) :
      Stacked plan root g₀ (plan.region target)
        ⟨g.cells ++ ws.map Cell.value ++ args.map Cell.value ++
            [.returnAddress index, .savedBase g.base],
          .prepareCall :: (Y.ops ++ g.ops), g.cells.length + ws.length + args.length + 2,
          g.calls.push name⟩

/-- A machine that runs a region on a ground, in one of the shapes of its index. -/
def Active {p : Program} (plan : Plan p) (root : Region) (g₀ : Ground) (m : Machine) : Prop :=
  ∃ R g X, Stacked plan root g₀ R g ∧ R.shapes m.ip X ∧
    Framed g (X.locals + X.temps) X.ops m.ip m

namespace Stacked

variable {l : Limits} {p : Program} {plan : Plan p} {root R : Region} {g₀ g : Ground}
  {index : Nat} {X Y : Shape} {m : Machine}

/-- Functions run above a barrier. -/
theorem barrier (hroot : root.body = .call) (h : Stacked plan root g₀ R g) :
    R.body ≠ .call → ∀ q ∈ g.ops.head?, q.isBarrier := by
  intro hbody q hq
  cases h with
  | root => exact absurd hroot hbody
  | call name below hafter hws hn hargs =>
    cases hq
    rfl

/-- A variable of a function is written in its arguments or among its locals. -/
theorem setLocal (hroot : root.body = .call) (h : Stacked plan root g₀ R g) {offset : Int}
    (howns : R.body.Owns X.locals offset) (hm : Framed g (X.locals + X.temps) X.ops index m)
    (v : Value) :
    Post AnyCause (Exec.setLocal offset v) m fun _ m' => ∃ g', Stacked plan root g₀ R g' ∧
      Framed g' (X.locals + X.temps) X.ops index m' := by
  refine Post.setLocal (fun _ => trivial) (fun _ => trivial) fun a w ha _ => ?_
  obtain ⟨vs, hlen, hs⟩ := hm.stack
  cases h with
  | root =>
    rw [hroot] at howns
    cases howns
  | @call R g Y ret target n ws args name below hafter hws hn hargs =>
    obtain ⟨locals, hbody⟩ := plan.body hn
    rw [hbody] at howns
    have hbase : m.base = g.cells.length + ws.length + args.length + 2 := hm.base
    have haddress : (a : Int) = m.base - 1 - offset := by
      unfold Machine.address? at ha
      simp only at ha
      split at ha
      · rename_i hbounds
        have := Option.some.inj ha
        omega
      · cases ha
    rcases howns with ⟨hlow, hhigh⟩ | ⟨hlow, hhigh⟩
    · -- a parameter: the ground changes in the arguments
      obtain ⟨i, hi⟩ : ∃ i : Nat, (i : Int) = n + 1 - offset := ⟨(n + 1 - offset).toNat, by omega⟩
      have hindex : a = (g.cells ++ ws.map Cell.value).length + i := by
        simp
        omega
      have hset : (args.set i v).length = n := by rw [List.length_set, hargs]
      refine ⟨_, .call name below hafter hws hn hset,
        { hm with stack := ⟨vs, hlen, ?_⟩, base := by rw [hm.base, List.length_set] }⟩
      show m.stack.setIfInBounds a (.value v) = _
      rw [hs, List.setIfInBounds_toArray, hindex, List.append_assoc, List.append_assoc,
        List.set_append_right _ _ (Nat.le_add_right _ _), Nat.add_sub_cancel_left,
        List.set_append_left _ _ (by simp; omega), ← List.map_set, ← List.append_assoc,
        ← List.append_assoc]
    · -- a local
      obtain ⟨i, hi⟩ : ∃ i : Nat, (i : Int) = -1 - offset := ⟨(-1 - offset).toNat, by omega⟩
      refine ⟨_, .call name below hafter hws hn hargs,
        { hm with stack := ⟨vs.set i v, by rw [List.length_set, hlen], ?_⟩ }⟩
      have hindex : a = (g.cells ++ ws.map Cell.value ++ args.map Cell.value ++
          [Cell.returnAddress ret, Cell.savedBase g.base]).length + i := by
        simp
        omega
      show m.stack.setIfInBounds a (.value v) = _
      rw [hs, List.setIfInBounds_toArray, hindex,
        List.set_append_right _ _ (Nat.le_add_right _ _), Nat.add_sub_cancel_left, List.map_set]

/-- A call opens a frame above its arguments. -/
theorem enter (h : Stacked plan root g₀ R g) {target : Nat}
    (hY : X.call? plan.arity target = some Y) (hafter : R.shapes index Y)
    (hm : Framed g (X.locals + X.temps) X.ops index m) :
    Post AnyCause (Exec.call l p target) m fun _ => Active plan root g₀ := by
  unfold Shape.call? at hY
  split at hY
  · rename_i rest n hops hn
    split at hY
    · rename_i hle
      cases hY
      obtain ⟨vs, hlen, hs⟩ := hm.stack
      -- the arguments are the last values
      obtain ⟨ws, args, rfl, hargs⟩ : ∃ ws args, vs = ws ++ args ∧ args.length = n :=
        ⟨vs.take (vs.length - n), vs.drop (vs.length - n), (List.take_append_drop _ _).symm, by
          rw [List.length_drop]
          omega⟩
      rw [List.length_append] at hlen
      have hws : ws.length + 1 = X.locals + (X.temps - n + 1) := by omega
      refine Post.call trivial trivial fun _ _ => ⟨_, _, .zero,
        .call (callName p target) h hafter hws hn hargs, plan.entry hn, ⟨[], rfl, ?_⟩, ?_, ?_, ?_,
        rfl⟩
      · simp [hs, hm.ip, hm.base]
      · simp [hm.operators, hops, Shape.zero]
      · simp [hs]
        omega
      · simp [hm.calls]
    · cases hY
  · cases hY

/-- Unwinding a frame leads back to the caller, which finds all as it was but for the result in the
place of the arguments. -/
theorem unwind (below : Stacked plan root g₀ R g) (hafter : R.shapes index Y)
    {ws args : List Value} {name : String} {locals current : Nat}
    (hws : ws.length + 1 = Y.locals + Y.temps)
    (hm : Framed ⟨g.cells ++ ws.map Cell.value ++ args.map Cell.value ++
        [.returnAddress index, .savedBase g.base], Y.ops ++ g.ops,
        g.cells.length + ws.length + args.length + 2, g.calls.push name⟩ (locals + 1) [] current m) :
    Post AnyCause (Exec.unwind l args.length locals) m fun _ => Active plan root g₀ := by
  unfold Exec.unwind
  refine hm.pop.bind fun v m₁ h₁ => Post.bind_get ?_
  have htail : Post AnyCause
      (do Exec.drop locals; restoreBase; restoreAddress; Exec.drop args.length; leave; Exec.push l v)
      m₁ fun _ => Active plan root g₀ := by
    refine (h₁.drop (Nat.le_refl _)).bind fun _ m₂ h₂ => ?_
    obtain ⟨vs, hlen, hs⟩ := h₂.stack
    obtain rfl : vs = [] := List.eq_nil_of_length_eq_zero (by omega)
    have hlinks : m₂.stack = ((g.cells ++ (ws ++ args).map Cell.value).toArray.push
        (.returnAddress index)).push (.savedBase g.base) := by simp [hs]
    have hcaller : Post AnyCause restoreAddress
        { m₂ with
          stack := (g.cells ++ (ws ++ args).map Cell.value).toArray.push (.returnAddress index)
          base := g.base }
        fun _ => Framed { g with calls := g.calls.push name } (ws ++ args).length Y.ops index :=
      Post.restoreAddress rfl ⟨⟨ws ++ args, rfl, rfl⟩, h₂.operators, rfl, h₂.calls, rfl⟩
    refine Post.bind (Post.restoreBase hlinks (Q := fun _ m' => m' = _) rfl) ?_
    rintro _ m₃ rfl
    refine hcaller.bind fun _ m₄ h₄ => ?_
    refine (h₄.drop (by rw [List.length_append]; exact Nat.le_add_left _ _)).bind fun _ m₅ h₅ => ?_
    have hleave : Post AnyCause leave m₅ fun _ => Framed g ws.length Y.ops index :=
      { h₅ with
        stack := by
          obtain ⟨us, hus, hs₅⟩ := h₅.stack
          exact ⟨us, by simpa using hus, hs₅⟩
        calls := by
          show m₅.calls.pop = g.calls
          rw [h₅.calls, Array.pop_push] }
    refine hleave.bind fun _ m₆ h₆ => (h₆.push v).mono fun _ m₇ h₇ => ?_
    rw [hws] at h₇
    obtain rfl := h₇.ip
    exact ⟨R, g, Y, below, hafter, h₇⟩
  split
  · trivial
  · exact htail

/-- A return from a function leads back to its caller. -/
theorem ret (hroot : root.body = .call) (h : Stacked plan root g₀ R g) {params locals : Nat}
    (hbody : R.body = .function params locals) (hm : Framed g (locals + 1) [] index m) :
    Post AnyCause (Exec.ret l params locals) m fun _ => Active plan root g₀ := by
  cases h with
  | root =>
    rw [hroot] at hbody
    cases hbody
  | @call R g Y after target n ws args name below hafter hws hn hargs =>
    obtain ⟨locals', hbody'⟩ := plan.body hn
    obtain ⟨rfl, rfl⟩ : n = params ∧ locals' = locals := by
      rw [hbody'] at hbody
      cases hbody
      exact ⟨rfl, rfl⟩
    obtain rfl := hargs
    unfold Exec.ret
    refine Post.bind_get ?_
    rw [hm.operators]
    have hpopped : Post AnyCause (Exec.unwind l args.length locals')
        { m with operators := Y.ops ++ g.ops } fun _ => Active plan root g₀ :=
      below.unwind hafter hws { hm with operators := rfl }
    exact hpopped.bind fun _ m' h' => Post.pure h'

theorem sound (hsound : root.Sound p plan.arity) (h : Stacked plan root g₀ R g) :
    R.Sound p plan.arity := by
  cases h with
  | root => exact hsound
  | call name below hafter hws hn hargs => exact plan.sound hn

/-- Only the region at the bottom is that of a call. -/
theorem ground_eq (h : Stacked plan root g₀ R g) (hbody : R.body = .call) : g = g₀ := by
  cases h with
  | root => rfl
  | call name below hafter hws hn hargs =>
    obtain ⟨locals, hfunction⟩ := plan.body hn
    rw [hfunction] at hbody
    cases hbody

theorem length_ops_le (h : Stacked plan root g₀ R g) : g₀.ops.length ≤ g.ops.length := by
  induction h with
  | root => exact Nat.le_refl _
  | call name below hafter hws hn hargs ih =>
    simp only [List.length_cons, List.length_append]
    omega

/-- Above the frames of callers more operators wait than on the ground at the bottom. -/
theorem eq_root (h : Stacked plan root g₀ R g) (hlen : g.ops.length ≤ g₀.ops.length) :
    R = root ∧ g = g₀ := by
  cases h with
  | root => exact ⟨rfl, rfl⟩
  | call name below hafter hws hn hargs =>
    have hbelow := below.length_ops_le
    simp only [List.length_cons, List.length_append] at hlen
    omega

/-- **An instruction leads from a shape of its index to one of the index that follows.** -/
theorem step (hroot : root.body = .call) (h : Stacked plan root g₀ R g) {i : Instr}
    (hnext : X.next? plan.arity R.body i = some Y)
    (hfall : (∀ target, i ≠ .jump target) → (∀ params locals, i ≠ .ret params locals) →
      R.shapes index Y)
    (hjump : ∀ target, i.jumpTarget? = some target → R.shapes target Y)
    (hm : Framed g (X.locals + X.temps) X.ops index m) :
    Post AnyCause (Exec.step l p i) m fun _ => Active plan root g₀ := by
  have hactive {g' : Ground} {m' : Machine} {target : Nat} (h : Stacked plan root g₀ R g')
      (hY : R.shapes target Y) (hm : Framed g' (Y.locals + Y.temps) Y.ops target m') :
      Active plan root g₀ m' := by
    obtain rfl := hm.ip
    exact ⟨R, g', Y, h, hY, hm⟩
  have plain (hret : ∀ params locals, i ≠ .ret params locals) (hi : ∀ target, i ≠ .jump target)
      {x : Exec Unit} (hx : Post AnyCause x m fun _ => Framed g (Y.locals + Y.temps) Y.ops index) :
      Post AnyCause (do x; return (none : Option Value)) m fun _ => Active plan root g₀ :=
    hx.bind fun _ m' h' => Post.pure (hactive h (hfall hi hret) h')
  have hpop (hY : X.drop? = some Y) :
      Post AnyCause Exec.pop m fun _ => Framed g (Y.locals + Y.temps) Y.ops index := by
    obtain rfl := Shape.drop?_eq_some hY
    exact hm.pop
  cases i with
  | push v =>
    cases hnext
    exact plain nofun nofun (hm.push v)
  | getGlobal slot =>
    cases hnext
    refine (Post.getGlobal (Q := fun _ m' => m' = m) (fun _ => trivial) fun _ => rfl).bind ?_
    rintro v _ rfl
    exact plain nofun nofun (hm.push v)
  | setGlobal slot =>
    refine (hpop hnext).bind fun v m₁ h₁ => ?_
    refine (Post.setGlobal (Q := fun _ => Active plan root g₀) (fun _ => trivial) ?_).bind
      fun _ m₂ h₂ => Post.pure h₂
    exact hactive h (hfall nofun nofun) { h₁ with }
  | getLocal offset =>
    cases hnext
    refine (Post.getLocal (Q := fun _ m' => m' = m) (fun _ => trivial) (fun _ => trivial)
      fun _ => rfl).bind ?_
    rintro v _ rfl
    exact plain nofun nofun (hm.push v)
  | setLocal offset =>
    obtain ⟨howns, hY⟩ := Option.ite_none_right_eq_some.mp hnext
    have hlocals : X.locals = Y.locals := by rw [Shape.drop?_eq_some hY]
    rw [hlocals] at howns
    refine (hpop hY).bind fun v m₁ h₁ => ?_
    refine (h.setLocal hroot howns h₁ v).bind fun _ m₂ ⟨g', h', h₂⟩ => ?_
    exact Post.pure (hactive h' (hfall nofun nofun) h₂)
  | declareLocal =>
    obtain ⟨-, hY⟩ := Option.ite_none_right_eq_some.mp hnext
    cases hY
    refine plain nofun nofun ((hm.push .undefined).mono fun _ m' h' => ?_)
    rw [Nat.add_right_comm] at h'
    exact h'
  | jump target =>
    obtain ⟨params, locals, -, hX, rfl⟩ := Shape.rest?_eq_some hnext
    obtain ⟨locals', temps, ops⟩ := X
    cases hX
    exact hactive h (hjump target rfl) { hm with ip := rfl }
  | jumpIfFalse target =>
    obtain ⟨params, locals, -, rfl, rfl⟩ := Shape.rest?_eq_some hnext
    refine Post.bind (R := fun _ => Active plan root g₀) ?_ fun _ m' h' => Post.pure h'
    unfold Exec.jumpIfFalse
    refine hm.pop.bind fun v m₁ h₁ => ?_
    split
    · exact hactive h (hfall nofun nofun) h₁
    · exact hactive h (hjump target rfl) { h₁ with ip := rfl }
    · trivial
  | call target => exact (h.enter hnext (hfall nofun nofun) hm).bind fun _ m' h' => Post.pure h'
  | ret params locals =>
    obtain ⟨hbody, hrest⟩ := Option.ite_none_right_eq_some.mp hnext
    obtain ⟨params', locals', hbody', rfl, rfl⟩ := Shape.rest?_eq_some hrest
    rw [hbody] at hbody'
    cases hbody'
    exact h.ret hroot hbody hm
  | operator op => exact plain nofun nofun (hm.operator (h.barrier hroot) hnext)
  | pop => exact (hpop hnext).bind fun _ m₁ h₁ => Post.pure (hactive h (hfall nofun nofun) h₁)

end Stacked

namespace Active

open Machine

variable {l : Limits} {p : Program} {plan : Plan p} {root : Region} {g₀ : Ground} {m m' : Machine}

/-- As long as the call at the bottom has not ended, a tick executes an instruction that does what
the region says. -/
theorem exists_step (hsound : root.Sound p plan.arity) (h : Active plan root g₀ m)
    (hops : g₀.ops.length < m.operators.length) (ht : Machine.tick l p m = .ok none m') :
    ∃ (R : Region) (g : Ground) (X : Shape) (i : Instr) (Y : Shape), Stacked plan root g₀ R g ∧
      Framed g (X.locals + X.temps) X.ops (m.ip + 1)
        { m with ip := m.ip + 1, steps := m.steps + 1 } ∧
      p.code.get? m.ip = some i ∧
      Exec.step l p i { m with ip := m.ip + 1, steps := m.steps + 1 } = .ok none m' ∧
      X.next? plan.arity R.body i = some Y ∧
      ((∀ target, i ≠ .jump target) → (∀ params locals, i ≠ .ret params locals) →
        R.shapes (m.ip + 1) Y) ∧
      ∀ target, i.jumpTarget? = some target → R.shapes target Y := by
  obtain ⟨R, g, X, hstacked, hX, hm⟩ := h
  have hrun : R.body = .call → X.ops ≠ [] := by
    intro hbody hnil
    rw [hm.operators, hstacked.ground_eq hbody, hnil] at hops
    exact Nat.lt_irrefl _ hops
  obtain ⟨i, Y, hi, hnext, hfall, hjump⟩ := hstacked.sound hsound m.ip X hX hrun
  obtain ⟨j, hj, hstep⟩ := tick_eq_ok ht
  obtain rfl := Option.some.inj (hi.symm.trans hj)
  exact ⟨R, g, X, i, Y, hstacked, { hm with ip := rfl }, hi, hstep, hnext, hfall, hjump⟩

/-- **A tick leads from a machine that runs a region to such a machine**, as long as the call at the
bottom has not ended. -/
theorem tick (hroot : root.body = .call) (hsound : root.Sound p plan.arity)
    (h : Active plan root g₀ m) (hops : g₀.ops.length < m.operators.length)
    (ht : Machine.tick l p m = .ok none m') : Active plan root g₀ m' := by
  obtain ⟨R, g, X, i, Y, hstacked, hm, -, hstep, hnext, hfall, hjump⟩ := h.exists_step hsound hops ht
  exact (hstacked.step hroot hnext hfall hjump hm).ok hstep

/-- The call at the bottom ends by a return, unless an operator of its own code leaves none. -/
theorem popped (hroot : root.body = .call) (hsound : root.Sound p plan.arity)
    (h : Active plan root g₀ m) (hops : g₀.ops.length < m.operators.length)
    (ht : Machine.tick l p m = .ok none m') (hpopped : m'.operators.length ≤ g₀.ops.length) :
    (∃ params locals, p.code.get? m.ip = some (.ret params locals)) ∨
      ∃ op Y, p.code.get? m.ip = some (.operator op) ∧ root.shapes (m.ip + 1) Y ∧ Y.ops = [] := by
  obtain ⟨R, g, X, i, Y, hstacked, hm, hi, hstep, hnext, hfall, -⟩ := h.exists_step hsound hops ht
  by_cases hret : ∃ params locals, i = .ret params locals
  · obtain ⟨params, locals, rfl⟩ := hret
    exact Or.inl ⟨params, locals, hi⟩
  by_cases hop : ∃ op, i = .operator op
  · obtain ⟨op, rfl⟩ := hop
    have hpost : Post AnyCause (step l p (.operator op))
        { m with ip := m.ip + 1, steps := m.steps + 1 }
        fun _ => Framed g (Y.locals + Y.temps) Y.ops (m.ip + 1) :=
      (hm.operator (hstacked.barrier hroot) hnext).bind fun _ _ h' => Post.pure h'
    rw [(hpost.ok hstep).operators, List.length_append] at hpopped
    obtain ⟨rfl, rfl⟩ := hstacked.eq_root (Nat.le_trans (Nat.le_add_left _ _) hpopped)
    exact Or.inr ⟨op, Y, hi, hfall nofun nofun, List.eq_nil_of_length_eq_zero (by omega)⟩
  · have hleaves : Leaves (·.operators) (step l p i) :=
      leaves_operators_step (fun op h => hop ⟨op, h⟩) fun params locals h => hret ⟨params, locals, h⟩
    have hkept : m'.operators = m.operators :=
      hleaves.ok (m := { m with ip := m.ip + 1, steps := m.steps + 1 }) hstep
    rw [hkept] at hpopped
    omega

/-- What runs until the call at the bottom ends. -/
theorem after? (hroot : root.body = .call) (hsound : root.Sound p plan.arity) {n : Nat}
    (h : Active plan root g₀ m)
    (hops : ∀ k m₁, k < n → Machine.after? l p k m = some m₁ → g₀.ops.length < m₁.operators.length)
    (hn : Machine.after? l p n m = some m') : Active plan root g₀ m' := by
  induction n generalizing m with
  | zero =>
    cases hn
    exact h
  | succ n ih =>
    obtain ⟨m₁, ht, hrest⟩ := after?_succ hn
    refine ih (h.tick hroot hsound (hops 0 m (Nat.succ_pos n) rfl) ht) (fun k m₂ hk hm₂ => ?_) hrest
    refine hops (k + 1) m₂ (Nat.succ_lt_succ hk) ?_
    unfold Machine.after?
    rw [ht]
    exact hm₂

end Active

end StackScript
