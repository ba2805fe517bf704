import StackScript.Proofs.Machine.Limits
import StackScript.Proofs.Operator.Causes

/-!
# Reducing pending operators

The code of an expression leaves operators pending whose operands are already on the stack. What is
left to do is an `Open` expression: its values lie on the stack, its operators wait, the innermost
on top. `applyWhile_closes` says that taking the pending operators off one by one closes it, to the
value that applying them gives or with the failure of the first that fails.
-/

namespace StackScript

/-- An expression whose operands have been evaluated and whose last operators have not been
applied. -/
inductive Open where
  | value (v : Value)
  | unary (op : Operator) (rest : Open)
  | binary (op : Operator) (lhs : Value) (rest : Open)

namespace Open

/-- The values on the stack, the last one on top. -/
def values : Open → List Value
  | value v => [v]
  | unary _ rest => rest.values
  | binary _ lhs rest => lhs :: rest.values

/-- The operators that wait, the first one to be applied in front. -/
def pending : Open → List Operator
  | value _ => []
  | unary op rest | binary op _ rest => rest.pending ++ [op]

/-- The value of the whole. -/
def close : Open → Except Cause Value
  | value v => .ok v
  | unary op rest => rest.close >>= op.applyUnary
  | binary op lhs rest => rest.close >>= op.applyBinary lhs

/-- Every operator waits for as many operands as it has, and none is a barrier. -/
def Fits : Open → Prop
  | value _ => True
  | unary op rest => op.isUnary = true ∧ op.isBarrier = false ∧ rest.Fits
  | binary op _ rest => op.isUnary = false ∧ op.isBarrier = false ∧ rest.Fits

/-- Closing fails only as operators do. -/
theorem close_error {o : Open} {c : Cause} (ho : o.Fits) (h : o.close = .error c) : c.IsOwn := by
  induction o with
  | value v => cases h
  | unary op rest ih =>
    cases hr : rest.close with
    | ok v =>
      simp only [close, hr, bind, Except.bind] at h
      exact Operator.applyUnary_error h
    | error c' =>
      simp only [close, hr, bind, Except.bind] at h
      cases h
      exact ih ho.2.2 hr
  | binary op lhs rest ih =>
    cases hr : rest.close with
    | ok v =>
      simp only [close, hr, bind, Except.bind] at h
      exact Operator.applyBinary_error ho.1 h
    | error c' =>
      simp only [close, hr, bind, Except.bind] at h
      cases h
      exact ih ho.2.2 hr

theorem values_length_pos (o : Open) : 0 < o.values.length := by
  induction o with
  | value v => exact Nat.one_pos
  | unary op rest ih => exact ih
  | binary op lhs rest ih => exact Nat.succ_pos _

theorem not_isBarrier_of_mem {o : Open} {op : Operator} (ho : o.Fits) (h : op ∈ o.pending) :
    op.isBarrier = false := by
  induction o with
  | value v => cases h
  | unary q rest ih | binary q _ rest ih =>
    rcases List.mem_append.mp h with h | h
    · exact ih ho.2.2 h
    · rw [List.mem_singleton.mp h]
      exact ho.2.1

end Open

namespace Exec

variable {α β : Type} {l : Limits} {m m' : Machine}

/-! ## Computations on a given machine -/

theorem bind_ok {x : Exec α} {f : α → Exec β} {a : α} (h : x m = .ok a m') :
    (x >>= f) m = f a m' := by
  show EStateM.bind x f m = _
  unfold EStateM.bind
  rw [h]

theorem bind_error {x : Exec α} {f : α → Exec β} {c : Cause} (h : x m = .error c m') :
    (x >>= f) m = .error c m' := by
  show EStateM.bind x f m = _
  unfold EStateM.bind
  rw [h]

theorem bind_get (f : Machine → Exec β) : ((get : Exec Machine) >>= f) m = f m m := rfl

theorem bind_setOperators (ops : List Operator) (f : Unit → Exec β) :
    (setOperators ops >>= f) m = f () { m with operators := ops } := rfl

section Stack

variable {σ : List Cell} {ops : List Operator} {globals : Array Value} {ip base steps : Nat}
  {calls : Array String}

theorem pushCell_toArray (c : Cell) (h : σ.length < l.maxStack) :
    pushCell l c ⟨σ.toArray, ops, globals, ip, base, calls, steps⟩ =
      .ok () ⟨(σ ++ [c]).toArray, ops, globals, ip, base, calls, steps⟩ := by
  simp [pushCell, h]

theorem push_toArray (v : Value) (h : σ.length < l.maxStack) :
    push l v ⟨σ.toArray, ops, globals, ip, base, calls, steps⟩ =
      .ok () ⟨(σ ++ [Cell.value v]).toArray, ops, globals, ip, base, calls, steps⟩ :=
  pushCell_toArray _ h

theorem popCell_toArray (c : Cell) :
    popCell ⟨(σ ++ [c]).toArray, ops, globals, ip, base, calls, steps⟩ =
      .ok c ⟨σ.toArray, ops, globals, ip, base, calls, steps⟩ := by
  simp [popCell]

theorem pop_toArray (v : Value) :
    pop ⟨(σ ++ [Cell.value v]).toArray, ops, globals, ip, base, calls, steps⟩ =
      .ok v ⟨σ.toArray, ops, globals, ip, base, calls, steps⟩ := by
  unfold pop
  rw [bind_ok (popCell_toArray _)]
  rfl

theorem drop_toArray (vs : List Value) :
    drop vs.length ⟨(σ ++ vs.map Cell.value).toArray, ops, globals, ip, base, calls, steps⟩ =
      .ok () ⟨σ.toArray, ops, globals, ip, base, calls, steps⟩ := by
  induction h : vs.length generalizing vs with
  | zero =>
    rw [List.length_eq_zero_iff.mp h, List.map_nil, List.append_nil]
    rfl
  | succ n ih =>
    obtain ⟨ws, v, rfl⟩ := (List.eq_nil_or_concat vs).resolve_left (by rintro rfl; cases h)
    have hn : ws.length = n := by simpa using h
    rw [List.concat_eq_append, List.map_append, List.map_singleton, ← List.append_assoc]
    unfold drop
    rw [bind_ok (pop_toArray v)]
    exact ih ws hn

/-! ## Reductions -/

theorem reduce_unary {op : Operator} (hu : op.isUnary = true) (v : Value)
    (h : σ.length < l.maxStack) :
    reduce l op ⟨(σ ++ [Cell.value v]).toArray, ops, globals, ip, base, calls, steps⟩ =
      match op.applyUnary v with
      | .ok w => .ok () ⟨(σ ++ [Cell.value w]).toArray, ops, globals, ip, base, calls, steps⟩
      | .error c => .error c ⟨σ.toArray, ops, globals, ip, base, calls, steps⟩ := by
  unfold reduce
  rw [if_pos hu, bind_ok (pop_toArray v)]
  cases op.applyUnary v with
  | ok w => exact (bind_ok rfl).trans (push_toArray w h)
  | error c => exact bind_error rfl

theorem reduce_binary {op : Operator} (hu : op.isUnary = false) (a b : Value)
    (h : σ.length < l.maxStack) :
    reduce l op ⟨(σ ++ [Cell.value a, Cell.value b]).toArray, ops, globals, ip, base, calls, steps⟩ =
      match op.applyBinary a b with
      | .ok w => .ok () ⟨(σ ++ [Cell.value w]).toArray, ops, globals, ip, base, calls, steps⟩
      | .error c => .error c ⟨σ.toArray, ops, globals, ip, base, calls, steps⟩ := by
  have hsplit : σ ++ [Cell.value a, Cell.value b] = (σ ++ [Cell.value a]) ++ [Cell.value b] := by simp
  unfold reduce
  rw [if_neg (by rw [hu]; exact Bool.false_ne_true), hsplit, bind_ok (pop_toArray b),
    bind_ok (pop_toArray a)]
  cases op.applyBinary a b with
  | ok w => exact (bind_ok rfl).trans (push_toArray w h)
  | error c => exact bind_error rfl

section Apply

variable {apply : Operator → Exec Unit} {test : Operator → Bool}

theorem applyWhile_next {op : Operator} (hop : test op = true) (rest : List Operator) :
    applyWhile apply test (op :: rest) m =
      (apply op >>= fun _ => applyWhile apply test rest) { m with operators := rest } := by
  rw [applyWhile, if_pos hop]
  rfl

/-- Nothing is taken off in front of an operator that fails the test. -/
theorem applyWhile_stop (h : ∀ q ∈ ops.head?, test q = false) :
    applyWhile apply test ops m = .ok () m := by
  cases ops with
  | nil => rfl
  | cons q rest =>
    rw [applyWhile, if_neg (by rw [h q rfl]; exact Bool.false_ne_true)]
    rfl

end Apply

section Test

variable {test : Operator → Bool} {op : Operator}

theorem applyWhile_unary (hop : test op = true) (hu : op.isUnary = true) (v : Value)
    (h : σ.length < l.maxStack) :
    applyWhile (reduce l) test (op :: ops)
        ⟨(σ ++ [Cell.value v]).toArray, op :: ops, globals, ip, base, calls, steps⟩ =
      match op.applyUnary v with
      | .ok w =>
        applyWhile (reduce l) test ops
          ⟨(σ ++ [Cell.value w]).toArray, ops, globals, ip, base, calls, steps⟩
      | .error c => .error c ⟨σ.toArray, ops, globals, ip, base, calls, steps⟩ := by
  have hreduce : reduce l op
      ⟨(σ ++ [Cell.value v]).toArray, ops, globals, ip, base, calls, steps⟩ = _ :=
    reduce_unary hu v h
  rw [applyWhile_next hop]
  cases hw : op.applyUnary v with
  | ok w => exact bind_ok (by rw [hreduce, hw])
  | error c => exact bind_error (by rw [hreduce, hw])

theorem applyWhile_binary (hop : test op = true) (hu : op.isUnary = false) (a b : Value)
    (h : σ.length < l.maxStack) :
    applyWhile (reduce l) test (op :: ops)
        ⟨(σ ++ [Cell.value a, Cell.value b]).toArray, op :: ops, globals, ip, base, calls, steps⟩ =
      match op.applyBinary a b with
      | .ok w =>
        applyWhile (reduce l) test ops
          ⟨(σ ++ [Cell.value w]).toArray, ops, globals, ip, base, calls, steps⟩
      | .error c => .error c ⟨σ.toArray, ops, globals, ip, base, calls, steps⟩ := by
  have hreduce : reduce l op
      ⟨(σ ++ [Cell.value a, Cell.value b]).toArray, ops, globals, ip, base, calls, steps⟩ = _ :=
    reduce_binary hu a b h
  rw [applyWhile_next hop]
  cases hw : op.applyBinary a b with
  | ok w => exact bind_ok (by rw [hreduce, hw])
  | error c => exact bind_error (by rw [hreduce, hw])

/-- By induction on what is open, whose outermost operator is the one that has waited longest. -/
theorem applyWhile_open {o : Open} (ops : List Operator) (ho : o.Fits)
    (hp : ∀ q ∈ o.pending, test q = true) (h : σ.length + o.values.length ≤ l.maxStack) :
    (∃ v, o.close = .ok v ∧
      applyWhile (reduce l) test (o.pending ++ ops)
          ⟨(σ ++ o.values.map Cell.value).toArray, o.pending ++ ops, globals, ip, base, calls,
            steps⟩ =
        applyWhile (reduce l) test ops
          ⟨(σ ++ [Cell.value v]).toArray, ops, globals, ip, base, calls, steps⟩) ∨
    (∃ c τ ops', o.close = .error c ∧
      applyWhile (reduce l) test (o.pending ++ ops)
          ⟨(σ ++ o.values.map Cell.value).toArray, o.pending ++ ops, globals, ip, base, calls,
            steps⟩ =
        .error c ⟨τ, ops', globals, ip, base, calls, steps⟩) := by
  induction o generalizing σ ops with
  | value v => exact Or.inl ⟨v, rfl, rfl⟩
  | unary op rest ih =>
    obtain ⟨hu, -, hr⟩ := ho
    simp only [Open.values, Open.pending, Open.close, List.append_assoc, List.singleton_append,
      List.forall_mem_append, List.forall_mem_singleton] at h hp ⊢
    rcases ih (op :: ops) hr hp.1 h with ⟨v, hv, he⟩ | ⟨c, τ, ops', hc, he⟩
    · have hpos := rest.values_length_pos
      rw [he, applyWhile_unary hp.2 hu v (by omega), hv]
      simp only [bind, Except.bind]
      cases op.applyUnary v with
      | ok w => exact Or.inl ⟨w, rfl, rfl⟩
      | error c => exact Or.inr ⟨c, _, _, rfl, rfl⟩
    · rw [he, hc]
      exact Or.inr ⟨c, τ, ops', rfl, rfl⟩
  | binary op lhs rest ih =>
    obtain ⟨hu, -, hr⟩ := ho
    simp only [Open.values, Open.pending, Open.close, List.append_assoc, List.singleton_append,
      List.forall_mem_append, List.forall_mem_singleton, List.length_cons, List.map_cons] at h hp ⊢
    have hsplit : σ ++ Cell.value lhs :: rest.values.map Cell.value =
        (σ ++ [Cell.value lhs]) ++ rest.values.map Cell.value := by simp
    rw [hsplit]
    rcases ih (σ := σ ++ [Cell.value lhs]) (op :: ops) hr hp.1 (by simp; omega) with
      ⟨v, hv, he⟩ | ⟨c, τ, ops', hc, he⟩
    · have hpair : (σ ++ [Cell.value lhs]) ++ [Cell.value v] =
          σ ++ [Cell.value lhs, Cell.value v] := by simp
      rw [he, hpair, applyWhile_binary hp.2 hu lhs v (by omega), hv]
      simp only [bind, Except.bind]
      cases op.applyBinary lhs v with
      | ok w => exact Or.inl ⟨w, rfl, rfl⟩
      | error c => exact Or.inr ⟨c, _, _, rfl, rfl⟩
    · rw [he, hc]
      exact Or.inr ⟨c, τ, ops', rfl, rfl⟩

/-- **Reducing what is pending closes an open expression**, where a test tells its operators from
those below. -/
theorem applyWhile_closes {o : Open} (ho : o.Fits) (hp : ∀ q ∈ o.pending, test q = true)
    (hops : ∀ q ∈ ops.head?, test q = false) (h : σ.length + o.values.length ≤ l.maxStack) :
    (∃ v, o.close = .ok v ∧
      applyWhile (reduce l) test (o.pending ++ ops)
          ⟨(σ ++ o.values.map Cell.value).toArray, o.pending ++ ops, globals, ip, base, calls,
            steps⟩ =
        .ok () ⟨(σ ++ [Cell.value v]).toArray, ops, globals, ip, base, calls, steps⟩) ∨
    (∃ c τ ops', o.close = .error c ∧
      applyWhile (reduce l) test (o.pending ++ ops)
          ⟨(σ ++ o.values.map Cell.value).toArray, o.pending ++ ops, globals, ip, base, calls,
            steps⟩ =
        .error c ⟨τ, ops', globals, ip, base, calls, steps⟩) := by
  rcases applyWhile_open ops ho hp h with ⟨v, hv, he⟩ | herror
  · exact Or.inl ⟨v, hv, he.trans (applyWhile_stop hops)⟩
  · exact Or.inr herror

end Test

end Stack

end Exec

end StackScript
