import Mathlib.Data.List.Perm.Subperm
import Mathlib.Data.List.TakeWhile
import StackScript.Proofs.Machine.Waiting

/-!
# Segments of waiting operators

Instructions may hand operators to a machine in any order, also in one that no expression has: prefix
operators on top of each other, binary operators without operands, parentheses that close nothing.
What waits keeps a shape all the same (`Operator.Stacked`). Barriers cut it into segments, and in a
segment every binary operator binds more tightly than the one below it, with prefix operators above
them only (`Operator.IsSegment`). There are five priorities, hence at most five binary operators.

* **`Machine.operators_segmented`**: the operators of every machine of every run are in segments, so
  that the machine applies nothing but binary and prefix operators.
-/

namespace StackScript

namespace Operator

/-- Operators between two barriers, the one that has waited longest first: binary ones, each of which
binds more tightly than the one before it, and then prefix operators. -/
def IsSegment (ops : List Operator) : Prop :=
  ∃ binaries signs, ops = binaries ++ signs ∧ (∀ op ∈ binaries, op ∈ binary) ∧
    binaries.Pairwise (·.priority < ·.priority) ∧ binaries.length ≤ 5 ∧ ∀ op ∈ signs, op.isUnary

/-- Operators in the order in which a machine holds them, the last one first. A binary operator waits
on a barrier or on one that binds less tightly. -/
inductive Stacked : List Operator → Prop where
  | nil : Stacked []
  | barrier {op : Operator} {rest : List Operator} (hop : op.isBarrier) (h : Stacked rest) :
      Stacked (op :: rest)
  | unary {op : Operator} {rest : List Operator} (hop : op.isUnary) (h : Stacked rest) :
      Stacked (op :: rest)
  | binary {op : Operator} {rest : List Operator} (hop : op ∈ binary)
      (hbelow : ∀ q ∈ rest.head?, q.isBarrier ∨ q.priority < op.priority) (h : Stacked rest) :
      Stacked (op :: rest)

variable {op : Operator} {ops rest binaries signs : List Operator}

theorem isBarrier_of_applicable (h : op ∈ binary ∨ op.isUnary) : op.isBarrier = false := by
  cases op with
  | openParen | prepareCall => exact absurd h (by decide)
  | _ => rfl

/-- There are as many priorities of binary operators as there may be in a segment. -/
theorem length_binaries_le (hbinary : ∀ op ∈ binaries, op ∈ binary)
    (hgrow : binaries.Pairwise (·.priority < ·.priority)) : binaries.length ≤ 5 := by
  have hnodup : (binaries.map priority).Nodup :=
    (List.pairwise_map.mpr hgrow).imp fun h => Int.ne_of_lt h
  have hsubset : binaries.map priority ⊆ [3, 4, 5, 10, 20] := by
    intro p hp
    obtain ⟨op, hop, rfl⟩ := List.mem_map.mp hp
    have hknown : ∀ op ∈ binary, op.priority ∈ [3, 4, 5, 10, 20] := by decide
    exact hknown op (hbinary op hop)
  have hle := (List.subperm_of_subset hnodup hsubset).length_le
  rwa [List.length_map] at hle

namespace IsSegment

theorem nil : IsSegment [] :=
  ⟨[], [], rfl, List.forall_mem_nil _, .nil, Nat.zero_le _, List.forall_mem_nil _⟩

/-- What a segment holds can be applied. -/
theorem applicable (h : IsSegment ops) : ∀ op ∈ ops, op ∈ binary ∨ op.isUnary := by
  obtain ⟨binaries, signs, rfl, hbinary, -, -, hunary⟩ := h
  exact fun op hop => (List.mem_append.mp hop).imp (hbinary op) (hunary op)

theorem not_isBarrier (h : IsSegment ops) : ∀ op ∈ ops, op.isBarrier = false := fun op hop =>
  isBarrier_of_applicable (h.applicable op hop)

theorem snoc_unary (h : IsSegment ops) (hop : op.isUnary) : IsSegment (ops ++ [op]) := by
  obtain ⟨binaries, signs, rfl, hbinary, hgrow, hlen, hunary⟩ := h
  refine ⟨binaries, signs ++ [op], List.append_assoc _ _ _, hbinary, hgrow, hlen, fun q hq => ?_⟩
  rcases List.mem_append.mp hq with hq | hq
  · exact hunary q hq
  · exact List.mem_singleton.mp hq ▸ hop

/-- A segment whose last operator binds less tightly than a binary one has no prefix operators, which
bind more tightly. -/
theorem snoc_binary (h : IsSegment ops) (hop : op ∈ binary)
    (hlast : ∀ q ∈ ops.getLast?, q.priority < op.priority) : IsSegment (ops ++ [op]) := by
  obtain ⟨binaries, signs, rfl, hbinary, hgrow, -, hunary⟩ := h
  obtain rfl : signs = [] := by
    rcases List.eq_nil_or_concat' signs with hnil | ⟨front, q, rfl⟩
    · exact hnil
    · have hq : q.isUnary := hunary q (by simp)
      have hlt := hlast q (by simp)
      rw [priority_of_isUnary hq] at hlt
      have := priority_lt_of_binary hop
      omega
  rw [List.append_nil] at hlast ⊢
  have hbinary' : ∀ q ∈ binaries ++ [op], q ∈ binary := by
    intro q hq
    rcases List.mem_append.mp hq with hq | hq
    · exact hbinary q hq
    · exact List.mem_singleton.mp hq ▸ hop
  have hgrow' : (binaries ++ [op]).Pairwise (·.priority < ·.priority) := by
    refine List.pairwise_append.mpr ⟨hgrow, List.pairwise_singleton _ _, fun q hq q' hq' => ?_⟩
    rw [List.mem_singleton.mp hq']
    rcases List.eq_nil_or_concat' binaries with rfl | ⟨front, top, rfl⟩
    · cases hq
    · have htop : top.priority < op.priority := hlast top (by simp)
      rcases List.mem_append.mp hq with hq | hq
      · have hgrow := (List.pairwise_append.mp hgrow).2.2 q hq top (List.mem_singleton_self top)
        exact Int.lt_trans hgrow htop
      · rwa [List.mem_singleton.mp hq]
  exact ⟨binaries ++ [op], [], (List.append_nil _).symm, hbinary', hgrow',
    length_binaries_le hbinary' hgrow', List.forall_mem_nil _⟩

end IsSegment

namespace Stacked

theorem of_suffix (h : Stacked ops) (hsuffix : rest <:+ ops) : Stacked rest := by
  induction h with
  | nil => exact List.suffix_nil.mp hsuffix ▸ nil
  | barrier hop h ih =>
    rcases List.suffix_cons_iff.mp hsuffix with rfl | hsuffix
    · exact barrier hop h
    · exact ih hsuffix
  | unary hop h ih =>
    rcases List.suffix_cons_iff.mp hsuffix with rfl | hsuffix
    · exact unary hop h
    · exact ih hsuffix
  | binary hop hbelow h ih =>
    rcases List.suffix_cons_iff.mp hsuffix with rfl | hsuffix
    · exact binary hop hbelow h
    · exact ih hsuffix

/-- What waits down to the nearest barrier is a segment. -/
theorem exists_segment (h : Stacked ops) :
    ∃ segment below, ops = segment ++ below ∧ IsSegment segment.reverse ∧
      (below = [] ∨ ∃ op rest, below = op :: rest ∧ op.isBarrier ∧ Stacked rest) := by
  induction h with
  | nil => exact ⟨[], [], rfl, .nil, .inl rfl⟩
  | @barrier op rest hop h ih => exact ⟨[], op :: rest, rfl, .nil, .inr ⟨op, rest, rfl, hop, h⟩⟩
  | @unary op rest hop h ih =>
    obtain ⟨segment, below, rfl, hsegment, hbelow⟩ := ih
    refine ⟨op :: segment, below, rfl, ?_, hbelow⟩
    rw [List.reverse_cons]
    exact hsegment.snoc_unary hop
  | @binary op rest hop hhead h ih =>
    obtain ⟨segment, below, rfl, hsegment, hbelow⟩ := ih
    refine ⟨op :: segment, below, rfl, ?_, hbelow⟩
    rw [List.reverse_cons]
    refine hsegment.snoc_binary hop fun q hq => ?_
    rw [List.getLast?_reverse] at hq
    have hmem : q ∈ segment.reverse := List.mem_reverse.mpr (List.mem_of_mem_head? hq)
    refine (hhead q ?_).resolve_left ?_
    · rw [List.head?_append, hq]
      rfl
    · rw [hsegment.not_isBarrier q hmem]
      exact Bool.false_ne_true

/-- **Barriers cut what waits into segments.** -/
theorem segments (ops : List Operator) (h : Stacked ops) :
    ∀ segment ∈ ops.reverse.splitOnP isBarrier, IsSegment segment := by
  obtain ⟨top, below, rfl, htop, rfl | ⟨op, rest, rfl, hop, hrest⟩⟩ := h.exists_segment
  · rw [List.append_nil, List.splitOnP_eq_singleton fun q hq => htop.not_isBarrier q hq]
    intro segment hsegment
    exact List.mem_singleton.mp hsegment ▸ htop
  · rw [List.reverse_append, List.reverse_cons, List.append_assoc, List.singleton_append,
      List.splitOnP_append_cons _ _ hop,
      List.splitOnP_eq_singleton fun q hq => htop.not_isBarrier q hq]
    intro segment hsegment
    rcases List.mem_append.mp hsegment with hbelow | htop'
    · exact segments rest hrest segment hbelow
    · exact List.mem_singleton.mp htop' ▸ htop
termination_by ops.length

/-- Only barriers and what can be applied waits. -/
theorem mem (h : Stacked ops) (hop : op ∈ ops) : op.isBarrier ∨ op ∈ Operator.binary ∨ op.isUnary := by
  induction h with
  | nil => cases hop
  | barrier hq h ih => exact (List.mem_cons.mp hop).elim (fun heq => .inl (heq ▸ hq)) ih
  | unary hq h ih => exact (List.mem_cons.mp hop).elim (fun heq => .inr (.inr (heq ▸ hq))) ih
  | binary hq _ h ih => exact (List.mem_cons.mp hop).elim (fun heq => .inr (.inl (heq ▸ hq))) ih

/-- An operator that comes in waits on what binds less tightly, as the rest is applied. -/
theorem taken (h : Stacked ops) (op : Operator) : Stacked (op.taken ops) := by
  have hrest (q : Operator → Bool) : Stacked (ops.dropWhile q) := h.of_suffix (List.dropWhile_suffix q)
  have hbinary (hop : op ∈ Operator.binary) : Stacked (op :: ops.dropWhile (Exec.yieldsTo op)) := by
    refine .binary hop (fun q hq => ?_) (hrest _)
    have hstays := List.head?_dropWhile_not (Exec.yieldsTo op) ops
    rw [hq] at hstays
    simp only [Exec.yieldsTo] at hstays
    cases hbarrier : q.isBarrier with
    | true => exact .inl rfl
    | false => exact .inr (by simpa [hbarrier] using hstays)
  cases op with
  | openParen | prepareCall => exact .barrier rfl h
  | not | neg | pos => exact .unary rfl h
  | closeParen => exact (hrest _).of_suffix (List.tail_suffix _)
  | endOfExpression => exact hrest _
  | _ => exact hbinary (by decide)

end Stacked

end Operator

/-! ## Machines -/

namespace Exec

variable {l : Limits} {p : Program} {m m' : Machine} {i : Instr}

/-- **Every instruction keeps what waits in segments.** -/
theorem stacked_of_step {r : Option Value} (h : Operator.Stacked m.operators)
    (hstep : step l p i m = .ok r m') : Operator.Stacked m'.operators := by
  by_cases hop : ∃ op, i = .operator op
  · obtain ⟨op, rfl⟩ := hop
    have htaken : Post AnyCause (step l p (.operator op)) m fun _ m' =>
        m'.operators = op.taken m.operators :=
      (operators_operator op m).bind fun _ _ hm' => hm'
    rw [htaken.ok hstep]
    exact h.taken op
  by_cases hret : ∃ params locals, i = .ret params locals
  · obtain ⟨params, locals, rfl⟩ := hret
    exact h.of_suffix (operators_of_ret_ok hstep)
  have hleaves : Leaves (·.operators) (step l p i) :=
    leaves_operators_step (fun op h => hop ⟨op, h⟩) fun params locals h => hret ⟨params, locals, h⟩
  rwa [hleaves.ok hstep]

/-! ### What is applied -/

section By

variable {apply : Operator → Exec Unit}

theorem applyWhile_congr {test : Operator → Bool} {ops : List Operator}
    (h : ∀ op ∈ ops.takeWhile test, apply op = reduce l op) :
    applyWhile apply test ops = applyWhile (reduce l) test ops := by
  induction ops with
  | nil => rfl
  | cons op rest ih =>
    unfold applyWhile
    by_cases hop : test op = true
    · rw [List.takeWhile_cons_of_pos hop] at h
      obtain ⟨hfirst, hrest⟩ := List.forall_mem_cons.mp h
      rw [if_pos hop, if_pos hop, hfirst, ih hrest]
    · rw [if_neg hop, if_neg hop]

/-- Nothing that waits is applied but what can be, if no other operator waits between barriers. -/
theorem operatorBy_eq (happly : ∀ op, op ∈ Operator.binary ∨ op.isUnary → apply op = reduce l op)
    (h : Operator.Stacked m.operators) (op : Operator) :
    operatorBy apply op m = operator l op m := by
  have happlied (test : Operator → Bool) (htest : ∀ q, test q = true → q.isBarrier = false) :
      applyWhile apply test m.operators = applyWhile (reduce l) test m.operators := by
    refine applyWhile_congr fun q hq => happly q ?_
    refine (h.mem (List.takeWhile_subset test hq)).resolve_left ?_
    rw [htest q (List.mem_takeWhile_imp hq)]
    exact Bool.false_ne_true
  have hsettle : settle apply op m = settle (reduce l) op m := by
    have hyields (q : Operator) (hq : yieldsTo op q = true) : q.isBarrier = false := by
      simpa using (Bool.and_eq_true_iff.mp hq).1
    exact congrFun (happlied (yieldsTo op) hyields) m
  have hclose : closeGroup apply m = closeGroup (reduce l) m :=
    congrArg (fun x : Exec Unit => (x >>= fun _ => removeParen) m)
      (happlied (!·.isBarrier) fun q hq => by simpa using hq)
  have hbinary : (do settle apply op; await op) m = (do settle (reduce l) op; await op) m := by
    show EStateM.bind _ _ _ = EStateM.bind _ _ _
    rw [EStateM.bind, EStateM.bind, hsettle]
  cases op with
  | openParen | prepareCall | not | neg | pos => rfl
  | closeParen => exact hclose
  | endOfExpression => exact hsettle
  | _ => exact hbinary

end By

end Exec

namespace Machine

variable {l : Limits} {p : Program} {m₀ m : Machine}

theorem stacked_after? {n : Nat} (h : after? l p n (m₀.start p) = some m) :
    Operator.Stacked m.operators := by
  refine after?_induct (I := fun m => Operator.Stacked m.operators) (fun m m' hm ht => ?_) .nil h
  obtain ⟨i, -, hstep⟩ := tick_eq_ok ht
  exact Exec.stacked_of_step (m := { m with ip := m.ip + 1, steps := m.steps + 1 }) hm hstep

/-- **The operators that wait are in segments**, in all machines of every run of every program. No
closing parenthesis and no end of an expression waits; between barriers, from the one that has waited
longest, there are at most five binary operators of growing priority and then prefix operators. So
whatever comes in next, the machine applies only binary and prefix operators: how it would apply
others makes no difference. -/
theorem operators_segmented {n : Nat} (h : after? l p n (m₀.start p) = some m) :
    .closeParen ∉ m.operators ∧ .endOfExpression ∉ m.operators ∧
      (∀ segment ∈ m.operators.reverse.splitOnP Operator.isBarrier, Operator.IsSegment segment) ∧
      ∀ reduce : Operator → Exec Unit,
        (∀ op, op ∈ Operator.binary ∨ op.isUnary → reduce op = Exec.reduce l op) →
          ∀ op, Exec.operatorBy reduce op { m with ip := m.ip + 1, steps := m.steps + 1 } =
            Exec.operator l op { m with ip := m.ip + 1, steps := m.steps + 1 } := by
  have hstacked := stacked_after? h
  refine ⟨fun hmem => ?_, fun hmem => ?_, hstacked.segments, fun reduce hreduce op => ?_⟩
  · exact absurd (hstacked.mem hmem) (by decide)
  · exact absurd (hstacked.mem hmem) (by decide)
  · exact Exec.operatorBy_eq (m := { m with ip := m.ip + 1, steps := m.steps + 1 }) hreduce
      hstacked op

end Machine

/-- A group that is reduced and dropped; then binary operators without operands, prefix operators on
each other, and barriers that nothing closes. -/
def Program.unbalanced : Program where
  code := ⟨#[.operator .openParen, .push (.int 1), .operator .mul, .push (.int 2), .operator .add,
    .push (.int 3), .operator .closeParen, .pop,
    .operator .or, .operator .and, .operator .lt, .operator .add, .operator .mul, .operator .neg,
    .operator .not, .operator .openParen, .operator .pos, .operator .prepareCall, .operator .mod,
    .push (.int 0), .ret 0 0]⟩
  globals := []
  functions := []

/-- A full segment, then one with a prefix operator and one with a binary one. -/
theorem Machine.operators_segmented_unbalanced :
    Program.unbalanced.check = .ok () ∧
      ∃ m, after? ⟨2, 0, none⟩ Program.unbalanced 19 (idle.start Program.unbalanced) = some m ∧
        m.operators.reverse.splitOnP Operator.isBarrier =
          [[.or, .and, .lt, .add, .mul, .neg, .not], [.pos], [.mod]] ∧
        .closeParen ∉ m.operators ∧ .endOfExpression ∉ m.operators ∧
        ∀ segment ∈ m.operators.reverse.splitOnP Operator.isBarrier, Operator.IsSegment segment := by
  have hreached : (after? ⟨2, 0, none⟩ Program.unbalanced 19 (idle.start Program.unbalanced)).map
      (·.operators.reverse.splitOnP Operator.isBarrier) =
        some [[.or, .and, .lt, .add, .mul, .neg, .not], [.pos], [.mod]] := by
    decide +kernel
  obtain ⟨m, hm, hsegments⟩ := Option.map_eq_some_iff.mp hreached
  obtain ⟨hclose, hend, hsegmented, -⟩ := operators_segmented hm
  exact ⟨by decide, m, hm, hsegments, hclose, hend, hsegmented⟩

end StackScript
