import Mathlib.Data.Nat.Find
import StackScript.Proofs.Compile.Compiled
import StackScript.Proofs.Reading.Loops

/-!
# The limit on nesting is a threshold

A source text is read with two limits on nesting, side by side. The reader with the smaller limit
either refuses the text because it nests too deep, or the larger limit makes no difference. Each
level costs a character, since what is inside a rule is read only after something of the rule has
been consumed; so a limit larger than the text is never met.
-/

namespace StackScript

namespace Reader

/-- With fewer levels, nesting may be too deep for the first reader, if `Room` holds. Else both
readers refuse their text alike, and not because of nesting. -/
def DeepOrBoth (limit : Nat) (Room : Prop) (e : Refusal) : Option Refusal → Prop
  | none => e.complaint = .nestingTooDeep limit ∧ Room
  | some e' => e' = e ∧ ∀ k, e.complaint ≠ .nestingTooDeep k

section Levels

variable {source : List Char} {strict : Bool} {m m' levels levels' n : Nat} {Room : Prop}

/-- Two readers of one text keep the pace whatever their limits are. -/
theorem deep_pace {J J' : Reading → Prop} (hJ : Kept J J') :
    FullPace (DeepOrBoth m Room) (WordAt source) (AtOnce source J) (AtOnce source J') :=
  fullPace_sameText hJ fun _ he => .inr ⟨rfl, he.notDeep⟩

/-- With fewer levels for the first reader, expressions stay in step. It can use up its levels only
if they are fewer than the characters that remain. -/
theorem inStep_expression (hlevels : levels ≤ levels') (hroom : levels < n → Room) :
    InStep (DeepOrBoth m Room) (AtOnce source (Short n)) (expression ⟨strict, m⟩ levels)
      (expression ⟨strict, m'⟩ levels') := by
  induction levels generalizing levels' n with
  | zero => exact fun r s h => .inl ⟨rfl, hroom (Nat.zero_lt_of_lt h.2.2)⟩
  | succ levels ih =>
    intro r s h
    obtain ⟨levels', rfl⟩ := Nat.exists_eq_add_one.mpr (Nat.zero_lt_of_lt hlevels)
    obtain ⟨n, rfl⟩ := Nat.exists_eq_add_one.mpr (Nat.zero_lt_of_lt h.2.2)
    have hinner := ih (n := n) (Nat.le_of_succ_le_succ hlevels) fun h => hroom (Nat.succ_lt_succ h)
    exact (Paired.chain (deep_pace (short_shorter n)).toPace (deep_pace (short_kept n)).toPace
      hinner h).mono fun _ _ _ _ h => h.weaken atOnce_short_succ

/-- With fewer levels for the first reader, statements stay in step if bodies do. -/
theorem paired_statement {body body' : Reader (List Stmt)} {r s : Reading}
    (hlevels : levels ≤ levels')
    (hroom : levels < n → Room)
    (hbody : InStep (DeepOrBoth m Room) (AtOnce source (Short n)) body body')
    {J : Reading → Prop} (hJ : Kept J (Short n)) (h : AtOnce source J r s) :
    Paired (DeepOrBoth m Room)
      (statementWith ⟨strict, m⟩ (expression ⟨strict, m⟩ levels) body)
      (statementWith ⟨strict, m'⟩ (expression ⟨strict, m'⟩ levels') body')
      r s (Same (AtOnce source (Short n))) :=
  Paired.statementWith (deep_pace hJ) (deep_pace (short_kept n)) (inStep_expression hlevels hroom)
    (.target (deep_pace (short_kept n)) fun _ => .inl rfl) hbody h

theorem inStep_body (hlevels : levels ≤ levels') (hroom : levels < n → Room) :
    InStep (DeepOrBoth m Room) (AtOnce source (Short n)) (body ⟨strict, m⟩ levels)
      (body ⟨strict, m'⟩ levels') := by
  induction levels generalizing levels' n with
  | zero => exact fun r s h => .inl ⟨rfl, hroom (Nat.zero_lt_of_lt h.2.2)⟩
  | succ levels ih =>
    intro r s h
    obtain ⟨levels', rfl⟩ := Nat.exists_eq_add_one.mpr (Nat.zero_lt_of_lt hlevels)
    obtain ⟨n, rfl⟩ := Nat.exists_eq_add_one.mpr (Nat.zero_lt_of_lt h.2.2)
    have hlevels := Nat.le_of_succ_le_succ hlevels
    have hroom := fun h : levels < n => hroom (Nat.succ_lt_succ h)
    refine InStep.bodyOf (deep_pace (short_shorter n)) (fun r s h => ?_) r s h
    exact (paired_statement hlevels hroom (ih hlevels hroom) (short_shorter n) h).mono
      fun _ _ _ _ h => h.weaken atOnce_short_succ

theorem inStep_wholeExpression (hle : m ≤ m') (hroom : m < n → Room) :
    InStep (DeepOrBoth m Room) (AtOnce source (Short n)) (wholeExpression ⟨strict, m⟩)
      (wholeExpression ⟨strict, m'⟩) :=
  .wholeExpression (deep_pace (short_kept n)) (inStep_expression hle hroom)

theorem inStep_script (hle : m ≤ m') (hroom : m < n → Room) :
    InStep (DeepOrBoth m Room) (AtOnce source (Short n)) (script ⟨strict, m⟩)
      (script ⟨strict, m'⟩) :=
  .script (deep_pace (short_kept n)) (fun h => ⟨by rw [h.1], h.2⟩) (inStep_expression hle hroom)
    fun _ _ h => paired_statement hle hroom (inStep_body hle hroom) (short_kept n) h

end Levels

end Reader

open Reader

/-! ## Results with different limits -/

/-- A source text was refused because it nests deeper than `limit` levels. -/
def IsTooDeep {α : Type} (limit : Nat) (result : Except Diagnostic α) : Prop :=
  ∃ d, result = .error d ∧ d.complaint = .nestingTooDeep limit

instance {α : Type} (limit : Nat) :
    (result : Except Diagnostic α) → Decidable (IsTooDeep limit result)
  | .ok _ => isFalse fun ⟨_, h, _⟩ => by cases h
  | .error d => decidable_of_iff (d.complaint = .nestingTooDeep limit)
    ⟨fun h => ⟨d, rfl, h⟩, fun ⟨_, h, hd⟩ => by cases h; exact hd⟩

/-- Results that depend on a limit as on a threshold: from `depth` on they are `result`, and below
it nesting is too deep. -/
structure IsThreshold {α : Type} (results : Nat → Except Diagnostic α) (depth : Nat)
    (result : Except Diagnostic α) : Prop where
  notDeep : ∀ limit, ¬ IsTooDeep limit result
  enough : ∀ limit, depth ≤ limit → results limit = result
  tooDeep : ∀ limit, limit < depth → IsTooDeep limit (results limit)

/-- There is a threshold, if a larger limit than one that is not met makes no difference and only
limits up to `n` are met. -/
theorem exists_isThreshold {α : Type} {results : Nat → Except Diagnostic α} {n : Nat}
    (h : ∀ m m', m ≤ m' → IsTooDeep m (results m) ∧ m ≤ n ∨
      results m' = results m ∧ ∀ k, ¬ IsTooDeep k (results m)) :
    ∃ depth result, depth ≤ n + 1 ∧ IsThreshold results depth result := by
  classical
  have hlast : ∀ k, ¬ IsTooDeep k (results (n + 1)) := by
    rcases h (n + 1) (n + 1) (Nat.le_refl _) with ⟨-, hle⟩ | ⟨-, hnot⟩
    · exact absurd hle (Nat.not_succ_le_self n)
    · exact hnot
  have hlarge : ∃ m, ∀ k, ¬ IsTooDeep k (results m) := ⟨n + 1, hlast⟩
  have hfirst := Nat.find_spec hlarge
  refine ⟨Nat.find hlarge, results (Nat.find hlarge), Nat.find_min' hlarge hlast, hfirst,
    fun m hm => ?_, fun m hm => ?_⟩
  · rcases h _ m hm with ⟨hdeep, -⟩ | ⟨heq, -⟩
    · exact absurd hdeep (hfirst _)
    · exact heq
  · rcases h m m (Nat.le_refl _) with ⟨hdeep, -⟩ | ⟨-, hnot⟩
    · exact hdeep
    · exact absurd hnot (Nat.find_min hlarge hm)

/-- What readers in step make of a source text under two limits. -/
theorem Reader.InStep.deep_or_same {α β : Type} {x y : Reader α} {source : String} {limit : Nat}
    (g : α → β)
    (h : InStep (DeepOrBoth limit (limit ≤ source.toList.length))
      (AtOnce source.toList (Short (source.toList.length + 1))) x y) :
    IsTooDeep limit ((x.run source).map g) ∧ limit ≤ utf8Length source.toList ∨
      (y.run source).map g = (x.run source).map g ∧ ∀ k, ¬ IsTooDeep k ((x.run source).map g) := by
  have hstart : AtOnce source.toList (Short (source.toList.length + 1)) ⟨source.toList, ∅⟩
      ⟨source.toList, ∅⟩ := ⟨rfl, List.suffix_refl _, Nat.lt_succ_self _⟩
  rcases (h _ _ hstart).run with ⟨a, hx, hy⟩ | ⟨e, hx, ⟨hdeep, hroom⟩ | ⟨e', hy, rfl, hnot⟩⟩
  · rw [hx, hy]
    exact .inr ⟨rfl, by rintro k ⟨d, hd, -⟩; cases hd⟩
  · rw [hx]
    exact .inl ⟨⟨_, rfl, hdeep⟩, Nat.le_trans hroom (length_le_utf8Length _)⟩
  · rw [hx, hy]
    refine .inr ⟨rfl, ?_⟩
    rintro k ⟨d, hd, hk⟩
    cases hd
    exact hnot k hk

/-- **The limit on nesting is a threshold.** For every source text there is a depth, at most one
more than the text is long, from which on the limit makes no difference. Below it, compiling fails
because of the limit and of nothing else. -/
theorem nesting_isThreshold (strict : Bool) (source : String) :
    (∃ depth result, depth ≤ utf8Length source.toList + 1 ∧
      IsThreshold (fun limit => compile ⟨strict, limit⟩ source) depth result) ∧
    ∃ depth result, depth ≤ utf8Length source.toList + 1 ∧
      IsThreshold (fun limit => compileExpression ⟨strict, limit⟩ source) depth result := by
  simp only [compile_eq, compileExpression_eq]
  constructor
  · exact exists_isThreshold fun m m' hle =>
      (inStep_script hle Nat.le_of_lt_succ).deep_or_same Script.program
  · exact exists_isThreshold fun m m' hle =>
      (inStep_wholeExpression hle Nat.le_of_lt_succ).deep_or_same Expr.program

-- A group inside a group needs three levels, one for each expression that is open.
example : IsTooDeep 2 (compileExpression ⟨true, 2⟩ "((1))") ∧
    (compileExpression ⟨true, 3⟩ "((1))").toOption.map (·.code.size) = some 7 := by
  decide +kernel

end StackScript
