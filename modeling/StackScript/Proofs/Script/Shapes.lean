import StackScript.Proofs.Machine.Shape
import StackScript.Proofs.Simulation.Script

/-!
# Shapes of generated code

The code of a well-formed script keeps to its frames. That of an expression leaves one temporary
more and, before its end, the operators that are still to be applied (`Expr.scan_code`), where no
operator takes an operand from outside; that of a statement leaves a frame with its locals and
nothing else, and every jump in it leads to the beginning or the end of a statement
(`Stmt.level_code`). So the body of a function is a sound region (`FunctionDef.sound_region`).
-/

namespace StackScript

open Shape

/-- The functions in view start where the code calls them, with the parameters they have. -/
def Knows (arity : Nat → Option Nat) (k : Names) (site : Site) : Prop :=
  ∀ (name : String) (callee n : Nat), k.function? name = some (callee, n) →
    arity (site.entry callee) = some n

namespace Shape

variable {arity : Nat → Option Nat} {body : Body} {op : Operator} {pending ops : List Operator}
  {locals temps : Nat}

theorem reduce?_eq (rest : List Operator) :
    (Shape.mk locals (temps + binaries pending + 1) ops).reduce? pending rest =
      some ⟨locals, temps + 1, rest⟩ := by
  unfold reduce?
  simp only
  rw [if_pos (by omega)]
  congr 2
  omega

/-- What yields to an operator is applied before it. -/
theorem settle?_eq (hp : ∀ q ∈ pending, Exec.yieldsTo op q = true)
    (hops : ∀ q ∈ ops.head?, Exec.yieldsTo op q = false) (hfloor : body = .call → ops ≠ []) :
    (Shape.mk locals (temps + binaries pending + 1) (pending ++ ops)).settle? body op =
      some ⟨locals, temps + 1, ops⟩ := by
  obtain ⟨htake, hdrop⟩ := Activation.splitWhile hp hops
  unfold settle?
  simp only [htake, hdrop]
  rw [if_neg fun h => hfloor h.1 h.2]
  exact reduce?_eq ops

theorem closeGroup?_eq (hp : ∀ q ∈ pending, q.isBarrier = false) :
    (Shape.mk locals (temps + binaries pending + 1) (pending ++ .openParen :: ops)).closeGroup? =
      some ⟨locals, temps + 1, ops⟩ := by
  have hp' : ∀ q ∈ pending, (!q.isBarrier) = true := fun q hq => by rw [hp q hq]; rfl
  have hops : ∀ q ∈ (Operator.openParen :: ops).head?, (!q.isBarrier) = false := by
    rintro q ⟨⟩
    rfl
  obtain ⟨htake, hdrop⟩ := Activation.splitWhile hp' hops
  unfold closeGroup?
  simp only [htake, hdrop]
  exact reduce?_eq ops

theorem operator?_of_binary (hop : op ∈ Operator.binary) (X : Shape) :
    X.operator? body op = (X.settle? body op).map fun Y => { Y with ops := op :: Y.ops } := by
  cases op with
  | openParen | closeParen | prepareCall | endOfExpression | not | neg | pos =>
    exact absurd hop (by decide)
  | _ => rfl

theorem operator?_of_isUnary (hop : op.isUnary) (X : Shape) :
    X.operator? body op = some { X with ops := op :: X.ops } := by
  cases op with
  | not | neg | pos => rfl
  | _ => cases hop

theorem call?_eq {target n : Nat} (h : arity target = some n) :
    (Shape.mk locals (temps + n) (.prepareCall :: ops)).call? arity target =
      some ⟨locals, temps + 1, ops⟩ := by
  unfold call?
  simp [h]

end Shape

section Expressions

variable {arity : Nat → Option Nat} {body : Body} {k : Names} {site : Site}

/-- Operators that are still to be applied when the code of an expression has been read. -/
def Pending (binding : Int) (pending : List Operator) : Prop :=
  ∀ q ∈ pending, q.isBarrier = false ∧ binding ≤ q.priority

theorem Pending.yieldsTo {b : Int} {pending : List Operator} {op : Operator} (h : Pending b pending)
    (hop : op.priority ≤ b) : ∀ q ∈ pending, Exec.yieldsTo op q = true := fun q hq => by
  simp [Exec.yieldsTo, (h q hq).1, Int.le_trans hop (h q hq).2]

theorem Pending.snoc {b : Int} {pending : List Operator} {op : Operator} (h : Pending b pending)
    (hop : op.isBarrier = false) (hb : op.priority ≤ b) : Pending op.priority (pending ++ [op]) := by
  intro q hq
  rcases List.mem_append.mp hq with hq | hq
  · exact ⟨(h q hq).1, Int.le_trans hb (h q hq).2⟩
  · rw [List.mem_singleton.mp hq]
    exact ⟨hop, Int.le_refl _⟩

/-- The end of an expression applies what is still to be applied. -/
theorem scan_endOfExpression {b : Int} {pending ops : List Operator} {locals temps : Nat}
    (hp : Pending b pending) (hb : 0 ≤ b) (hfloor : body = .call → ops ≠ [])
    (hops : ∀ q ∈ ops.head?, q.isBarrier) :
    (Shape.mk locals (temps + binaries pending + 1) (pending ++ ops)).next? arity body
      .endOfExpression = some ⟨locals, temps + 1, ops⟩ :=
  settle?_eq (hp.yieldsTo hb) (fun q hq => by simp [Exec.yieldsTo, hops q hq]) hfloor

/-- A call replaces its arguments and its `prepareCall` by its result. -/
theorem scan_callCode {target n locals temps : Nat} {ops : List Operator} {args : List Instr}
    (harity : arity target = some n)
    (hargs : (Shape.mk locals temps (.prepareCall :: ops)).scan? arity body args =
      some ⟨locals, temps + n, .prepareCall :: ops⟩) :
    (Shape.mk locals temps ops).scan? arity body
      (.operator .prepareCall :: (args ++ [.call target])) = some ⟨locals, temps + 1, ops⟩ := by
  rw [scan?_cons]
  show (Shape.mk locals temps (.prepareCall :: ops)).scan? arity body _ = _
  rw [scan?_snoc, hargs]
  exact call?_eq harity

mutual

/-- **The code of an expression leaves a value for it and its last operators to be applied.** -/
theorem Expr.scan_code (hknows : Knows arity k site) (e : Expr) (he : e.WellFormed k)
    (locals temps : Nat) (ops : List Operator) (hfloor : body = .call → ops ≠ [])
    (hops : ∀ q ∈ ops.head?, q.isBarrier ∨ q.priority < e.binding) :
    ∃ pending, Pending e.binding pending ∧
      (Shape.mk locals temps ops).scan? arity body (e.code site) =
        some ⟨locals, temps + binaries pending + 1, pending ++ ops⟩ := by
  match e with
  | .literal v => exact ⟨[], nofun, rfl⟩
  | .var name place =>
    refine ⟨[], nofun, ?_⟩
    cases place <;> rfl
  | .group e =>
    obtain ⟨pending, hp, hscan⟩ := Expr.scan_code hknows e he locals temps (.openParen :: ops)
      nofun (by rintro q ⟨⟩; exact Or.inl rfl)
    refine ⟨[], nofun, ?_⟩
    rw [Expr.code, scan?_cons]
    show (Shape.mk locals temps (.openParen :: ops)).scan? arity body _ = _
    rw [scan?_snoc, hscan]
    exact closeGroup?_eq fun q hq => (hp q hq).1
  | .call name callee args =>
    refine ⟨[], nofun, ?_⟩
    have hargs := Expr.scan_args hknows args he.2 locals temps (.prepareCall :: ops) nofun
      (by rintro q ⟨⟩; rfl)
    exact scan_callCode (hknows name callee args.length he.1) hargs
  | .unary op e =>
    obtain ⟨hop, hprimary, hwf⟩ := he
    have hbinding := Expr.binding_of_isPrimary hprimary
    have hprio := Operator.priority_of_isUnary hop
    obtain ⟨pending, hp, hscan⟩ := Expr.scan_code hknows e hwf locals temps (op :: ops) nofun
      (by rintro q ⟨⟩; exact Or.inr (by omega))
    refine ⟨pending ++ [op], hp.snoc ?_ (by omega), ?_⟩
    · cases op with
      | not | neg | pos => rfl
      | _ => cases hop
    · rw [Expr.code, scan?_cons]
      show ((Shape.mk locals temps ops).operator? body op).bind _ = _
      rw [operator?_of_isUnary hop, Option.bind_some, hscan]
      simp [binaries, hop]
  | .binary op lhs rhs =>
    obtain ⟨hop, hlhs, hrhs, hwl, hwr⟩ := he
    obtain ⟨hunary, hbarrier⟩ := Operator.not_barrier_of_binary hop
    obtain ⟨left, hleft, hscanl⟩ := Expr.scan_code hknows lhs hwl locals temps ops hfloor
      fun q hq => (hops q hq).imp_right fun h => Int.lt_of_lt_of_le h hlhs
    obtain ⟨right, hright, hscanr⟩ := Expr.scan_code hknows rhs hwr locals (temps + 1) (op :: ops)
      nofun (by rintro q ⟨⟩; exact Or.inr hrhs)
    have hsettle : (Shape.mk locals (temps + binaries left + 1) (left ++ ops)).next? arity body
        (.operator op) = some ⟨locals, temps + 1, op :: ops⟩ := by
      show Shape.operator? body op _ = _
      rw [operator?_of_binary hop, settle?_eq (hleft.yieldsTo hlhs) (fun q hq => ?_) hfloor]
      · rfl
      · rcases hops q hq with h | h
        · simp [Exec.yieldsTo, h]
        · have hlt : q.priority < op.priority := h
          simp [Exec.yieldsTo, Int.not_le.mpr hlt]
    refine ⟨right ++ [op], hright.snoc hbarrier (Int.le_of_lt hrhs), ?_⟩
    rw [Expr.code, scan?_append, hscanl, Option.bind_some, scan?_cons, hsettle, Option.bind_some,
      hscanr]
    simp [binaries, hunary]
    omega

/-- The code of arguments leaves a value for each. -/
theorem Expr.scan_args (hknows : Knows arity k site) (args : List Expr)
    (he : Expr.AllWellFormed k args) (locals temps : Nat) (ops : List Operator)
    (hfloor : body = .call → ops ≠ []) (hops : ∀ q ∈ ops.head?, q.isBarrier) :
    (Shape.mk locals temps ops).scan? arity body (Expr.argsCode site args) =
      some ⟨locals, temps + args.length, ops⟩ := by
  match args with
  | [] => rfl
  | e :: rest =>
    obtain ⟨pending, hp, hscan⟩ := Expr.scan_code hknows e he.1 locals temps ops hfloor
      fun q hq => Or.inl (hops q hq)
    have hrest := Expr.scan_args hknows rest he.2 locals (temps + 1) ops hfloor hops
    rw [Expr.argsCode, scan?_append, hscan, Option.bind_some, scan?_cons,
      scan_endOfExpression hp (Expr.binding_nonneg he.1) hfloor hops, Option.bind_some, hrest]
    simp
    omega

end

/-- The code of a call leaves its result, whatever waits below. -/
theorem Expr.scan_call (hknows : Knows arity k site) {name : String} {callee : Nat}
    {args : List Expr} (he : (Expr.call name callee args).WellFormed k) (locals temps : Nat)
    (ops : List Operator) :
    (Shape.mk locals temps ops).scan? arity body ((Expr.call name callee args).code site) =
      some ⟨locals, temps + 1, ops⟩ :=
  scan_callCode (hknows name callee args.length he.1)
    (Expr.scan_args hknows args he.2 locals temps (.prepareCall :: ops) nofun
      (by rintro q ⟨⟩; rfl))

/-- The code of an expression with its end leaves its value. -/
theorem Expr.scan_closedCode (hknows : Knows arity k site) {e : Expr} (he : e.WellFormed k)
    (locals temps : Nat) (ops : List Operator) (hfloor : body = .call → ops ≠ [])
    (hops : ∀ q ∈ ops.head?, q.isBarrier) :
    (Shape.mk locals temps ops).scan? arity body (e.closedCode site) =
      some ⟨locals, temps + 1, ops⟩ := by
  obtain ⟨pending, hp, hscan⟩ := Expr.scan_code hknows e he locals temps ops hfloor
    fun q hq => Or.inl (hops q hq)
  rw [Expr.closedCode, scan?_snoc, hscan, Option.bind_some]
  exact scan_endOfExpression hp (Expr.binding_nonneg he) hfloor hops

/-- Code that can be scanned inside a call does not jump. -/
theorem no_jump_of_scan? {X Y : Shape} {code : List Instr} (h : X.scan? arity .call code = some Y) :
    ∀ i ∈ code, i.jumpTarget? = none := by
  induction code generalizing X with
  | nil => exact fun i hi => (List.not_mem_nil hi).elim
  | cons i rest ih =>
    rw [scan?_cons] at h
    obtain ⟨Z, hZ, hrest⟩ := Option.bind_eq_some_iff.mp h
    refine List.forall_mem_cons.mpr ⟨?_, ih hrest⟩
    cases i with
    | jump target | jumpIfFalse target => cases hZ
    | _ => rfl

theorem Expr.closedCode_no_jump (hknows : Knows arity k site) {e : Expr} (he : e.WellFormed k) :
    ∀ i ∈ e.closedCode site, i.jumpTarget? = none := by
  have hscan : (Shape.mk 0 0 [.prepareCall]).scan? arity .call (e.closedCode site) =
      some ⟨0, 1, [.prepareCall]⟩ :=
    Expr.scan_closedCode hknows he 0 0 [.prepareCall] nofun (by rintro q ⟨⟩; rfl)
  exact no_jump_of_scan? hscan

end Expressions

/-! ## Statements -/

/-- The function whose code is generated for a site. -/
def Site.body (site : Site) : Body := .function site.params site.locals

/-- What a frame holds between two statements. -/
def Site.resting (site : Site) : Shape := ⟨site.locals, 0, []⟩

section Statements

variable {arity : Nat → Option Nat} {k : Names} {site : Site} {start t : Nat} {c₁ c₂ : List Instr}
  {T T' : Nat → Prop}

/-- An index at which code that starts at `start` is between two statements. -/
def Between (arity : Nat → Option Nat) (site : Site) (start : Nat) (code : List Instr) (t : Nat) :
    Prop :=
  ∃ j ≤ code.length, t = start + j ∧
    site.resting.scan? arity site.body (code.take j) = some site.resting

/-- Code that begins and ends between two statements, and jumps only to given indices. -/
structure Level (arity : Nat → Option Nat) (site : Site) (T : Nat → Prop) (code : List Instr) :
    Prop where
  scan : site.resting.scan? arity site.body code = some site.resting
  jumps : ∀ i ∈ code, ∀ t, i.jumpTarget? = some t → T t

namespace Between

theorem first : Between arity site start c₁ start := ⟨0, Nat.zero_le _, rfl, rfl⟩

theorem last (h : site.resting.scan? arity site.body c₁ = some site.resting)
    (ht : t = start + c₁.length) : Between arity site start c₁ t :=
  ⟨c₁.length, Nat.le_refl _, ht, by rwa [List.take_length]⟩

theorem left (h : Between arity site start c₁ t) : Between arity site start (c₁ ++ c₂) t := by
  obtain ⟨j, hj, ht, hscan⟩ := h
  refine ⟨j, by rw [List.length_append]; omega, ht, ?_⟩
  rwa [List.take_append_of_le_length hj]

theorem right {start' : Nat} (h₁ : site.resting.scan? arity site.body c₁ = some site.resting)
    (hstart : start' = start + c₁.length) (h : Between arity site start' c₂ t) :
    Between arity site start (c₁ ++ c₂) t := by
  obtain ⟨j, hj, ht, hscan⟩ := h
  refine ⟨c₁.length + j, by rw [List.length_append]; omega, by omega, ?_⟩
  rw [List.take_length_add_append, scan?_append, h₁]
  exact hscan

end Between

namespace Level

theorem append (h₁ : Level arity site T c₁) (h₂ : Level arity site T c₂) :
    Level arity site T (c₁ ++ c₂) where
  scan := by
    rw [scan?_append, h₁.scan]
    exact h₂.scan
  jumps i hi := (List.mem_append.mp hi).elim (h₁.jumps i) (h₂.jumps i)

theorem mono (h : Level arity site T c₁) (hT : ∀ t, T t → T' t) : Level arity site T' c₁ :=
  ⟨h.scan, fun i hi t ht => hT t (h.jumps i hi t ht)⟩

theorem straight (hscan : site.resting.scan? arity site.body c₁ = some site.resting)
    (hjumps : ∀ i ∈ c₁, i.jumpTarget? = none) : Level arity site T c₁ :=
  ⟨hscan, fun i hi t ht => by rw [hjumps i hi] at ht; cases ht⟩

theorem jump (ht : T t) : Level arity site T [.jump t] where
  scan := by simp [scan?, next?, rest?, Site.body, Site.resting]
  jumps := by
    rintro i hi t' ht'
    cases List.mem_singleton.mp hi
    cases ht'
    exact ht

section Branches

variable {c b d : List Instr}
  (htest : ∀ (T : Nat → Prop) (t : Nat), T t → Level arity site T (c ++ [.jumpIfFalse t]))
  (hb : Level arity site (Between arity site (start + c.length + 1) b) b)

include htest hb

theorem ifThen :
    Level arity site
      (Between arity site start (c ++ .jumpIfFalse (start + c.length + 1 + b.length) :: b))
      (c ++ .jumpIfFalse (start + c.length + 1 + b.length) :: b) := by
  have hc := htest (fun _ => True) (start + c.length + 1 + b.length) trivial
  have hlen : start + c.length + 1 =
      start + (c ++ [Instr.jumpIfFalse (start + c.length + 1 + b.length)]).length := by
    rw [List.length_append, List.length_singleton, Nat.add_assoc]
  rw [List.append_cons]
  refine (htest _ _ (.last (hc.append (hb.mono fun _ _ => trivial)).scan ?_)).append
    (hb.mono fun t ht => ht.right hc.scan hlen)
  rw [List.length_append, ← Nat.add_assoc, ← hlen]

theorem whileDo :
    Level arity site (Between arity site start
        (c ++ .jumpIfFalse (start + c.length + 1 + b.length + 1) :: (b ++ [.jump start])))
      (c ++ .jumpIfFalse (start + c.length + 1 + b.length + 1) :: (b ++ [.jump start])) := by
  have hc := htest (fun _ => True) (start + c.length + 1 + b.length + 1) trivial
  have hback : Level arity site (fun _ => True) [.jump start] := .jump trivial
  have hlen : start + c.length + 1 =
      start + (c ++ [Instr.jumpIfFalse (start + c.length + 1 + b.length + 1)]).length := by
    rw [List.length_append, List.length_singleton, Nat.add_assoc]
  rw [List.append_cons]
  refine (htest _ _ (.last (hc.append ((hb.mono fun _ _ => trivial).append hback)).scan ?_)).append
    ((hb.mono fun t ht => .right hc.scan hlen ht.left).append (.jump .first))
  rw [List.length_append, ← Nat.add_assoc, ← hlen, List.length_append, List.length_singleton,
    Nat.add_assoc]

theorem ifElse
    (hd : Level arity site (Between arity site (start + c.length + 1 + b.length + 1) d) d) :
    Level arity site (Between arity site start
        (c ++ .jumpIfFalse (start + c.length + 1 + b.length + 1) ::
          (b ++ .jump (start + c.length + 1 + b.length + 1 + d.length) :: d)))
      (c ++ .jumpIfFalse (start + c.length + 1 + b.length + 1) ::
        (b ++ .jump (start + c.length + 1 + b.length + 1 + d.length) :: d)) := by
  have hc := htest (fun _ => True) (start + c.length + 1 + b.length + 1) trivial
  have hskip : Level arity site (fun _ => True)
      [.jump (start + c.length + 1 + b.length + 1 + d.length)] := .jump trivial
  have hlen : start + c.length + 1 =
      start + (c ++ [Instr.jumpIfFalse (start + c.length + 1 + b.length + 1)]).length := by
    rw [List.length_append, List.length_singleton, Nat.add_assoc]
  have hall := hc.append ((hb.mono fun _ _ => trivial).append
    (hskip.append (hd.mono fun _ _ => trivial)))
  rw [List.append_cons]
  refine (htest _ _ ?_).append ((hb.mono fun t ht => .right hc.scan hlen ht.left).append
    (.append (.jump ?_) (hd.mono fun t ht => ?_)))
  · exact .right hc.scan hlen (.right hb.scan rfl (.left (.last hskip.scan rfl)))
  · refine .last hall.scan ?_
    simp
    omega
  · exact .right hc.scan hlen (.right hb.scan rfl (.right hskip.scan rfl ht))

end Branches

end Level

/-- Where a function holds nothing but locals, the code of an expression with its end leaves its
value. -/
theorem Expr.scan_between (hknows : Knows arity k site) {e : Expr} (he : e.WellFormed k)
    (locals : Nat) :
    (Shape.mk locals 0 []).scan? arity site.body (e.closedCode site) = some ⟨locals, 1, []⟩ :=
  Expr.scan_closedCode hknows he locals 0 [] nofun nofun

/-- The value of an expression is taken by an instruction between two statements. -/
theorem Expr.level_closedCode (hknows : Knows arity k site) {e : Expr} (he : e.WellFormed k)
    {i : Instr}
    (hi : (Shape.mk site.locals 1 []).next? arity site.body i = some site.resting)
    (hjump : ∀ t, i.jumpTarget? = some t → T t) :
    Level arity site T (e.closedCode site ++ [i]) where
  scan := by
    rw [scan?_snoc, Site.resting, Expr.scan_between hknows he]
    exact hi
  jumps := by
    intro j hj t ht
    rcases List.mem_append.mp hj with hj | hj
    · rw [Expr.closedCode_no_jump hknows he j hj] at ht
      cases ht
    · cases List.mem_singleton.mp hj
      exact hjump t ht

theorem next_ret : (Shape.mk site.locals 1 []).next? arity site.body (.ret site.params site.locals) =
    some site.resting := by
  simp [next?, rest?, Site.body, Site.resting]

/-- The test of a statement, which jumps to `t`. -/
theorem Expr.level_test (hknows : Knows arity k site) {e : Expr} (he : e.WellFormed k) (ht : T t) :
    Level arity site T (e.closedCode site ++ [.jumpIfFalse t]) := by
  refine Expr.level_closedCode hknows he ?_ ?_
  · simp [next?, rest?, Site.body, Site.resting]
  · rintro t' ⟨⟩
    exact ht

theorem Names.frame_lt_of_place? {name : String} {i : Nat} (h : k.place? name = some (.frame i)) :
    i < k.frameNames.length := by
  unfold Names.place? at h
  split at h
  · rename_i j hj
    cases h
    exact (List.idxOf?_eq_some_iff.mp hj).1
  · simp at h

/-- A variable in view is written inside the frame. -/
theorem Place.next_store {name : String} {place : Place} {locals temps declared : Nat}
    {ops : List Operator} (h : k.place? name = some place)
    (hframe : k.frameNames.length = site.params + declared) :
    (Shape.mk declared (temps + 1) ops).next? arity (.function site.params locals)
      (place.store site) = some ⟨declared, temps, ops⟩ := by
  cases place with
  | global slot => rfl
  | frame i =>
    have hlt := Names.frame_lt_of_place? h
    have howns : (Body.function site.params locals).Owns declared (site.offset i) := by
      unfold Body.Owns Site.offset Frame.offset
      simp only [decide_eq_true_eq]
      split <;> omega
    exact if_pos howns

mutual

/-- **The code of a statement begins and ends with nothing but the locals in the frame**, and jumps
only to where that is so. -/
theorem Stmt.level_code (hknows : Knows arity k site)
    (hframe : k.frameNames.length = site.params + site.locals) (start : Nat) (st : Stmt)
    (hst : st.WellFormed k) :
    Level arity site (Between arity site start (st.code site start)) (st.code site start) := by
  match st with
  | .assign name place e =>
    exact Expr.level_closedCode hknows hst.2 (Place.next_store hst.1 hframe) (by
      cases place <;> nofun)
  | .call name callee args =>
    have hscan : site.resting.scan? arity site.body ((Expr.call name callee args).code site) =
      some ⟨site.locals, 1, []⟩ := Expr.scan_call hknows hst site.locals 0 []
    refine .straight ?_ fun i hi => ?_
    · rw [Stmt.code, scan?_snoc, hscan]
      rfl
    · rcases List.mem_append.mp hi with hi | hi
      · exact no_jump_of_scan? (Expr.scan_call hknows hst 0 0 []) i hi
      · cases List.mem_singleton.mp hi
        rfl
  | .ret none =>
    refine .straight ?_ ?_
    · rw [Stmt.code, scan?_cons]
      exact (Option.bind_some _ _).trans (congrArg (Option.bind · _) next_ret)
    · simp [Stmt.code, Instr.jumpTarget?]
  | .ret (some e) => exact Expr.level_closedCode hknows hst next_ret nofun
  | .ifThen test body =>
    exact .ifThen (fun _ _ => Expr.level_test hknows hst.1)
      (Stmt.level_block hknows hframe (start + (test.closedCode site).length + 1) body hst.2)
  | .ifElse test body other =>
    obtain ⟨htest, hb, ho⟩ := hst
    exact .ifElse (fun _ _ => Expr.level_test hknows htest)
      (Stmt.level_block hknows hframe (start + (test.closedCode site).length + 1) body hb)
      (Stmt.level_block hknows hframe _ other ho)
  | .whileDo test body =>
    exact .whileDo (fun _ _ => Expr.level_test hknows hst.1)
      (Stmt.level_block hknows hframe (start + (test.closedCode site).length + 1) body hst.2)

theorem Stmt.level_block (hknows : Knows arity k site)
    (hframe : k.frameNames.length = site.params + site.locals) (start : Nat) (body : List Stmt)
    (hbody : Stmt.AllWellFormed k body) :
    Level arity site (Between arity site start (Stmt.blockCode site start body))
      (Stmt.blockCode site start body) := by
  match body with
  | [] => exact .straight rfl nofun
  | st :: rest =>
    have hst := Stmt.level_code hknows hframe start st hbody.1
    have hrest := Stmt.level_block hknows hframe (start + (st.code site start).length) rest hbody.2
    exact (hst.mono fun t ht => ht.left).append (hrest.mono fun t ht => ht.right hst.scan rfl)

end

theorem Site.level_defaultReturn : Level arity site T site.defaultReturn := by
  have hnone : Pending 0 [] := nofun
  have hend : (Shape.mk site.locals 1 []).next? arity site.body .endOfExpression =
      some ⟨site.locals, 1, []⟩ := scan_endOfExpression hnone (Int.le_refl 0) nofun nofun
  refine .straight ?_ ?_
  · rw [Site.defaultReturn, scan?_cons]
    show (Shape.mk site.locals 1 []).scan? arity site.body _ = _
    rw [scan?_cons, hend]
    exact congrArg (Option.bind · _) next_ret
  · simp [Site.defaultReturn, Instr.jumpTarget?]

end Statements

/-! ## Functions -/

section Functions

variable {arity : Nat → Option Nat} {k : Names} {site : Site}

theorem Knows.declare (h : Knows arity k site) (names : List String) :
    Knows arity (k.declare names) site := h

/-- Declarations of a function add their locals to the frame, and do not jump. -/
theorem Decl.scan_listCode (hknows : Knows arity k site) (hk : k.frame.isSome) (decls : List Decl)
    (hd : Decl.AllWellFormed k decls) (declared : Nat)
    (hframe : k.frameNames.length = site.params + declared) :
    (Shape.mk declared 0 []).scan? arity site.body (Decl.listCode site decls) =
        some ⟨declared + decls.length, 0, []⟩ ∧
      ∀ i ∈ Decl.listCode site decls, i.jumpTarget? = none := by
  induction decls generalizing k declared with
  | nil => exact ⟨rfl, List.forall_mem_nil _⟩
  | cons d rest ih =>
    obtain ⟨hplace, hinit, hrest⟩ := hd
    have hframe' : (k.declare [d.name]).frameNames.length = site.params + (declared + 1) := by
      rw [Names.frameNames_declare hk, List.length_append, hframe]
      rfl
    have hroom : (Shape.mk declared 0 []).scan? arity site.body d.place.room =
        some ⟨declared + 1, 0, []⟩ ∧ ∀ i ∈ d.place.room, i.jumpTarget? = none := by
      obtain ⟨i, hi⟩ := Names.frame_of_place?_declare hk hplace
      rw [hi]
      simp [Place.room, scan?, next?, Site.body, Instr.jumpTarget?]
    have hcode : (Shape.mk (declared + 1) 0 []).scan? arity site.body (d.initCode site) =
        some ⟨declared + 1, 0, []⟩ ∧ ∀ i ∈ d.initCode site, i.jumpTarget? = none := by
      unfold Decl.initCode
      cases he : d.init with
      | none => exact ⟨rfl, List.forall_mem_nil _⟩
      | some e =>
        have hwf := hinit e he
        constructor
        · rw [scan?_snoc, Expr.scan_between (hknows.declare _) hwf]
          exact Place.next_store hplace hframe'
        · intro i hi
          rcases List.mem_append.mp hi with hi | hi
          · exact Expr.closedCode_no_jump (hknows.declare _) hwf i hi
          · rw [List.mem_singleton.mp hi]
            cases d.place <;> rfl
    obtain ⟨hscan, hjumps⟩ := ih (hknows.declare _) (Names.frame_declare hk _) hrest (declared + 1)
      hframe'
    constructor
    · rw [Decl.listCode, List.flatMap_cons, Decl.code, scan?_append, scan?_append, hroom.1,
        Option.bind_some, hcode.1, Option.bind_some]
      refine hscan.trans ?_
      rw [List.length_cons, Nat.add_assoc, Nat.add_comm 1]
    · intro i hi
      rw [Decl.listCode, List.flatMap_cons, Decl.code] at hi
      rcases List.mem_append.mp hi with hi | hi
      · exact (List.mem_append.mp hi).elim (hroom.2 i) (hcode.2 i)
      · exact hjumps i hi

/-- A jump is made between two statements. -/
theorem next?_of_jump {X Y : Shape} {i : Instr} {t : Nat} (h : X.next? arity site.body i = some Y)
    (ht : i.jumpTarget? = some t) : Y = site.resting := by
  have hrest {Z : Shape} (hZ : Z.rest? site.body = some Y) : Y = site.resting := by
    obtain ⟨params, locals, hbody, -, rfl⟩ := rest?_eq_some hZ
    cases hbody
    rfl
  cases i with
  | jump target => exact hrest h
  | jumpIfFalse target => exact hrest h
  | _ => cases ht

/-- The region of a function whose code is generated for a site. -/
def Site.region (arity : Nat → Option Nat) (site : Site) (start : Nat) (code : List Instr) :
    Region where
  body := site.body
  shapes i X := ∃ j < code.length, i = start + j ∧
    Shape.zero.scan? arity site.body (code.take j) = some X

theorem Site.sound_region {p : Program} {start params locals : Nat} {code : List Instr} {Y : Shape}
    (hcode : CodeAt p start code) (hscan : Shape.zero.scan? arity site.body code = some Y)
    (hlast : code.getLast? = some (.ret params locals))
    (hjumps : ∀ i ∈ code, ∀ t, i.jumpTarget? = some t → (site.region arity start code).shapes t
      site.resting) :
    (site.region arity start code).Sound p arity := by
  rintro _ X ⟨j, hj, rfl, hX⟩ -
  have hi := List.getElem?_eq_getElem hj
  obtain ⟨Z, hnext, hZ⟩ := next?_of_scan?_take hscan hi hX
  refine ⟨code[j], Z, hcode j _ hi, hnext, fun _ hret => ?_, fun target htarget => ?_⟩
  · -- the last instruction is a return
    refine ⟨j + 1, Nat.lt_of_le_of_ne hj fun hlen => ?_, rfl, hZ⟩
    rw [List.getLast?_eq_getElem?, ← hlen, Nat.add_sub_cancel, hi] at hlast
    exact hret params locals (Option.some.inj hlast)
  · rw [next?_of_jump hnext htarget]
    exact hjumps _ (List.getElem_mem hj) target htarget

/-- **The body of a function is a sound region**, which begins with nothing in its frame. -/
theorem FunctionDef.sound_region {p : Program} {f : FunctionDef} {entries : List Nat} {start : Nat}
    (hknows : Knows arity (f.names k) (f.site entries)) (hf : f.WellFormed k)
    (hc : CodeAt p start (f.code entries start)) :
    ((f.site entries).region arity start (f.code entries start)).Sound p arity ∧
      ((f.site entries).region arity start (f.code entries start)).shapes start .zero := by
  obtain ⟨hdecls, hstraight⟩ := Decl.scan_listCode hknows rfl f.decls hf.1 0 rfl
  rw [Nat.zero_add] at hdecls
  have hframe : ((f.names k).declare (f.decls.map (·.name))).frameNames.length =
      (f.site entries).params + (f.site entries).locals := by
    rw [Names.frameNames_declare rfl, List.length_append, List.length_map]
    rfl
  have hblock := Stmt.level_block (hknows.declare _) hframe
    (start + (Decl.listCode (f.site entries) f.decls).length) f.body hf.2
  have hrest := hblock.append Site.level_defaultReturn
  have hcode : f.code entries start = Decl.listCode (f.site entries) f.decls ++
      (Stmt.blockCode (f.site entries) (start + (Decl.listCode (f.site entries) f.decls).length)
        f.body ++ (f.site entries).defaultReturn) := List.append_assoc ..
  have hscan : Shape.zero.scan? arity (f.site entries).body (f.code entries start) =
      some (f.site entries).resting := by
    rw [hcode, scan?_append, Shape.zero, hdecls]
    exact hrest.scan
  have hlast : (f.code entries start).getLast? =
      some (.ret (f.site entries).params (f.site entries).locals) := by
    rw [hcode]
    simp [Site.defaultReturn]
  refine ⟨Site.sound_region hc hscan hlast fun i hi t ht => ?_, 0, ?_, rfl, rfl⟩
  · rw [hcode] at hi
    rcases List.mem_append.mp hi with hi | hi
    · rw [hstraight i hi] at ht
      cases ht
    · obtain ⟨j, hj, rfl, hbetween⟩ := hrest.jumps i hi t ht
      refine ⟨(Decl.listCode (f.site entries) f.decls).length + j, ?_, Nat.add_assoc .., ?_⟩
      · rw [hcode]
        simp [Site.defaultReturn]
        omega
      · rw [hcode, List.take_length_add_append, List.take_append_of_le_length hj, scan?_append,
          Shape.zero, hdecls]
        exact hbetween
  · exact f.length_code_pos entries start

end Functions

end StackScript
