import StackScript.Proofs.Simulation.Expression

/-!
# Statements on the machine

The code of statements is followed to its end, or to a return instruction with the value to return
on top (`Stmt.follows_exec`, `Stmt.follows_execAll`). A loop takes a tick for every turn
(`follows_whileLoop`), so a machine goes on for as many ticks as a loop that does not end has turns.
Declarations bring their names into view (`Decl.follows_execLocals`), and a body always comes to a
return (`follows_body`).
-/

namespace StackScript

open Machine Activation

/-- A machine at a return, with the value to return on top. -/
def Returns (p : Program) (k : Names) (site : Site) (a : Activation) (ops : List Operator)
    (v : Value) (s : Store) (m : Machine) : Prop :=
  ∃ ip, p.code.get? ip = some (.ret site.params site.locals) ∧ At k site a [v] ops ip s m

/-- After statements a machine is at the end of their code or at a return. -/
def After (p : Program) (k : Names) (site : Site) (a : Activation) (ops : List Operator) (ip : Nat) :
    Option Value → Store → Machine → Prop
  | none, s, m => At k site a [] ops ip s m
  | some v, s, m => Returns p k site a ops v s m

section Follow

variable {p : Program} {n : Nat} {k : Names} {site : Site} {a : Activation} {s : Store}
  {m : Machine} {temps : List Value} {ops : List Operator} {ip : Nat}
  {call : String → List Value → Eval Value}

theorem After.index {r : Option Value} {ip' : Nat} (h : After p k site a ops ip r s m)
    (hi : ip = ip') : After p k site a ops ip' r s m := hi ▸ h

/-- **A condition is followed to the branch that it chooses.** -/
theorem Expr.follows_test (hcalls : CallsFollow p n k site call) {e : Expr} (he : e.WellFormed k)
    (hc : CodeAt p ip (e.closedCode site)) {target : Nat}
    (hi : p.code.get? (ip + (e.closedCode site).length) = some (.jumpIfFalse target))
    (hops : ∀ q ∈ ops.head?, q.isBarrier) (h : At k site a temps ops ip s m) :
    Follows p n m (e.test call s) (fun b =>
      At k site a temps ops (if b then ip + (e.closedCode site).length + 1 else target)) := by
  refine (Expr.follows_closed hcalls he hc hops h).bind fun v s₁ m₁ h₁ => ?_
  obtain ⟨hagrees, t, rfl⟩ := h₁
  cases v with
  | bool b => exact .next (next_jumpIfFalse hi) (.pure ⟨hagrees, _, rfl⟩)
  | _ => exact ⟨0, _, .refl _, fails_jumpIfFalse hi (by simp)⟩

/-- A value is stored in the place of a name. -/
theorem At.follows_write {name : String} {place : Place} {v : Value}
    (h : At k site a (temps ++ [v]) ops ip s m) (hn : k.place? name = some place)
    (hi : p.code.get? ip = some (place.store site)) :
    Follows p n m (Eval.write name v s) (fun _ => At k site a temps ops (ip + 1)) := by
  obtain ⟨hagrees, t, rfl⟩ := h
  exact ⟨1, _, .step (hagrees.next_store hn hi) (.refl _), hagrees.set name v, _, rfl⟩

/-- A jump leads to its target. -/
theorem At.jump {target : Nat} (h : At k site a temps ops ip s m)
    (hi : p.code.get? ip = some (.jump target)) :
    ∃ m', Next p m (.ok none m') ∧ At k site a temps ops target s m' := by
  obtain ⟨hagrees, t, rfl⟩ := h
  exact ⟨_, next_jump hi, hagrees, _, rfl⟩

/-- The result of a call is dropped. -/
theorem At.pop {v : Value} (h : At k site a (temps ++ [v]) ops ip s m)
    (hi : p.code.get? ip = some .pop) :
    ∃ m', Next p m (.ok none m') ∧ At k site a temps ops (ip + 1) s m' := by
  obtain ⟨hagrees, t, rfl⟩ := h
  exact ⟨_, next_pop hi, hagrees, _, rfl⟩

/-- Room is made for a local. -/
theorem At.follows_declare {name : String} (h : At k site a [] ops ip s m) (hk : k.frame.isSome)
    (hi : p.code.get? ip = some .declareLocal) :
    Follows p n m (Eval.declare name s) (fun _ => At (k.declare [name]) site a [] ops (ip + 1)) := by
  obtain ⟨hagrees, t, rfl⟩ := h
  obtain ⟨hnext, hagrees₁⟩ := hagrees.next_declare hk hi
  exact ⟨1, _, .step hnext (.refl _), hagrees₁, _, rfl⟩

/-- A loop is followed for one more tick with every turn. -/
theorem follows_whileLoop {test : Eval Bool} {body : Eval (Option Value)}
    {start bodyStart bodyEnd after : Nat}
    (htest : ∀ {s m}, At k site a [] ops start s m →
      Follows p n m (test s) (fun b => At k site a [] ops (if b then bodyStart else after)))
    (hbody : ∀ {s m}, At k site a [] ops bodyStart s m →
      Follows p n m (body s) (After p k site a ops bodyEnd))
    (hback : p.code.get? bodyEnd = some (.jump start)) (turns : Nat)
    (h : At k site a [] ops start s m) :
    Follows p (min n turns) m (Eval.whileLoop test body turns s) (After p k site a ops after) := by
  induction turns generalizing s m with
  | zero => exact ⟨m, by simpa using Steps.refl m⟩
  | succ turns ih =>
    refine ((htest h).weaken (Nat.min_le_left _ _)).bind fun b s₁ m₁ h₁ => ?_
    cases b with
    | false => exact .pure h₁
    | true =>
      refine ((hbody h₁).weaken (Nat.min_le_left _ _)).bind fun r s₂ m₂ h₂ => ?_
      cases r with
      | some v => exact .pure h₂
      | none =>
        obtain ⟨m₃, hjump, h₃⟩ := At.jump h₂ hback
        exact ((ih h₃).tick hjump).weaken (by omega)

mutual

/-- **The code of a statement is followed to its end or to a return.** -/
theorem Stmt.follows_exec (hcalls : CallsFollow p n k site call)
    (hops : ∀ q ∈ ops.head?, q.isBarrier) {turns : Nat} (hturns : n ≤ turns) (st : Stmt)
    (hst : st.WellFormed k) {s : Store} {m : Machine} {ip : Nat} (hc : CodeAt p ip (st.code site ip))
    (h : At k site a [] ops ip s m) :
    Follows p n m (st.exec call turns s) (After p k site a ops (ip + (st.code site ip).length)) := by
  match st with
  | .assign name place e =>
    refine (Expr.follows_closed hcalls hst.2 hc.left hops h).bind fun v s₁ m₁ h₁ => ?_
    refine (h₁.follows_write hst.1 hc.right.head).bind fun _ s₂ m₂ h₂ => .pure ?_
    exact h₂.index (by simp [Stmt.code]; omega)
  | .call name callee args =>
    have hexec : Stmt.exec call turns (.call name callee args) =
        (do let _ ← (Expr.call name callee args).eval call; return none) := by
      simp only [Stmt.exec, Expr.eval, bind_assoc]
    rw [hexec]
    refine (Expr.follows_call hcalls hst hc.left h).bind fun v s₁ m₁ h₁ => ?_
    obtain ⟨m₂, hpop, h₂⟩ := h₁.pop hc.right.head
    exact .next hpop (.pure (h₂.index (by simp [Stmt.code]; omega)))
  | .ret none =>
    obtain ⟨hagrees, t, rfl⟩ := h
    exact .next (next_push hc.head) (.pure ⟨ip + 1, hc.tail.head, hagrees, _, rfl⟩)
  | .ret (some e) =>
    refine (Expr.follows_closed hcalls hst hc.left hops h).bind fun v s₁ m₁ h₁ => .pure ?_
    exact ⟨_, hc.right.head, h₁⟩
  | .ifThen test body =>
    refine (Expr.follows_test hcalls hst.1 hc.left hc.right.head hops h).bind fun b s₁ m₁ h₁ => ?_
    cases b with
    | false => exact .pure (h₁.index (by simp [Stmt.code]; omega))
    | true =>
      exact (Stmt.follows_execAll hcalls hops hturns body hst.2 hc.right.tail h₁).mono
        fun r s₂ m₂ h₂ => h₂.index (by simp [Stmt.code]; omega)
  | .ifElse test body other =>
    have hbody := hc.right.tail.left
    have hother := hc.right.tail.right.tail
    refine (Expr.follows_test hcalls hst.1 hc.left hc.right.head hops h).bind fun b s₁ m₁ h₁ => ?_
    cases b with
    | false =>
      exact (Stmt.follows_execAll hcalls hops hturns other hst.2.2 hother h₁).mono
        fun r s₂ m₂ h₂ => h₂.index (by simp [Stmt.code]; omega)
    | true =>
      refine (Stmt.follows_execAll hcalls hops hturns body hst.2.1 hbody h₁).onwards
        fun r s₂ m₂ h₂ => ?_
      cases r with
      | some v => exact ⟨0, m₂, .refl _, h₂⟩
      | none =>
        obtain ⟨m₃, hjump, h₃⟩ := At.jump h₂ hc.right.tail.right.head
        exact ⟨1, m₃, .step hjump (.refl _), h₃.index (by simp [Stmt.code]; omega)⟩
  | .whileDo test body =>
    have hloop : Follows p (min n turns) m (Stmt.exec call turns (.whileDo test body) s) _ :=
      follows_whileLoop (fun h => Expr.follows_test hcalls hst.1 hc.left hc.right.head hops h)
        (fun h => Stmt.follows_execAll hcalls hops hturns body hst.2 hc.right.tail.left h)
        hc.right.tail.right.head turns h
    rw [Nat.min_eq_left hturns] at hloop
    exact hloop.mono fun r s₁ m₁ h₁ => h₁.index (by simp [Stmt.code]; omega)

/-- **The code of statements is followed to its end or to a return.** -/
theorem Stmt.follows_execAll (hcalls : CallsFollow p n k site call)
    (hops : ∀ q ∈ ops.head?, q.isBarrier) {turns : Nat} (hturns : n ≤ turns) (body : List Stmt)
    (hbody : Stmt.AllWellFormed k body) {s : Store} {m : Machine} {ip : Nat}
    (hc : CodeAt p ip (Stmt.blockCode site ip body)) (h : At k site a [] ops ip s m) :
    Follows p n m (Stmt.execAll call turns body s)
      (After p k site a ops (ip + (Stmt.blockCode site ip body).length)) := by
  match body with
  | [] => exact .pure (show After p k site a ops _ none s m from h)
  | st :: rest =>
    refine (Stmt.follows_exec hcalls hops hturns st hbody.1 hc.left h).bind fun r s₁ m₁ h₁ => ?_
    cases r with
    | some v => exact .pure h₁
    | none =>
      exact (Stmt.follows_execAll hcalls hops hturns rest hbody.2 hc.right h₁).mono
        fun r s₂ m₂ h₂ => h₂.index (by simp [Stmt.blockCode]; omega)

end

/-! ## Declarations and bodies -/

/-- Declarations change no function and no global in view. -/
theorem CallsFollow.declare (h : CallsFollow p n k site call) (names : List String) :
    CallsFollow p n (k.declare names) site call := h

/-- The initial value of a variable is stored in its place. -/
theorem Decl.follows_initialise (hcalls : CallsFollow p n k site call)
    (hops : ∀ q ∈ ops.head?, q.isBarrier) {d : Decl} (hn : k.place? d.name = some d.place)
    (hd : ∀ e, d.init = some e → e.WellFormed k) (hc : CodeAt p ip (d.initCode site))
    (h : At k site a [] ops ip s m) :
    Follows p n m (d.initialise call s)
      (fun _ => At k site a [] ops (ip + (d.initCode site).length)) := by
  unfold Decl.initialise
  unfold Decl.initCode at hc ⊢
  cases hinit : d.init with
  | none => exact .pure h
  | some e =>
    rw [hinit] at hc
    refine (Expr.follows_closed hcalls (hd e hinit) hc.left hops h).bind fun v s₁ m₁ h₁ => ?_
    refine (h₁.follows_write hn hc.right.head).mono fun _ s₂ m₂ h₂ => ?_
    exact h₂.index (by simp; omega)

/-- The declarations of globals are followed one after another. -/
theorem Decl.follows_execGlobals (hcalls : CallsFollow p n k site call)
    (hops : ∀ q ∈ ops.head?, q.isBarrier) (hk : k.frame = none) (decls : List Decl)
    (hd : Decl.AllWellFormed k decls) (hc : CodeAt p ip (Decl.listCode site decls))
    (h : At k site a [] ops ip s m) :
    Follows p n m (Decl.execGlobals call decls s)
      (fun _ => At k site a [] ops (ip + (Decl.listCode site decls).length)) := by
  induction decls generalizing s m ip with
  | nil => exact .pure h
  | cons d rest ih =>
    obtain ⟨hplace, hinit, hrest⟩ := hd
    rw [Names.declare_eq_self hk] at hplace hinit hrest
    have hcode : Decl.listCode site (d :: rest) = d.initCode site ++ Decl.listCode site rest := by
      obtain ⟨slot, hslot⟩ := Names.global_of_place? hk hplace
      simp [Decl.listCode, Decl.code, hslot, Place.room]
    rw [hcode] at hc ⊢
    refine (Decl.follows_initialise hcalls hops hplace hinit hc.left h).bind fun _ s₁ m₁ h₁ => ?_
    exact (ih hrest hc.right h₁).mono fun _ s₂ m₂ h₂ => h₂.index (by simp; omega)

/-- **The declarations of locals are followed one after another; each brings its name into view.** -/
theorem Decl.follows_execLocals (hcalls : CallsFollow p n k site call)
    (hops : ∀ q ∈ ops.head?, q.isBarrier) (hk : k.frame.isSome) (decls : List Decl)
    (hd : Decl.AllWellFormed k decls) (hc : CodeAt p ip (Decl.listCode site decls))
    (h : At k site a [] ops ip s m) :
    Follows p n m (Decl.execLocals call decls s) (fun _ =>
      At (k.declare (decls.map (·.name))) site a [] ops
        (ip + (Decl.listCode site decls).length)) := by
  induction decls generalizing k s m ip with
  | nil => exact .pure ((Names.declare_nil k).symm ▸ h)
  | cons d rest ih =>
    obtain ⟨hplace, hinit, hrest⟩ := hd
    have hcode : Decl.listCode site (d :: rest) =
        .declareLocal :: (d.initCode site ++ Decl.listCode site rest) := by
      obtain ⟨i, hi⟩ := Names.frame_of_place?_declare hk hplace
      simp [Decl.listCode, Decl.code, hi, Place.room]
    rw [hcode] at hc ⊢
    refine (h.follows_declare hk hc.head).bind fun _ s₁ m₁ h₁ => ?_
    have hcalls₁ := hcalls.declare [d.name]
    refine (Decl.follows_initialise hcalls₁ hops hplace hinit hc.tail.left h₁).bind
      fun _ s₂ m₂ h₂ => ?_
    refine (ih hcalls₁ (Names.frame_declare hk _) hrest hc.tail.right h₂).mono fun _ s₃ m₃ h₃ => ?_
    rw [Names.declare_declare] at h₃
    exact h₃.index (by simp; omega)

/-- The default return gives `0`. -/
theorem At.defaultReturn (hops : ∀ q ∈ ops.head?, q.isBarrier)
    (hc : CodeAt p ip site.defaultReturn) (h : At k site a [] ops ip s m) :
    ∃ i m', Steps p i m m' ∧ Returns p k site a ops (.int 0) s m' := by
  obtain ⟨hagrees, t, rfl⟩ := h
  have hend := @closes_endOfExpression p a s [] ops (ip + 1) (t + 1) (.value (.int 0)) hc.tail.head
    trivial (fun q hq => (List.not_mem_nil hq).elim) hops
  exact ⟨2, _, .step (next_push hc.head) (.step hend (.refl _)), _, hc.tail.tail.head, hagrees, _, rfl⟩

/-- **The code of a body is followed to a return with its value on top**, the default one if none of
its statements returns. -/
theorem follows_body (hcalls : CallsFollow p n k site call) (hops : ∀ q ∈ ops.head?, q.isBarrier)
    {turns : Nat} (hturns : n ≤ turns) {body : List Stmt} (hbody : Stmt.AllWellFormed k body)
    (hc : CodeAt p ip (Stmt.blockCode site ip body ++ site.defaultReturn))
    (h : At k site a [] ops ip s m) :
    Follows p n m ((do return (← Stmt.execAll call turns body).getD (.int 0) : Eval Value) s)
      (Returns p k site a ops) := by
  have hblock : Follows p n m (Stmt.execAll call turns body s)
      (fun r => Returns p k site a ops (r.getD (.int 0))) := by
    refine (Stmt.follows_execAll hcalls hops hturns body hbody hc.left h).onwards
      fun r s₁ m₁ h₁ => ?_
    cases r with
    | some v => exact ⟨0, m₁, .refl _, h₁⟩
    | none => exact At.defaultReturn hops hc.right h₁
  exact hblock.bind fun r s₂ m₂ h₂ => .pure h₂

end Follow

end StackScript
