import StackScript.Proofs.Script.Checked
import StackScript.Proofs.Simulation.Statement

/-!
# Functions and scripts on the machine

Every function of a script stands in its program at its entry (`FunctionsAt`), so a call leads to
its body, and by induction on the depth of calls a machine follows every call
(`follows_evalCall`). With that a machine that starts the program of a well-formed script follows
the evaluation of the script (`Script.follows_eval`), and one that starts the program of an
expression that of the expression (`Expr.follows_program`).
-/

namespace StackScript

open Machine Activation

/-! ## Functions in place -/

/-- Every function stands at its entry, with code for the functions up to itself. -/
def FunctionsAt (p : Program) (entries : List Nat) (functions : List FunctionDef) : Prop :=
  ∀ (i : Nat) (f : FunctionDef), functions[i]? = some f →
    ∃ start, entries[i]? = some start ∧ CodeAt p start (f.code (entries.take (i + 1)) start)

namespace FunctionDef

/-- Where functions have been laid out, each stands at its entry. -/
theorem layout_codeAt {p : Program} (entries : List Nat) (start : Nat) (fs : List FunctionDef)
    (hc : CodeAt p start (layout entries start fs).2) (i : Nat) (f : FunctionDef)
    (hf : fs[i]? = some f) :
    ∃ entry, (layout entries start fs).1[entries.length + i]? = some entry ∧
      CodeAt p entry (f.code ((layout entries start fs).1.take (entries.length + i + 1)) entry) := by
  induction fs generalizing entries start i with
  | nil => cases hf
  | cons g rest ih =>
    cases i with
    | zero =>
      cases hf
      obtain ⟨more, he, -⟩ := layout_entries (entries ++ [start])
        (start + (f.code (entries ++ [start]) start).length) rest
      have htake : (entries ++ [start] ++ more).take (entries.length + 1) = entries ++ [start] :=
        List.take_left' (by simp)
      refine ⟨start, ?_, ?_⟩
      · simp [layout, he]
      · simp only [layout, he, Nat.add_zero, htake]
        exact hc.left
    | succ i =>
      have hrest := ih (entries ++ [start]) (start + (g.code (entries ++ [start]) start).length)
        hc.right i hf
      have hindex : (entries ++ [start]).length + i = entries.length + (i + 1) := by
        simp
        omega
      rw [hindex] at hrest
      exact hrest

/-- The functions of a laid out list are in place. -/
theorem functionsAt_layout {p : Program} {start : Nat} {fs : List FunctionDef}
    (hc : CodeAt p start (layout [] start fs).2) : FunctionsAt p (layout [] start fs).1 fs := by
  intro i f hf
  simpa using layout_codeAt [] start fs hc i f hf

/-- Each of some well-formed functions is well formed after the ones before it. -/
theorem AllWellFormed.getElem? {k : Names} {fs : List FunctionDef} (h : AllWellFormed k fs) {i : Nat}
    {f : FunctionDef} (hf : fs[i]? = some f) :
    f.WellFormed { k with functions := k.functions ++ (fs.take i).map signature } := by
  induction fs generalizing k i with
  | nil => cases hf
  | cons g rest ih =>
    cases i with
    | zero =>
      cases hf
      simpa using h.1
    | succ i => simpa using ih h.2 hf

end FunctionDef

/-- A name in view means the first function of that name, which has the right arity. -/
theorem Names.find?_of_function? {k : Names} {functions : List FunctionDef} {i callee arity : Nat}
    {name : String} (hk : k.functions = (functions.take i).map FunctionDef.signature)
    (h : k.function? name = some (callee, arity)) :
    ∃ f, functions[callee]? = some f ∧ callee < i ∧ f.params.length = arity ∧
      functions.find? (·.name == name) = some f := by
  obtain ⟨j, hidx, hsome⟩ := Option.bind_eq_some_iff.mp h
  obtain ⟨sig, hsig, he⟩ := Option.map_eq_some_iff.mp hsome
  obtain ⟨rfl, rfl⟩ := Prod.mk.inj he
  rw [hk, List.getElem?_map] at hsig
  obtain ⟨f, hf, rfl⟩ := Option.map_eq_some_iff.mp hsig
  obtain ⟨hj, hf⟩ : j < i ∧ functions[j]? = some f := by
    rw [List.getElem?_take] at hf
    split at hf
    · exact ⟨by assumption, hf⟩
    · cases hf
  refine ⟨f, hf, hj, rfl, ?_⟩
  obtain ⟨hlen, hname, hfirst⟩ := List.findIdx?_eq_some_iff_getElem.mp hidx
  obtain ⟨hlt, rfl⟩ := List.getElem?_eq_some_iff.mp hf
  rw [List.find?_eq_some_iff_getElem]
  simp only [hk, List.getElem_map, List.getElem_take] at hname hfirst
  exact ⟨hname, j, hlt, rfl, fun l hl => by simpa [FunctionDef.signature] using hfirst l hl⟩

/-! ## Calls -/

section Calls

variable {p : Program} {functions : List FunctionDef} {globals : List String} {entries : List Nat}

/-- An evaluation on a frame of its own is followed like the evaluation, if from its end the machine
comes back to the frame before. -/
theorem Follows.onFrame {α : Type} {n : Nat} {m : Machine} {frame : Bindings} {x : Eval α} {s : Store}
    {Q R : α → Store → Machine → Prop} (h : Follows p n m (x { s with frame }) Q)
    (hQ : ∀ v s' m', Q v s' m' → ∃ i m'', Steps p i m' m'' ∧ R v { s' with frame := s.frame } m'') :
    Follows p n m (Eval.onFrame frame x s) R := by
  unfold Eval.onFrame
  match x { s with frame }, h with
  | none, h => exact h
  | some (.ok v, s'), ⟨i, m', hs, hq⟩ =>
    obtain ⟨j, m'', hs', hr⟩ := hQ v s' m' hq
    exact ⟨i + j, m'', hs.trans hs', hr⟩
  | some (.error c, s'), h => exact h

/-- Where a function is entered, its parameters are in view with the arguments as values. -/
theorem Agrees.enter {k : Names} {f : FunctionDef} {entries : List Nat} {under : List Cell}
    {args : List Value} {ret base : Nat} {calls : Array String} {s : Store}
    (hg : s.globals.names = k.globals) (harity : f.params.length = args.length) :
    Agrees (f.names k) (f.site entries) (.call under args.length ret base calls)
      { s with frame := f.params.zip args } :=
  ⟨hg, Bindings.names_zip (by omega), rfl, harity.symm, Nat.le_of_eq harity.symm⟩

/-- The body of a function is followed from its entry to a return. -/
theorem FunctionDef.follows_evalBody {n turns : Nat} (hturns : n ≤ turns) {k : Names}
    {f : FunctionDef} {entries : List Nat} {call : String → List Value → Eval Value}
    (hcalls : CallsFollow p n (f.names k) (f.site entries) call) (hf : f.WellFormed k)
    {start : Nat} (hc : CodeAt p start (f.code entries start)) {a : Activation} {ops : List Operator}
    (hops : ∀ q ∈ ops.head?, q.isBarrier) {s : Store} {m : Machine}
    (h : At (f.names k) (f.site entries) a [] ops start s m) :
    Follows p n m (f.evalBody call turns s)
      (Returns p ((f.names k).declare (f.decls.map (·.name))) (f.site entries) a ops) := by
  unfold FunctionDef.code at hc
  rw [List.append_assoc] at hc
  refine (Decl.follows_execLocals hcalls hops rfl f.decls hf.1 hc.left h).bind fun _ s₁ m₁ h₁ => ?_
  exact follows_body (hcalls.declare _) hops hturns hf.2 hc.right h₁

/-- **Calls are followed**, nested as deeply as the evaluation allows. -/
theorem follows_evalCall (hwf : FunctionDef.AllWellFormed (.top globals []) functions)
    (hat : FunctionsAt p entries functions) {turns : Nat} (depth : Nat) (hdepth : depth ≤ turns)
    {k : Names} {site : Site} {i : Nat} (hglobals : k.globals = globals)
    (hfunctions : k.functions = (functions.take i).map FunctionDef.signature)
    (hentries : site.entries = entries.take i) :
    CallsFollow p depth k site (FunctionDef.evalCall functions turns depth) := by
  induction depth generalizing k site i with
  | zero => exact fun _ _ _ _ _ _ _ _ _ _ _ _ => ⟨_, .refl _⟩
  | succ depth ih =>
    intro name callee args hfunction a s temps ops ip t hg hi
    obtain ⟨f, hf, hcallee, harity, hfind⟩ := k.find?_of_function? hfunctions hfunction
    obtain ⟨start, hstart, hc⟩ := hat callee f hf
    have hentry : site.entry callee = start := by
      simp [Site.entry, hentries, hcallee, hstart]
    rw [hentry] at hi
    -- the names and the entries in view in the body of the callee: its own are the last
    have hbody := hwf.getElem? hf
    have htake : [] ++ (functions.take callee).map FunctionDef.signature ++ [f.signature] =
        (functions.take (callee + 1)).map FunctionDef.signature := by
      simp [List.take_add_one, hf]
    have hcalls : CallsFollow p depth (f.names ⟨globals, _, none⟩)
        (f.site (entries.take (callee + 1))) (FunctionDef.evalCall functions turns depth) :=
      ih (Nat.le_of_succ_le hdepth) rfl htake rfl
    unfold FunctionDef.evalCall
    rw [hfind]
    refine Follows.tick (next_call hi (Bindings.values_zip (by omega))) (Follows.onFrame
      (FunctionDef.follows_evalBody (Nat.le_of_succ_le hdepth) hcalls hbody hc
        (fun q hq => by cases hq; rfl) ⟨Agrees.enter (hg.trans hglobals) harity, _, rfl⟩)
      fun v s' m' hret => ?_)
    obtain ⟨ip', hi', hagrees, t', rfl⟩ := hret
    have hlen : s'.frame.length = args.length + f.decls.length := by
      rw [← Bindings.length_names, hagrees.frame, Names.frameNames_declare rfl]
      simp [Names.frameNames, FunctionDef.names, harity]
    have hret : p.code.get? ip' = some (.ret args.length f.decls.length) := harity ▸ hi'
    exact ⟨1, _, .step (next_ret hret hlen) (.refl _),
      hagrees.globals.trans (hg.trans hglobals).symm, rfl, _, rfl⟩

end Calls

/-! ## Scripts -/

namespace Script

variable {s : Script}

theorem names_store (s : Script) : s.store.globals.names = s.globals := by
  simp [store, Bindings.names, Function.comp_def]

/-- A machine that starts the program of a script holds its store. -/
theorem start_program (s : Script) (m : Machine) :
    m.start s.program = Activation.top.machine s.store [] [] 0 0 := by
  have hvalues : s.store.globals.values = List.replicate s.globals.length .undefined := by
    simp [store, Bindings.values, Function.comp_def, List.map_const']
  simp [Machine.start, Machine.reset, Machine.idle, machine, Activation.stack, cells,
    Activation.base, Activation.calls, hvalues, program]

/-- The names in view behind the functions of a script. -/
def names (s : Script) : Names := .top s.globals (s.functions.map (·.signature))

theorem codeAt_program (s : Script) :
    CodeAt s.program 0 (Decl.listCode (.top []) s.decls ++ .jump s.mainStart ::
      (s.bodies ++ s.mainCode)) := .ofList

/-- **A machine that starts the program of a well-formed script follows the evaluation of the
script** to the return that ends the program. -/
theorem follows_evalBody (h : s.WellFormed) (fuel : Nat) (m : Machine) :
    Follows s.program fuel (m.start s.program)
      (s.evalBody (FunctionDef.evalCall s.functions fuel fuel) fuel s.store)
      (Returns s.program s.names s.site .top []) := by
  have hc := s.codeAt_program
  have hrest : CodeAt s.program s.bodiesStart (s.bodies ++ s.mainCode) := by
    simpa [bodiesStart] using hc.right.tail
  have hmain : CodeAt s.program s.mainStart s.mainCode := hrest.right
  rw [mainCode, List.append_assoc] at hmain
  have hat : FunctionsAt s.program s.entries s.functions :=
    FunctionDef.functionsAt_layout hrest.left
  -- no function is in view in the first declarations, all are behind the functions
  have hfirst : CallsFollow s.program fuel (.top s.globals []) (.top [])
      (FunctionDef.evalCall s.functions fuel fuel) :=
    follows_evalCall (i := 0) h.functions hat fuel (Nat.le_refl _) rfl rfl rfl
  have hcalls : CallsFollow s.program fuel s.names s.site
      (FunctionDef.evalCall s.functions fuel fuel) :=
    follows_evalCall (i := s.functions.length) h.functions hat fuel (Nat.le_refl _) rfl
      (by simp [names, Names.top]) (by simp [site, Site.top, ← s.length_entries])
  have hops : ∀ q ∈ ([] : List Operator).head?, q.isBarrier := fun q hq => by cases hq
  have hstart : At (.top s.globals []) (.top []) .top [] [] 0 s.store (m.start s.program) :=
    ⟨⟨s.names_store, rfl, rfl⟩, 0, s.start_program m⟩
  refine (Decl.follows_execGlobals hfirst hops rfl s.decls h.decls hc.left hstart).bind
    fun _ s₁ m₁ h₁ => ?_
  obtain ⟨m₂, hjump, hagrees, h₂⟩ := h₁.jump hc.right.head
  refine .next hjump ?_
  have hnames : At s.names s.site .top [] [] s.mainStart s₁ m₂ :=
    ⟨⟨hagrees.globals, hagrees.frame, rfl⟩, h₂⟩
  refine (Decl.follows_execGlobals hcalls hops rfl s.lateDecls h.lateDecls hmain.left hnames).bind
    fun _ s₃ m₃ h₃ => ?_
  exact follows_body hcalls hops (Nat.le_refl _) h.body hmain.right h₃

end Script

/-- **A machine that starts the program of a well-formed expression follows its evaluation** to the
return that ends the program. No function is in view, so it does not matter what calls give. -/
theorem Expr.follows_program {e : Expr} (h : e.WellFormed (.top [] []))
    (call : String → List Value → Eval Value) (n : Nat) (m : Machine) :
    Follows e.program n (m.start e.program) (e.eval call ⟨[], []⟩)
      (Returns e.program (.top [] []) (.top []) .top []) := by
  have hc : CodeAt e.program 0 (e.closedCode (.top []) ++ [.ret 0 0]) := .ofList
  have hcalls : CallsFollow e.program n (.top [] []) (.top []) call := fun name callee args hf =>
    (Nat.not_lt_zero _ (Names.callee_lt_of_function? hf)).elim
  have hstart : At (.top [] []) (.top []) .top [] [] 0 ⟨[], []⟩ (m.start e.program) :=
    ⟨⟨rfl, rfl, rfl⟩, 0, rfl⟩
  exact (Expr.follows_closed hcalls h hc.left (fun q hq => by cases hq) hstart).mono
    fun v s' m' h' => ⟨_, hc.right.head, h'⟩

end StackScript
