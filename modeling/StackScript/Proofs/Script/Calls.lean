import StackScript.Proofs.Script.Shapes

/-!
# Calls in generated code

Every `prepareCall` in the code of a script begins a call: its arguments follow, and then the call
that belongs to it, which is found by counting (`matchingCall?`). What lies between is a region of
its own (`CallCode.sound_region`) that ends behind the call and not before
(`CallCode.ops_ne_nil`).
-/

namespace StackScript

open Shape

/-- Whether an instruction opens or closes a call. -/
def Instr.isCallMark : Instr → Bool
  | .operator .prepareCall | .call _ => true
  | _ => false

/-- The index of the call that closes what was opened before the code, where `depth` more calls are
open. -/
def matchingCall? : (depth : Nat) → List Instr → Option Nat
  | _, [] => none
  | depth, .operator .prepareCall :: rest => (matchingCall? (depth + 1) rest).map (· + 1)
  | 0, .call _ :: _ => some 0
  | depth + 1, .call _ :: rest => (matchingCall? depth rest).map (· + 1)
  | depth, _ :: rest => (matchingCall? depth rest).map (· + 1)

theorem matchingCall?_cons {i : Instr} (hi : i.isCallMark = false) (depth : Nat)
    (rest : List Instr) :
    matchingCall? depth (i :: rest) = (matchingCall? depth rest).map (· + 1) := by
  cases i with
  | operator op =>
    cases op with
    | prepareCall => cases hi
    | _ => simp [matchingCall?]
  | call target => cases hi
  | _ => simp [matchingCall?]

/-- Code in which every call that is opened is closed. -/
def Balanced (code : List Instr) : Prop :=
  ∀ depth rest, matchingCall? depth (code ++ rest) = (matchingCall? depth rest).map (· + code.length)

namespace Balanced

variable {c₁ c₂ : List Instr}

theorem nil : Balanced [] := fun depth rest => by simp

theorem single {i : Instr} (hi : i.isCallMark = false) : Balanced [i] := matchingCall?_cons hi

theorem append (h₁ : Balanced c₁) (h₂ : Balanced c₂) : Balanced (c₁ ++ c₂) := by
  intro depth rest
  rw [List.append_assoc, h₁, h₂, Option.map_map, List.length_append]
  refine congrArg (Option.map · _) (funext fun n => ?_)
  show n + c₂.length + c₁.length = _
  omega

theorem call (h : Balanced c₁) (target : Nat) :
    Balanced (.operator .prepareCall :: (c₁ ++ [.call target])) := by
  intro depth rest
  have hopen : matchingCall? depth (.operator .prepareCall :: (c₁ ++ [.call target]) ++ rest) =
      (matchingCall? (depth + 1) (c₁ ++ .call target :: rest)).map (· + 1) := by
    rw [List.cons_append, List.append_assoc, List.singleton_append, matchingCall?]
  rw [hopen, h, matchingCall?, Option.map_map, Option.map_map]
  refine congrArg (Option.map · _) (funext fun n => ?_)
  simp
  omega

end Balanced

/-- The code of a call, which leaves one value more and no operator. -/
def CallCode (arity : Nat → Option Nat) (code : List Instr) : Prop :=
  ∃ args target, code = .operator .prepareCall :: (args ++ [.call target]) ∧
    Shape.zero.scan? arity .call code = some ⟨0, 1, []⟩ ∧ Balanced args

/-- Every call that is opened in a piece of code is one of it. -/
def CallsIn (arity : Nat → Option Nat) (code : List Instr) : Prop :=
  ∀ j, code[j]? = some (.operator .prepareCall) →
    ∃ call rest, code.drop j = call ++ rest ∧ CallCode arity call

/-- Code whose calls are complete. -/
structure Nested (arity : Nat → Option Nat) (code : List Instr) : Prop where
  balanced : Balanced code
  calls : CallsIn arity code

section Pieces

variable {arity : Nat → Option Nat} {c₁ c₂ : List Instr} {i : Instr}

theorem CallsIn.append (h₁ : CallsIn arity c₁) (h₂ : CallsIn arity c₂) :
    CallsIn arity (c₁ ++ c₂) := by
  intro j hj
  rw [List.getElem?_append] at hj
  split at hj
  · rename_i hlt
    obtain ⟨call, rest, hdrop, hcall⟩ := h₁ j hj
    refine ⟨call, rest ++ c₂, ?_, hcall⟩
    rw [List.drop_append_of_le_length (Nat.le_of_lt hlt), hdrop, List.append_assoc]
  · rename_i hge
    obtain ⟨call, rest, hdrop, hcall⟩ := h₂ _ hj
    refine ⟨call, rest, ?_, hcall⟩
    rw [List.drop_append, List.drop_eq_nil_of_le (Nat.not_lt.mp hge), List.nil_append, hdrop]

theorem CallsIn.single (hi : i ≠ .operator .prepareCall) : CallsIn arity [i] := by
  intro j hj
  cases j with
  | zero => exact absurd (Option.some.inj hj) hi
  | succ j => cases hj

namespace Nested

theorem nil : Nested arity [] := ⟨.nil, fun _ hj => by cases hj⟩

theorem single (hi : i.isCallMark = false) : Nested arity [i] :=
  ⟨.single hi, .single fun h => by rw [h] at hi; cases hi⟩

theorem append (h₁ : Nested arity c₁) (h₂ : Nested arity c₂) : Nested arity (c₁ ++ c₂) :=
  ⟨h₁.balanced.append h₂.balanced, h₁.calls.append h₂.calls⟩

theorem cons (hi : i.isCallMark = false) (h : Nested arity c₁) : Nested arity (i :: c₁) :=
  (single hi).append h

theorem call {target : Nat} (h : Nested arity c₁)
    (hscan : Shape.zero.scan? arity .call (.operator .prepareCall :: (c₁ ++ [.call target])) =
      some ⟨0, 1, []⟩) :
    Nested arity (.operator .prepareCall :: (c₁ ++ [.call target])) where
  balanced := h.balanced.call target
  calls := by
    intro j hj
    cases j with
    | zero => exact ⟨_, [], (List.append_nil _).symm, c₁, target, rfl, hscan, h.balanced⟩
    | succ j =>
      have hrest : CallsIn arity (c₁ ++ [.call target]) := h.calls.append (.single nofun)
      exact hrest j hj

end Nested

end Pieces

section Scripts

variable {arity : Nat → Option Nat} {k : Names} {site : Site}

mutual

/-- The calls in the code of an expression are complete. -/
theorem Expr.nested_code (hknows : Knows arity k site) (e : Expr) (he : e.WellFormed k) :
    Nested arity (e.code site) := by
  match e with
  | .literal v => exact .single rfl
  | .var name place => exact .single (by cases place <;> rfl)
  | .group e => exact .cons rfl ((Expr.nested_code hknows e he).append (.single rfl))
  | .call name callee args =>
    exact .call (Expr.nested_args hknows args he.2) (Expr.scan_call hknows he 0 0 [])
  | .unary op e =>
    refine .cons ?_ (Expr.nested_code hknows e he.2.2)
    cases op with
    | prepareCall => cases he.1
    | _ => rfl
  | .binary op lhs rhs =>
    obtain ⟨hop, -, -, hl, hr⟩ := he
    refine (Expr.nested_code hknows lhs hl).append (.cons ?_ (Expr.nested_code hknows rhs hr))
    cases op with
    | prepareCall => exact absurd hop (by decide)
    | _ => rfl

theorem Expr.nested_args (hknows : Knows arity k site) (args : List Expr)
    (he : Expr.AllWellFormed k args) : Nested arity (Expr.argsCode site args) := by
  match args with
  | [] => exact .nil
  | e :: rest =>
    exact (Expr.nested_code hknows e he.1).append (.cons rfl (Expr.nested_args hknows rest he.2))

end

theorem Expr.nested_closedCode (hknows : Knows arity k site) {e : Expr} (he : e.WellFormed k) :
    Nested arity (e.closedCode site) :=
  (Expr.nested_code hknows e he).append (.single rfl)

theorem Place.isCallMark_store (place : Place) : (place.store site).isCallMark = false := by
  cases place <;> rfl

mutual

theorem Stmt.nested_code (hknows : Knows arity k site) (start : Nat) (st : Stmt)
    (hst : st.WellFormed k) : Nested arity (st.code site start) := by
  match st with
  | .assign name place e =>
    exact (Expr.nested_closedCode hknows hst.2).append (.single place.isCallMark_store)
  | .call name callee args => exact (Expr.nested_code hknows _ hst).append (.single rfl)
  | .ret none => exact .cons rfl (.single rfl)
  | .ret (some e) => exact (Expr.nested_closedCode hknows hst).append (.single rfl)
  | .ifThen test body =>
    exact (Expr.nested_closedCode hknows hst.1).append
      (.cons rfl (Stmt.nested_block hknows _ body hst.2))
  | .ifElse test body other =>
    obtain ⟨htest, hb, ho⟩ := hst
    exact (Expr.nested_closedCode hknows htest).append (.cons rfl
      ((Stmt.nested_block hknows _ body hb).append (.cons rfl (Stmt.nested_block hknows _ other ho))))
  | .whileDo test body =>
    exact (Expr.nested_closedCode hknows hst.1).append
      (.cons rfl ((Stmt.nested_block hknows _ body hst.2).append (.single rfl)))

theorem Stmt.nested_block (hknows : Knows arity k site) (start : Nat) (body : List Stmt)
    (hbody : Stmt.AllWellFormed k body) : Nested arity (Stmt.blockCode site start body) := by
  match body with
  | [] => exact .nil
  | st :: rest =>
    exact (Stmt.nested_code hknows start st hbody.1).append (Stmt.nested_block hknows _ rest hbody.2)

end

theorem Decl.nested_listCode (hknows : Knows arity k site) (decls : List Decl)
    (hd : Decl.AllWellFormed k decls) : Nested arity (Decl.listCode site decls) := by
  induction decls generalizing k with
  | nil => exact .nil
  | cons d rest ih =>
    obtain ⟨-, hinit, hrest⟩ := hd
    have hroom : Nested arity d.place.room := by
      cases d.place with
      | global slot => exact .nil
      | frame i => exact .single rfl
    have hcode : Nested arity (d.initCode site) := by
      unfold Decl.initCode
      split
      · exact .nil
      · rename_i e he
        exact (Expr.nested_closedCode (hknows.declare [d.name]) (hinit e he)).append
          (.single d.place.isCallMark_store)
    exact (hroom.append hcode).append (ih (hknows.declare [d.name]) hrest)

theorem Site.nested_defaultReturn : Nested arity site.defaultReturn :=
  .cons rfl (.cons rfl (.single rfl))

theorem FunctionDef.nested_code {f : FunctionDef} {entries : List Nat}
    (hknows : Knows arity (f.names k) (f.site entries)) (hf : f.WellFormed k) (start : Nat) :
    Nested arity (f.code entries start) :=
  ((Decl.nested_listCode hknows f.decls hf.1).append
    (Stmt.nested_block (hknows.declare _) _ f.body hf.2)).append Site.nested_defaultReturn

end Scripts

/-! ## The region of a call -/

section Region

variable {arity : Nat → Option Nat} {X Y : Shape} {code : List Instr} {i : Instr}

/-- The calls that are open in a shape. -/
def Shape.openCalls (X : Shape) : Nat := X.ops.count .prepareCall

theorem Shape.ops_ne_nil_of_openCalls (h : 0 < X.openCalls) : X.ops ≠ [] := fun hnil => by
  rw [openCalls, hnil] at h
  exact Nat.lt_irrefl 0 h

/-- Operators that are applied open no call. -/
theorem count_dropWhile {test : Operator → Bool} (htest : test .prepareCall = false)
    (ops : List Operator) :
    (ops.dropWhile test).count .prepareCall = ops.count .prepareCall := by
  induction ops with
  | nil => rfl
  | cons q rest ih =>
    rw [List.dropWhile_cons]
    split
    · rename_i hq
      have hne : q ≠ .prepareCall := fun h => by
        rw [h, htest] at hq
        cases hq
      rw [ih, List.count_cons_of_ne hne]
    · rfl

theorem Shape.openCalls_of_settle? {op : Operator} (h : X.settle? .call op = some Y) :
    Y.openCalls = X.openCalls := by
  obtain ⟨-, h⟩ := Option.ite_none_left_eq_some.mp h
  rw [openCalls, ops_of_reduce? h]
  exact count_dropWhile rfl X.ops

theorem Shape.openCalls_of_closeGroup? (h : X.closeGroup? = some Y) :
    Y.openCalls = X.openCalls := by
  unfold closeGroup? at h
  split at h
  · rename_i rest hdrop
    have hcount : (X.ops.dropWhile (!·.isBarrier)).count .prepareCall = X.openCalls :=
      count_dropWhile rfl X.ops
    rw [← hcount, hdrop, openCalls, ops_of_reduce? h]
    rfl
  · cases h

/-- A call closes one of the open ones. -/
theorem Shape.openCalls_of_call? {target : Nat} (h : X.call? arity target = some Y) :
    X.openCalls = Y.openCalls + 1 := by
  unfold call? at h
  split at h
  · rename_i rest n hops hn
    obtain ⟨-, h⟩ := Option.ite_none_right_eq_some.mp h
    rw [← Option.some.inj h, openCalls, hops]
    exact List.count_cons_self
  · cases h

/-- Only `prepareCall` and calls change how many calls are open. -/
theorem Shape.openCalls_of_next? (hi : i.isCallMark = false)
    (h : X.next? arity .call i = some Y) : Y.openCalls = X.openCalls := by
  have hdrop (h : X.drop? = some Y) : Y.openCalls = X.openCalls := by rw [drop?_eq_some h]; rfl
  cases i with
  | push v | getGlobal slot | getLocal offset =>
    cases h
    rfl
  | setGlobal slot | pop => exact hdrop h
  | setLocal offset | declareLocal | jump target | jumpIfFalse target | ret params locals =>
    cases h
  | call target => cases hi
  | operator op =>
    have hbinary (hop : op ≠ .prepareCall)
        (h : (X.settle? .call op).map (fun Z => { Z with ops := op :: Z.ops }) = some Y) :
        Y.openCalls = X.openCalls := by
      obtain ⟨Z, hZ, rfl⟩ := Option.map_eq_some_iff.mp h
      rw [← openCalls_of_settle? hZ]
      exact List.count_cons_of_ne hop
    cases op with
    | prepareCall => cases hi
    | openParen | not | neg | pos =>
      cases h
      rfl
    | closeParen => exact openCalls_of_closeGroup? h
    | endOfExpression => exact openCalls_of_settle? h
    | _ => exact hbinary nofun h

/-- **Up to the call that belongs to the first of the open ones, one is open.** -/
theorem Shape.ops_ne_nil_of_matchingCall? {depth n j : Nat} (hX : X.openCalls = depth + 1)
    (hn : matchingCall? depth code = some n) (hj : j ≤ n)
    (hY : X.scan? arity .call (code.take j) = some Y) : Y.ops ≠ [] := by
  induction code generalizing X depth n j with
  | nil => cases hn
  | cons i rest ih =>
    cases j with
    | zero =>
      cases hY
      exact ops_ne_nil_of_openCalls (by omega)
    | succ j =>
      rw [List.take_succ_cons, scan?_cons] at hY
      obtain ⟨Z, hZ, hrest⟩ := Option.bind_eq_some_iff.mp hY
      have hstep (d : Nat) (hd : Z.openCalls = d + 1)
          (hn : (matchingCall? d rest).map (· + 1) = some n) : Y.ops ≠ [] := by
        obtain ⟨n', hn', rfl⟩ := Option.map_eq_some_iff.mp hn
        exact ih hd hn' (Nat.le_of_succ_le_succ hj) hrest
      by_cases hi : i.isCallMark = false
      · rw [matchingCall?_cons hi] at hn
        exact hstep depth ((openCalls_of_next? hi hZ).trans hX) hn
      · unfold Instr.isCallMark at hi
        split at hi
        · cases hZ
          refine hstep (depth + 1) ?_ hn
          rw [← hX]
          exact List.count_cons_self
        · -- the call is not the one that is looked for, which comes later
          have hclosed := openCalls_of_call? hZ
          cases depth with
          | zero =>
            cases hn
            cases hj
          | succ depth => exact hstep depth (by omega) hn
        · exact absurd rfl hi

/-- The region of a call that starts at an index: behind its `prepareCall` up to behind its call. -/
def Region.ofCall (arity : Nat → Option Nat) (start : Nat) (code : List Instr) : Region where
  body := .call
  shapes i X := ∃ j, 0 < j ∧ j ≤ code.length ∧ i = start + j ∧
    Shape.zero.scan? arity .call (code.take j) = some X

namespace CallCode

/-- The call that closes a piece of code is the last instruction of it. -/
theorem matchingCall? (h : CallCode arity code) (rest : List Instr) :
    StackScript.matchingCall? 0 ((code ++ rest).drop 1) = some (code.length - 2) := by
  obtain ⟨args, target, rfl, -, hargs⟩ := h
  show StackScript.matchingCall? 0 (args ++ [.call target] ++ rest) = _
  rw [List.append_assoc, hargs]
  simp [StackScript.matchingCall?]

theorem scan (h : CallCode arity code) : Shape.zero.scan? arity .call code = some ⟨0, 1, []⟩ := by
  obtain ⟨args, target, -, hscan, -⟩ := h
  exact hscan

/-- A call consists of a first instruction, some arguments and a last one. -/
theorem ends (h : CallCode arity code) :
    2 ≤ code.length ∧ ∃ target, code[code.length - 1]? = some (.call target) := by
  obtain ⟨args, target, rfl, -⟩ := h
  exact ⟨by simp, target, by simp⟩

/-- A call has not ended before its last instruction. -/
theorem ops_ne_nil (h : CallCode arity code) {j : Nat} (hpos : 0 < j) (hj : j < code.length)
    (hX : Shape.zero.scan? arity .call (code.take j) = some X) : X.ops ≠ [] := by
  have hclose := h.matchingCall? []
  obtain ⟨args, target, rfl, -, -⟩ := h
  obtain ⟨j, rfl⟩ : ∃ i, j = i + 1 := ⟨j - 1, by omega⟩
  rw [List.take_succ_cons, scan?_cons] at hX
  rw [List.append_nil] at hclose
  refine Shape.ops_ne_nil_of_matchingCall? (X := ⟨0, 0, [.prepareCall]⟩) rfl hclose ?_ hX
  simp at hj ⊢
  omega

/-- Where no operator of a call waits any more, the call has ended. -/
theorem at_end (h : CallCode arity code) {start index : Nat}
    (hX : (Region.ofCall arity start code).shapes index X) (hnil : X.ops = []) :
    index = start + code.length ∧ X = ⟨0, 1, []⟩ := by
  obtain ⟨j, hpos, hj, rfl, hscan⟩ := hX
  obtain rfl : j = code.length :=
    Nat.le_antisymm hj (Nat.not_lt.mp fun hlt => h.ops_ne_nil hpos hlt hscan hnil)
  rw [List.take_length, h.scan] at hscan
  exact ⟨rfl, (Option.some.inj hscan).symm⟩

theorem sound_region (h : CallCode arity code) {p : Program} {start : Nat}
    (hc : CodeAt p start code) : (Region.ofCall arity start code).Sound p arity := by
  have hscan := h.scan
  rintro _ X ⟨j, hpos, hj, rfl, hX⟩ hops
  have hlt : j < code.length := by
    refine Nat.lt_of_le_of_ne hj fun heq => hops rfl ?_
    rw [heq, List.take_length, hscan] at hX
    rw [← Option.some.inj hX]
  have hi := List.getElem?_eq_getElem hlt
  obtain ⟨Z, hnext, hZ⟩ := next?_of_scan?_take hscan hi hX
  refine ⟨code[j], Z, hc j _ hi, hnext, fun _ _ => ⟨j + 1, Nat.succ_pos j, hlt, rfl, hZ⟩, ?_⟩
  intro target ht
  rw [no_jump_of_scan? hscan _ (List.getElem_mem hlt)] at ht
  cases ht

end CallCode

end Region

end StackScript
