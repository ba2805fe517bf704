import StackScript.Proofs.Reading.Post
import StackScript.Proofs.Reading.Scope
import StackScript.Proofs.Script.Size

/-!
# What is read as an expression

An expression that has been read is well formed where it stands, nests no deeper than allowed and
has at most as many instructions as its text has characters (`Expr.Read`, `Post.expression`). Its
operators are grouped by priority because `Expr.extend` keeps them so (`Expr.WellFormed.extend_op`).
-/

namespace StackScript

/-! ## Adding operators -/

namespace Expr

/-- An operator and an operand added at the end go below every operator that binds less tightly. -/
theorem lt_binding_extend {p : Int} (e : Expr) {op : Operator} {operand : Expr}
    (he : p < e.binding) (hop : p < op.priority) : p < (e.extend op operand).binding := by
  fun_cases Expr.extend e op operand with
  | case1 op' lhs rhs h => exact he
  | case2 op' lhs rhs h => exact hop
  | case3 e h => exact hop

/-- Operators stay grouped by priority when one is added. -/
theorem WellFormed.extend_op {k : Names} (e : Expr) {op : Operator} {operand : Expr}
    (hop : op ∈ Operator.binary) (he : e.WellFormed k) (hoperand : operand.WellFormed k)
    (htight : 30 ≤ operand.binding) : (e.extend op operand).WellFormed k := by
  have hlow := Operator.priority_lt_of_binary hop
  have hlt : op.priority < operand.binding := by omega
  fun_induction Expr.extend e op operand with
  | case1 op' lhs rhs h ih =>
    obtain ⟨hop', hl, hr, hlhs, hrhs⟩ := he
    exact ⟨hop', hl, lt_binding_extend rhs hr h, hlhs, ih hrhs⟩
  | case2 op' lhs rhs h => exact ⟨hop, Int.not_lt.mp h, hlt, he, hoperand⟩
  | case3 e h =>
    refine ⟨hop, ?_, hlt, he, hoperand⟩
    cases e with
    | binary op' lhs rhs => exact absurd rfl (h op' lhs rhs)
    | unary op' e =>
      simp only [binding, Operator.priority_of_isUnary he.1]
      omega
    | _ =>
      simp only [binding]
      omega

/-- Adds operators with their operands one after another. -/
def extendAll (e : Expr) (ops : List (Operator × Expr)) : Expr :=
  ops.foldl (fun e (op, operand) => e.extend op operand) e

theorem extendAll_cons (e : Expr) (op : Operator) (operand : Expr)
    (ops : List (Operator × Expr)) :
    e.extendAll ((op, operand) :: ops) = (e.extend op operand).extendAll ops := rfl

theorem extendAll_append (e : Expr) (ops more : List (Operator × Expr)) :
    e.extendAll (ops ++ more) = (e.extendAll ops).extendAll more := List.foldl_append

theorem depth_extend (e : Expr) (op : Operator) (operand : Expr) :
    (e.extend op operand).depth = max e.depth operand.depth := by
  fun_induction Expr.extend e op operand with
  | case1 op' lhs rhs h ih => simp only [depth, ih, Nat.max_assoc]
  | case2 op' lhs rhs h => rfl
  | case3 e h => rfl

end Expr

/-! ## Reading -/

/-- `e` was read between `r` and `r'`, on some levels. -/
structure Expr.Read (levels : Nat) (e : Expr) (r r' : Reading) : Prop where
  consumes : Reader.Consumes e.size r r'
  wellFormed : e.WellFormed r.scope.names
  depth : e.depth ≤ levels

/-- Expressions were read between `r` and `r'`, each with one more character. -/
structure Expr.AllRead (levels : Nat) (es : List Expr) (r r' : Reading) : Prop where
  consumes : Reader.Consumes (Expr.sizeAll es) r r'
  wellFormed : Expr.AllWellFormed r.scope.names es
  depth : Expr.depthAll es ≤ levels

namespace Reader

variable {r : Reading}

theorem Consumes.valid {n : Nat} {r' : Reading} (h : Consumes n r r') (hr : r.scope.Valid) :
    r'.scope.Valid := h.1 ▸ hr

/-- A reader of expressions on some levels. -/
def ReadsExpr (levels : Nat) (inner : Reader Expr) : Prop :=
  ∀ r, r.scope.Valid → Post inner r (Expr.Read levels · r)

/-- What a separated list reads after its first item: separators of one character with items
behind them, and `n` characters at the end. -/
inductive Following {α : Type} (S : α → Reading → Reading → Prop) (n : Nat) :
    List α → Reading → Reading → Prop
  | nil {r r' : Reading} : Consumes n r r' → Following S n [] r r'
  | cons {a : α} {as : List α} {r r₁ r₂ r' : Reading} :
    Consumes 1 r r₁ → S a r₁ r₂ → Following S n as r₂ r' → Following S n (a :: as) r r'

namespace Post

theorem expect (c : Char) : Post (Reader.expect c) r (fun _ r' => Consumes 1 r r') := by
  refine (symbol c).bind fun b r' h => ?_
  cases b with
  | true => exact h
  | false => exact fun _ h => by cases h

theorem name (what : String) :
    Post (Reader.name what) r (fun found r' => Consumes 1 r r' ∧ Lexeme.IsName found.1) := by
  refine skipBlanks.bind fun _ r₁ h₁ => ?_
  refine bind_get <| identifier.bind fun found r₃ h₃ => ?_
  cases found with
  | none => exact fun _ h => by cases h
  | some word =>
    show Post (if Lexeme.isKeyword word = true then _ else _) r₃ _
    split
    · exact refuseAt fun _ h => by cases h
    · rename_i hword
      exact pure ⟨h₁.trans h₃.1, ⟨h₃.2, by simpa using hword⟩⟩

/-- A list with commas, whose items keep an invariant and do not give text back. -/
theorem commaList {α : Type} {item : Reader α} {stop : Reader Bool} {comma : Reader Unit}
    {I : Reading → Prop} {S : α → Reading → Reading → Prop} {n m m' : Nat} (hm : m + m' = 1)
    (hI : ∀ {n r r'}, I r → Consumes n r r' → I r')
    (hitem : ∀ r, I r → Post item r fun a r' =>
      S a r r' ∧ I r' ∧ r'.rest.length ≤ r.rest.length)
    (hstop : ∀ r, Post stop r fun b r' => if b then Consumes n r r' else Consumes m r r')
    (hcomma : ∀ r, Post comma r fun _ r' => Consumes m' r r') (h : I r) :
    Post (Reader.commaList item stop comma) r fun as r' =>
      ∃ a rest r₁, as = a :: rest ∧ S a r r₁ ∧ I r₁ ∧ Following S n rest r₁ r' := by
  refine (hitem r h).bind fun a r₁ ⟨hS, hI₁, _⟩ => ?_
  refine (loop (I := I) (M := fun r as r' => Following S n as r r') (fun r hr => ?_) hI₁).bind
    fun as r' has => pure ⟨a, as, r₁, rfl, hS, hI₁, has⟩
  refine ite (hstop r) (fun r' hr' => pure (.nil hr')) fun r₂ h₂ => ?_
  refine (hcomma r₂).bind fun _ r₃ h₃ => ?_
  have hsep : Consumes 1 r r₃ := hm ▸ h₂.trans h₃
  refine (hitem r₃ (hI hr hsep)).bind fun a r₄ ⟨hS, hI₄, hlen⟩ => pure ⟨?_, hI₄, ?_⟩
  · have := hsep.2
    omega
  · exact fun as r'' has => .cons hsep hS has

/-- Items in parentheses, which may be none. -/
theorem parenthesised {α : Type} {item : Reader α} {I : Reading → Prop}
    {S : α → Reading → Reading → Prop} (hI : ∀ {n r r'}, I r → Consumes n r r' → I r')
    (hitem : ∀ r, I r → Post item r fun a r' =>
      S a r r' ∧ I r' ∧ r'.rest.length ≤ r.rest.length) (h : I r) :
    Post (Reader.parenthesised item) r fun as r' =>
      (as = [] ∧ Consumes 1 r r') ∨
        ∃ a rest r₀ r₁, as = a :: rest ∧ Consumes 0 r r₀ ∧ S a r₀ r₁ ∧ I r₁ ∧
          Following S 1 rest r₁ r' := by
  refine ite (symbol ')') (fun r' hr' => pure (.inl ⟨rfl, hr'⟩)) fun r₀ h₀ => ?_
  refine (commaList (by omega) hI hitem (fun r => symbol ')') (fun r => expect ',')
    (hI h h₀)).mono fun as r' ⟨a, rest, r₁, has, ha, hI₁, hrest⟩ => ?_
  exact .inr ⟨a, rest, r₀, r₁, has, h₀, ha, hI₁, hrest⟩

end Post

section Expressions

variable {levels : Nat} {inner : Reader Expr}

theorem Following.allRead {es : List Expr} {r r' : Reading}
    (h : Following (Expr.Read levels) 1 es r r') :
    Consumes (Expr.sizeAll es + 1) r r' ∧ Expr.AllWellFormed r.scope.names es ∧
      Expr.depthAll es ≤ levels := by
  induction h with
  | nil h => exact ⟨h, trivial, Nat.zero_le _⟩
  | cons hsep he _ ih =>
    obtain ⟨hrest, hwf, hdepth⟩ := ih
    rw [he.consumes.1, hsep.1] at hwf
    refine ⟨((hsep.trans he.consumes).trans hrest).weaken ?_, ⟨hsep.1 ▸ he.wellFormed, hwf⟩,
      Nat.max_le.mpr ⟨he.depth, hdepth⟩⟩
    simp only [Expr.sizeAll]
    omega

namespace Post

theorem arguments (hinner : ReadsExpr levels inner) (h : r.scope.Valid) :
    Post (Reader.parenthesised inner) r (Expr.AllRead levels · r) := by
  refine (parenthesised (I := fun r => r.scope.Valid) (S := Expr.Read levels)
    (fun hv hr => hr.valid hv) (fun r hr => (hinner r hr).mono fun e r' he => ?_) h).mono ?_
  · exact ⟨he, he.consumes.valid hr, by have := he.consumes.2; omega⟩
  · rintro as r' (⟨rfl, hr'⟩ | ⟨e, rest, r₀, r₁, rfl, h₀, he, -, hrest⟩)
    · exact ⟨hr'.weaken (Nat.zero_le _), trivial, Nat.zero_le _⟩
    · obtain ⟨hconsumes, hwf, hdepth⟩ := hrest.allRead
      rw [he.consumes.1, h₀.1] at hwf
      refine ⟨((h₀.trans he.consumes).trans hconsumes).weaken ?_, ⟨h₀.1 ▸ he.wellFormed, hwf⟩,
        Nat.max_le.mpr ⟨he.depth, hdepth⟩⟩
      simp only [Expr.sizeAll]
      omega

theorem call (hinner : ReadsExpr levels inner) (h : r.scope.Valid) (name : String)
    (place : List Char) :
    Post (Reader.call inner name place) r fun found r' =>
      r.scope.names.function? name = some (found.1, found.2.length) ∧
        Expr.AllRead levels found.2 r r' := by
  refine bind_scope ?_
  rw [Scope.function?_eq h]
  cases hf : r.scope.names.function? name with
  | none => exact refuseAt fun _ h => by cases h
  | some found =>
    obtain ⟨callee, arity⟩ := found
    refine (arguments hinner h).bind fun args r' hargs => ?_
    show Post (if args.length = arity then _ else _) r' _
    split
    · rename_i harity
      exact pure ⟨by rw [← harity], hargs⟩
    · exact refuseAt fun _ h => by cases h

theorem reference (hinner : ReadsExpr levels inner) (h : r.scope.Valid) :
    Post (Reader.reference inner) r fun e r' =>
      Expr.Read (levels + 1) e r r' ∧ e.isPrimary := by
  refine (name "operand").bind fun (found, place) r₁ ⟨h₁, _⟩ => ?_
  refine ite (symbol '(') (fun r₂ h₂ => ?_) fun r₂ h₂ => ?_
  · have h₁₂ := h₁.trans h₂
    refine (call hinner (h₁₂.valid h) found place).bind fun (callee, args) r₃ ⟨hcallee, hargs⟩ => ?_
    have hwf := hargs.wellFormed
    rw [h₁₂.1] at hcallee hwf
    refine pure ⟨⟨(h₁₂.trans hargs.consumes).weaken ?_, ⟨hcallee, hwf⟩, ?_⟩, rfl⟩
    · simp only [Expr.size]
      omega
    · exact Nat.succ_le_succ hargs.depth
  · have h₁₂ := h₁.trans h₂
    refine bind_scope ?_
    rw [Scope.place?_eq (h₁₂.valid h), h₁₂.1]
    cases hp : r.scope.names.place? found with
    | none => exact refuseAt fun _ h => by cases h
    | some p => exact pure ⟨⟨h₁₂, hp, Nat.succ_le_succ (Nat.zero_le _)⟩, rfl⟩

theorem literal {n : Nat} {r' : Reading} (h : Consumes n r r') (hn : 1 ≤ n) (v : Value) :
    Expr.Read (levels + 1) (.literal v) r r' ∧ (Expr.literal v).isPrimary :=
  ⟨⟨h.weaken hn, trivial, Nat.succ_le_succ (Nat.zero_le _)⟩, rfl⟩

theorem primary (hinner : ReadsExpr levels inner) (h : r.scope.Valid) :
    Post (Reader.primary inner) r fun e r' =>
      Expr.Read (levels + 1) e r r' ∧ e.isPrimary := by
  refine ite (symbol '(') (fun r₁ h₁ => ?_) fun r₁ h₁ => ?_
  · refine (hinner r₁ (h₁.valid h)).bind fun e r₂ he => ?_
    refine (expect ')').bind fun _ r₃ h₃ => ?_
    refine pure ⟨⟨((h₁.trans he.consumes).trans h₃).weaken ?_, h₁.1 ▸ he.wellFormed,
      Nat.succ_le_succ he.depth⟩, rfl⟩
    simp only [Expr.size]
    omega
  refine string.bind fun found r₂ h₂ => ?_
  cases found with
  | some s => exact pure (literal (h₁.trans h₂.1) (by omega) _)
  | none =>
  have h₂ := h₁.trans h₂
  refine number.bind fun found r₃ h₃ => ?_
  cases found with
  | some v => exact pure (literal (h₂.trans h₃.1) (by omega) _)
  | none =>
  have h₃ := h₂.trans h₃
  refine ite (word "true") (fun r₄ h₄ => pure (literal (h₃.trans h₄) (by decide) _)) fun r₄ h₄ => ?_
  have h₄ := h₃.trans h₄
  refine ite (word "false") (fun r₅ h₅ => pure (literal (h₄.trans h₅) (by decide) _))
    fun r₅ h₅ => ?_
  have h₅ := h₄.trans h₅
  refine (reference hinner (h₅.valid h)).mono fun e r' ⟨he, hprimary⟩ => ?_
  exact ⟨⟨(h₅.trans he.consumes).weaken (by omega), h₅.1 ▸ he.wellFormed, he.depth⟩, hprimary⟩

/-- An operand holds together more tightly than any binary operator. -/
theorem operand (hinner : ReadsExpr levels inner) (h : r.scope.Valid) :
    Post (Reader.operand inner) r fun e r' => Expr.Read (levels + 1) e r r' ∧ 30 ≤ e.binding := by
  refine unaryOperator.bind fun found r₁ h₁ => ?_
  cases found with
  | none =>
    refine (primary hinner (h₁.valid h)).mono fun e r' ⟨he, hprimary⟩ => ?_
    refine ⟨⟨(h₁.trans he.consumes).weaken (by omega), h₁.1 ▸ he.wellFormed, he.depth⟩, ?_⟩
    rw [Expr.binding_of_isPrimary hprimary]
    decide
  | some op =>
    obtain ⟨h₁, hop⟩ := h₁
    refine (primary hinner (h₁.valid h)).bind fun e r' ⟨he, hprimary⟩ => ?_
    refine pure ⟨⟨?_, ?_, he.depth⟩, ?_⟩
    · refine (h₁.trans he.consumes).weaken ?_
      simp only [Expr.size]
      omega
    · exact ⟨hop, hprimary, h₁.1 ▸ he.wellFormed⟩
    · exact Int.le_of_eq (Operator.priority_of_isUnary hop).symm

/-- `rest` was read between `r` and `r'` behind an expression: adding its operators one after
another keeps expressions well formed and no deeper than allowed, and adds what was consumed. -/
def Extends (levels : Nat) (r : Reading) (rest : List (Operator × Expr)) (r' : Reading) : Prop :=
  ∃ n, Consumes n r r' ∧ ∀ e : Expr, e.WellFormed r.scope.names → e.depth ≤ levels →
    (e.extendAll rest).WellFormed r.scope.names ∧ (e.extendAll rest).depth ≤ levels ∧
      (e.extendAll rest).size = e.size + n

theorem continuation (hinner : ReadsExpr levels inner) (h : r.scope.Valid) :
    Post (Reader.continuation inner) r
      (Turn (fun r => r.scope.Valid) (Extends (levels + 1)) r) := by
  refine binaryOperator.bind fun found r₁ h₁ => ?_
  cases found with
  | none => exact pure ⟨0, h₁, fun e he hdepth => ⟨he, hdepth, rfl⟩⟩
  | some op =>
    obtain ⟨h₁, hop⟩ := h₁
    refine (operand hinner (h₁.valid h)).bind fun operand r₂ ⟨hread, htight⟩ => ?_
    have h₂ := h₁.trans hread.consumes
    refine pure ⟨by have := h₂.2; omega, h₂.valid h, ?_⟩
    rintro rest r' ⟨n, hn, hrest⟩
    rw [h₂.1] at hrest
    refine ⟨_, h₂.trans hn, fun e he hdepth => ?_⟩
    obtain ⟨hwf, hdepth, hsize⟩ := hrest (e.extend op operand)
      (he.extend_op e hop (h₁.1 ▸ hread.wellFormed) htight)
      (by rw [Expr.depth_extend]; exact Nat.max_le.mpr ⟨hdepth, hread.depth⟩)
    refine ⟨hwf, hdepth, ?_⟩
    rw [Expr.extendAll_cons, hsize, Expr.size_extend]
    omega

theorem chain (hinner : ReadsExpr levels inner) : ReadsExpr (levels + 1) (Reader.chain inner) := by
  intro r h
  refine (operand hinner h).bind fun first r₁ ⟨hfirst, _⟩ => ?_
  have hloop := loop (fun r hr => continuation hinner hr) (hfirst.consumes.valid h)
  refine hloop.bind fun rest r' ⟨n, hn, hrest⟩ => pure ?_
  rw [hfirst.consumes.1] at hrest
  obtain ⟨hwf, hdepth, hsize⟩ := hrest first hfirst.wellFormed hfirst.depth
  exact ⟨hsize ▸ hfirst.consumes.trans hn, hwf, hdepth⟩

/-- **What is read as an expression is one, on the levels that are left.** -/
theorem expression (settings : Settings) (levels : Nat) :
    ReadsExpr levels (Reader.expression settings levels) := by
  induction levels with
  | zero => exact fun r _ => refuse fun _ h => by cases h
  | succ levels ih => exact chain ih

end Post

end Expressions

end Reader

end StackScript
