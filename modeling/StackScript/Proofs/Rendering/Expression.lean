import StackScript.Proofs.Reading.Expression
import StackScript.Proofs.Rendering.Spelling
import StackScript.Proofs.Rendering.Yields

/-!
# Reading expressions from their tokens

Every well-formed expression is read from each of its spellings, if something follows that ends an
expression (`Yields.expression`). Operators are read in written order. `Expr.first` and `Expr.rest`
take a tree apart in that order, and because its operators are grouped by priority, adding them
again one by one gives the tree back (`Expr.extendAll_rest`).
-/

namespace StackScript

open Lexeme

/-! ## Operands in written order -/

namespace Expr

/-- The operand that is written first. -/
def first : Expr → Expr
  | .binary _ lhs _ => lhs.first
  | e => e

/-- The operators in written order, each with the operand behind it. -/
def rest : Expr → List (Operator × Expr)
  | .binary op lhs rhs => lhs.rest ++ (op, rhs.first) :: rhs.rest
  | _ => []

/-- Whether an expression is an operand: its outermost operator is no binary one. -/
def isOperand : Expr → Bool
  | .binary _ _ _ => false
  | _ => true

variable {k : Names}

/-- The outermost operator binds least tightly. -/
theorem binding_le_of_mem_rest (e : Expr) (h : e.WellFormed k) :
    ∀ p ∈ e.rest, e.binding ≤ p.1.priority := by
  intro p hp
  match e with
  | .binary op lhs rhs =>
    obtain ⟨-, hlhs, hrhs, hl, hr⟩ := h
    rcases List.mem_append.mp hp with hp | hp
    · exact Int.le_trans hlhs (binding_le_of_mem_rest lhs hl p hp)
    · rcases List.mem_cons.mp hp with rfl | hp
      · exact Int.le_refl _
      · exact Int.le_trans (Int.le_of_lt hrhs) (binding_le_of_mem_rest rhs hr p hp)
  | .literal _ | .var _ _ | .group _ | .call _ _ _ | .unary _ _ => cases hp

/-- An operator that binds no more tightly goes on top. -/
theorem extend_of_le_binding {e operand : Expr} {op : Operator} (h : op.priority ≤ e.binding) :
    e.extend op operand = .binary op e operand := by
  cases e with
  | binary op' lhs rhs => exact if_neg (Int.not_lt.mpr h)
  | _ => rfl

/-- Operators that bind more tightly go to the right operand. -/
theorem extendAll_of_lt {op : Operator} (lhs rhs : Expr) (ops : List (Operator × Expr))
    (h : ∀ p ∈ ops, op.priority < p.1.priority) :
    (Expr.binary op lhs rhs).extendAll ops = .binary op lhs (rhs.extendAll ops) := by
  induction ops generalizing rhs with
  | nil => rfl
  | cons p ops ih =>
    obtain ⟨op', operand⟩ := p
    have hlt : op.priority < op'.priority := h _ List.mem_cons_self
    have hextend : (Expr.binary op lhs rhs).extend op' operand =
        .binary op lhs (rhs.extend op' operand) := if_pos hlt
    rw [extendAll_cons, extendAll_cons, hextend]
    exact ih _ fun p hp => h p (List.mem_cons_of_mem _ hp)

/-- **Adding the operators of an expression in written order gives the expression.** -/
theorem extendAll_rest (e : Expr) (h : e.WellFormed k) : e.first.extendAll e.rest = e := by
  match e with
  | .binary op lhs rhs =>
    obtain ⟨-, hlhs, hrhs, hl, hr⟩ := h
    have hmore : ∀ p ∈ rhs.rest, op.priority < p.1.priority := fun p hp =>
      Int.lt_of_lt_of_le hrhs (binding_le_of_mem_rest rhs hr p hp)
    calc (Expr.binary op lhs rhs).first.extendAll (Expr.binary op lhs rhs).rest
      _ = (lhs.first.extendAll lhs.rest).extendAll ((op, rhs.first) :: rhs.rest) :=
        extendAll_append _ _ _
      _ = (lhs.extend op rhs.first).extendAll rhs.rest := by
        rw [extendAll_rest lhs hl, extendAll_cons]
      _ = .binary op lhs (rhs.first.extendAll rhs.rest) := by
        rw [extend_of_le_binding hlhs, extendAll_of_lt lhs rhs.first rhs.rest hmore]
      _ = .binary op lhs rhs := by rw [extendAll_rest rhs hr]
  | .literal _ | .var _ _ | .group _ | .call _ _ _ | .unary _ _ => rfl

/-- Operators with their operands as they are written behind an expression. -/
inductive RestSpelled (k : Names) (levels : Nat) : List (Operator × Expr) → List Token → Prop
  | nil : RestSpelled k levels [] []
  | cons {op : Operator} {e : Expr} {more : List (Operator × Expr)} {xs ys : List Token}
      (hop : op ∈ Operator.binary) (he : e.isOperand) (hwf : e.WellFormed k)
      (hdepth : e.depth ≤ levels) (hspelled : e.Spelled xs) (hmore : RestSpelled k levels more ys) :
      RestSpelled k levels ((op, e) :: more) (.operator op :: (xs ++ ys))

theorem RestSpelled.append {levels : Nat} {ops more : List (Operator × Expr)} {xs ys : List Token}
    (h : RestSpelled k levels ops xs) (h' : RestSpelled k levels more ys) :
    RestSpelled k levels (ops ++ more) (xs ++ ys) := by
  induction h with
  | nil => exact h'
  | cons hop he hwf hdepth hspelled _ ih =>
    rw [List.cons_append, List.cons_append, List.append_assoc]
    exact .cons hop he hwf hdepth hspelled ih

/-- An expression is written as its first operand with the others behind it. -/
theorem Spelled.split {levels : Nat} (e : Expr) {ts : List Token} (h : e.Spelled ts)
    (hwf : e.WellFormed k) (hdepth : e.depth ≤ levels) :
    ∃ xs ys, e.first.Spelled xs ∧ e.first.isOperand ∧ e.first.WellFormed k ∧
      e.first.depth ≤ levels ∧ RestSpelled k levels e.rest ys ∧ ts = xs ++ ys := by
  match e with
  | .binary op lhs rhs =>
    obtain ⟨hop, -, -, hl, hr⟩ := hwf
    obtain ⟨ls, rs, hls, hrs, rfl⟩ := h
    obtain ⟨hld, hrd⟩ := Nat.max_le.mp hdepth
    obtain ⟨xs, ys, hfirst, hoperand, hwf, hd, hrest, rfl⟩ := Spelled.split lhs hls hl hld
    obtain ⟨us, vs, hfirst', hoperand', hwf', hd', hrest', rfl⟩ := Spelled.split rhs hrs hr hrd
    refine ⟨xs, _, hfirst, hoperand, hwf, hd,
      hrest.append (.cons hop hoperand' hwf' hd' hfirst' hrest'), ?_⟩
    rw [List.append_assoc]
  | .literal _ | .var _ _ | .group _ | .call _ _ _ | .unary _ _ =>
    exact ⟨ts, [], h, rfl, hwf, hdepth, .nil, (List.append_nil ts).symm⟩

end Expr

/-! ## Where operands begin and end -/

namespace Names

/-- The names in view are plain ones. -/
structure AllPlain (k : Names) : Prop where
  inGlobals : ∀ name ∈ k.globals, IsPlainName name
  inFrame : ∀ name ∈ k.frameNames, IsPlainName name
  inFunctions : ∀ f ∈ k.functions, IsPlainName f.name

variable {k : Names} {name : String}

theorem AllPlain.of_place? (h : k.AllPlain) {place : Place} (hn : k.place? name = some place) :
    IsPlainName name := by
  unfold place? at hn
  split at hn
  · rename_i i hi
    refine h.inFrame name (Decidable.byContradiction fun hnot => ?_)
    rw [List.idxOf?_eq_none_iff.mpr hnot] at hi
    cases hi
  · obtain ⟨slot, hslot, -⟩ := Option.map_eq_some_iff.mp hn
    refine h.inGlobals name (Decidable.byContradiction fun hnot => ?_)
    rw [List.idxOf?_eq_none_iff.mpr hnot] at hslot
    cases hslot

theorem AllPlain.of_function? (h : k.AllPlain) {found : Nat × Nat}
    (hn : k.function? name = some found) : IsPlainName name := by
  obtain ⟨i, hi, -⟩ := Option.bind_eq_some_iff.mp hn
  obtain ⟨hlt, hname, -⟩ := List.findIdx?_eq_some_iff_getElem.mp hi
  have hplain := h.inFunctions _ (List.getElem_mem hlt)
  rwa [eq_of_beq hname] at hplain

end Names

/-- The characters that operands can begin with. -/
def opensOperand (c : Char) : Bool :=
  isWordChar c || ['.', '\'', '@', '(', '!', '-', '+'].contains c

/-- A token that an operand can begin with. -/
def Token.OpensOperand (t : Token) : Prop :=
  ∃ c rest, t.text = c :: rest ∧ opensOperand c ∧ (t.isWordLike = false → isWordChar c = false)

theorem Token.OpensOperand.starts {t : Token} (h : t.OpensOperand) : t.Starts := by
  obtain ⟨c, rest, htext, hopens, hword⟩ := h
  have hnot : ∀ c, isBlank c → ¬ opensOperand c := forall_isBlank.mpr (by decide)
  refine ⟨c, rest, htext, Bool.eq_false_iff.mpr fun hblank => ?_, ?_, hword⟩
  · exact hnot c hblank hopens
  · rintro rfl
    exact absurd hopens (by decide)

theorem Token.OpensOperand.begins {t : Token} (h : t.OpensOperand) (ts : List Token) :
    Begins (opensOperand ·) (t :: ts) := by
  obtain ⟨c, rest, htext, hopens, -⟩ := h
  exact ⟨c, rest, htext, hopens⟩

theorem opensOperand_word {w : String} (h : IsWord w) : (Token.word w).OpensOperand := by
  obtain ⟨c, rest, htext, hc⟩ := begins_word h []
  refine ⟨c, rest, htext, ?_, fun hfalse => by cases hfalse⟩
  rw [opensOperand, hc, Bool.true_or]

theorem Value.Spelled.opensOperand {v : Value} {t : Token} (h : v.Spelled t) : t.OpensOperand := by
  cases h with
  | number h hv =>
    obtain ⟨c, rest, htext, hc⟩ := h.first
    refine ⟨c, rest, htext, ?_, fun hfalse => by cases hfalse⟩
    rcases hc with hc | rfl
    · simp [StackScript.opensOperand, isWordChar, Char.isAlphanum, hc]
    · decide
  | plain h => exact ⟨'\'', _, rfl, by decide, fun _ => by decide⟩
  | raw h => exact ⟨'@', _, rfl, by decide, fun _ => by decide⟩
  | true => exact ⟨'t', _, rfl, by decide, fun h => by cases h⟩
  | false => exact ⟨'f', _, rfl, by decide, fun h => by cases h⟩

/-- Every expression begins with a token that an operand can begin with. -/
theorem Expr.Spelled.opensOperand {k : Names} (hk : k.AllPlain) (e : Expr) {ts : List Token}
    (h : e.Spelled ts) (hwf : e.WellFormed k) : ∃ t rest, ts = t :: rest ∧ t.OpensOperand := by
  match e with
  | .literal v =>
    obtain ⟨t, ht, rfl⟩ := h
    exact ⟨t, [], rfl, ht.opensOperand⟩
  | .var name place =>
    cases h
    exact ⟨_, _, rfl, opensOperand_word (hk.of_place? hwf).toIsWord⟩
  | .group e =>
    obtain ⟨xs, -, rfl⟩ := h
    exact ⟨_, _, rfl, '(', [], rfl, by decide, fun _ => by decide⟩
  | .call name callee args =>
    obtain ⟨xss, -, rfl⟩ := h
    exact ⟨_, _, rfl, opensOperand_word (hk.of_function? hwf.1).toIsWord⟩
  | .unary op e =>
    obtain ⟨c, xs, hc, -, rfl⟩ := h
    refine ⟨_, _, rfl, c, [], rfl, ?_, fun _ => ?_⟩ <;>
    · unfold Operator.ofSign? at hc
      split at hc <;> first | decide | cases hc
  | .binary op lhs rhs =>
    obtain ⟨xs, ys, hxs, -, rfl⟩ := h
    obtain ⟨t, rest, rfl, ht⟩ := Expr.Spelled.opensOperand hk lhs hxs hwf.2.2.2.1
    exact ⟨t, _, rfl, ht⟩

theorem Operator.ofSign?_eq_none {c : Char} (h : c ∉ ['!', '-', '+']) : ofSign? c = none := by
  unfold ofSign?
  split <;> first | rfl | exact absurd h (by decide)

/-- A word begins with no sign. -/
theorem ofSign?_of_isWordChar {c : Char} (h : isWordChar c) : Operator.ofSign? c = none := by
  refine Operator.ofSign?_eq_none fun hmem => ?_
  simp only [List.mem_cons, List.not_mem_nil, or_false] at hmem
  rcases hmem with rfl | rfl | rfl <;> exact absurd h (by decide)

theorem Value.Spelled.noSign {v : Value} {t : Token} (h : v.Spelled t) (ts : List Token) :
    Begins (Operator.ofSign? · = none) (t :: ts) := by
  cases h with
  | number h hv =>
    obtain ⟨c, rest, htext, hc⟩ := h.first
    refine ⟨c, rest, htext, ?_⟩
    rcases hc with hc | rfl
    · exact ofSign?_of_isWordChar (by simp [isWordChar, Char.isAlphanum, hc])
    · rfl
  | plain h => exact begins_quoted rfl
  | raw h => exact begins_quoted rfl
  | true | false =>
    exact (begins_word (isWord_of_mem_keywords (by decide)) ts).mono fun c hc =>
      ofSign?_of_isWordChar hc

/-- A primary begins with no sign. -/
theorem Expr.Spelled.noSign {k : Names} (hk : k.AllPlain) {e : Expr} {ts : List Token}
    (h : e.Spelled ts) (hprimary : e.isPrimary) (hwf : e.WellFormed k) (more : List Token) :
    Begins (Operator.ofSign? · = none) (ts ++ more) := by
  cases e with
  | literal v =>
    obtain ⟨t, ht, rfl⟩ := h
    exact ht.noSign more
  | var name place =>
    cases h
    exact (begins_word (hk.of_place? hwf).toIsWord _).mono fun c hc => ofSign?_of_isWordChar hc
  | group e =>
    obtain ⟨xs, -, rfl⟩ := h
    exact begins_mark rfl
  | call name callee args =>
    obtain ⟨xss, -, rfl⟩ := h
    exact (begins_word (hk.of_function? hwf.1).toIsWord _).mono fun c hc => ofSign?_of_isWordChar hc
  | unary op e | binary op lhs rhs => cases hprimary

/-- What can follow an expression. -/
def EndsExpr (ts : List Token) : Prop := ∃ c rest, c ∈ closing ∧ ts = .mark c :: rest

/-- What can follow an operand: also an operator, with another operand behind it. -/
def EndsOperand (ts : List Token) : Prop :=
  EndsExpr ts ∨ ∃ op t rest, op ∈ Operator.binary ∧ t.OpensOperand ∧ ts = .operator op :: t :: rest

theorem EndsExpr.begins {ts : List Token} (h : EndsExpr ts) :
    Begins (· ∈ closing) ts := by
  obtain ⟨c, rest, hc, rfl⟩ := h
  exact begins_mark hc

theorem EndsExpr.solid {ts : List Token} (h : EndsExpr ts) : Solid ts := by
  obtain ⟨c, rest, hc, rfl⟩ := h
  have hstarts : ∀ c ∈ closing, isBlank c = false ∧ c ≠ '/' ∧ isWordChar c = false :=
    forall_closing.mpr (by decide)
  exact solid_mark (hstarts c hc) rest

/-- Operators begin with characters of their own, and only a division with a slash. -/
theorem Operator.first_of_binary {op : Operator} (h : op ∈ binary) :
    ∃ c rest, op.symbol.toList = c :: rest ∧ isBlank c = false ∧ isWordChar c = false ∧
      (c ≠ '(' ∧ Literal.continuesNumber c = false ∧ c.isDigit = false) ∧
        (op ≠ .div → c ≠ '/') := by
  cases op with
  | not | neg | pos | openParen | closeParen | endOfExpression | prepareCall =>
    exact absurd h (by decide)
  | _ => exact ⟨_, _, rfl, by decide⟩

theorem EndsOperand.begins {ts : List Token} (h : EndsOperand ts) :
    Begins (fun c => c ≠ '(' ∧ Literal.continuesNumber c = false ∧ c.isDigit = false) ts := by
  rcases h with h | ⟨op, t, rest, hop, -, rfl⟩
  · have hclosing : ∀ c ∈ closing,
        c ≠ '(' ∧ Literal.continuesNumber c = false ∧ c.isDigit = false :=
      forall_closing.mpr (by decide)
    exact h.begins.mono hclosing
  · obtain ⟨c, tail, htext, -, -, hc, -⟩ := Operator.first_of_binary hop
    exact ⟨c, tail, htext, hc⟩

theorem EndsOperand.solid {ts : List Token} (h : EndsOperand ts) : Solid ts := by
  rcases h with h | ⟨op, t, rest, hop, ht, rfl⟩
  · exact h.solid
  · obtain ⟨c, tail, htext, hblank, hword, -, hslash⟩ := Operator.first_of_binary hop
    by_cases hdiv : op = .div
    · subst hdiv
      exact .inr ⟨rfl, t, rest, rfl, ht.starts⟩
    · exact .inl ⟨c, tail, htext, hblank, hslash hdiv, fun _ => hword⟩

/-- Operators behind an expression end its first operand. -/
theorem Expr.RestSpelled.endsOperand {k : Names} (hk : k.AllPlain) {levels : Nat}
    {ops : List (Operator × Expr)} {xs ts : List Token} (h : RestSpelled k levels ops xs)
    (hts : EndsExpr ts) : EndsOperand (xs ++ ts) := by
  cases h with
  | nil => exact .inl hts
  | cons hop he hwf hdepth hspelled hmore =>
    obtain ⟨t, rest, rfl, ht⟩ := hspelled.opensOperand hk _ hwf
    exact .inr ⟨_, t, _, hop, ht, rfl⟩

theorem Expr.depth_pos (e : Expr) : 0 < e.depth := by
  cases e with
  | literal _ | var _ _ | group _ | call _ _ _ => exact Nat.succ_pos _
  | unary _ e => exact e.depth_pos
  | binary _ lhs rhs => exact Nat.lt_of_lt_of_le lhs.depth_pos (Nat.le_max_left _ _)

/-! ## Reading -/

/-- A scope in which `k` are in view. -/
def Scope.Sees (k : Names) (s : Scope) : Prop := s.Valid ∧ s.names = k

namespace Reader

variable {k : Names} {levels : Nat} {inner : Reader Expr}

/-- A reader that reads all expressions on some levels. -/
def YieldsExpr (k : Names) (levels : Nat) (inner : Reader Expr) : Prop :=
  ∀ (e : Expr) (xs ts : List Token), e.Spelled xs → e.WellFormed k → e.depth ≤ levels →
    EndsExpr ts → Yields inner (xs ++ ts) (Scope.Sees k) e ts (Scope.Sees k)

namespace Yields

/-! ### Lists -/

section Items

variable {α : Type} {item : Reader α} {stop : Reader Bool} {comma : Reader Unit}
  {P : List α → Scope → Prop} {done items : List α} {xss : List (List Token)}

/-- Items that a reader gives one by one, each from its tokens and behind those that are done. -/
inductive Items (item : Reader α) (P : List α → Scope → Prop) :
    List α → List α → List (List Token) → Prop
  | nil {done : List α} : Items item P done [] []
  | cons {done items : List α} {a : α} {t : Token} {xs : List Token} {xss : List (List Token)}
      (ht : t.OpensOperand)
      (hitem : ∀ ts, EndsExpr ts → Yields item (t :: (xs ++ ts)) (P done) a ts (P (done ++ [a])))
      (hrest : Items item P (done ++ [a]) items xss) :
      Items item P done (a :: items) ((t :: xs) :: xss)

/-- A list goes on with a comma or is at its end. -/
theorem endsExpr_more {c : Char} (hc : c ∈ closing) (xss : List (List Token)) (ts : List Token) :
    EndsExpr (xss.flatMap (Token.mark ',' :: ·) ++ .mark c :: ts) := by
  cases xss with
  | nil => exact ⟨c, ts, hc, rfl⟩
  | cons xs xss => exact ⟨',', _, by decide, rfl⟩

/-- The items behind the first one, up to the character `c`. A comma is taken by `stop`, which then
says no, or by `comma`. -/
theorem moreItems {c : Char} {ts ts' : List Token} (h : Items item P done items xss)
    (hc : c ∈ closing) (hstop : ∀ P, Yields stop (.mark c :: ts) P true ts' P)
    (hcomma : ∀ P rest, Solid rest → ∃ mid, Yields stop (.mark ',' :: rest) P false mid P ∧
      Yields comma mid P () rest P) :
    Yields (Reader.loop (Reader.commaTurn item stop comma))
      (xss.flatMap (Token.mark ',' :: ·) ++ .mark c :: ts) (P done) items ts'
      (P (done ++ items)) := by
  induction h with
  | nil =>
    rw [List.append_nil]
    exact loop_none ((hstop _).bind (pure none))
  | @cons done items a t xs xss ht hitem hrest ih =>
    have hnext := endsExpr_more hc xss ts
    have hsnoc : done ++ a :: items = done ++ [a] ++ items := List.append_cons done a items
    simp only [List.flatMap_cons, List.cons_append, List.append_assoc]
    rw [hsnoc]
    refine loop_some ?_ ?_ ih
    · obtain ⟨mid, hgo, htake⟩ := hcomma (P done) _ (ht.starts.solid _)
      exact hgo.bind (htake.bind ((hitem _ hnext).bind (pure _)))
    · simp only [List.length_cons, List.length_append]
      omega

theorem commaList {c : Char} {ts ts' : List Token} {a : α} {xs : List Token}
    (h : Items item P done (a :: items) (xs :: xss)) (hc : c ∈ closing)
    (hstop : ∀ P, Yields stop (.mark c :: ts) P true ts' P)
    (hcomma : ∀ P rest, Solid rest → ∃ mid, Yields stop (.mark ',' :: rest) P false mid P ∧
      Yields comma mid P () rest P) :
    Yields (Reader.commaList item stop comma) (commas (xs :: xss) ++ .mark c :: ts) (P done)
      (a :: items) ts' (P (done ++ a :: items)) := by
  cases h with
  | cons ht hitem hrest =>
    have hsnoc : done ++ a :: items = done ++ [a] ++ items := List.append_cons done a items
    rw [commas, List.append_assoc, hsnoc]
    refine (hitem _ (endsExpr_more hc xss ts)).bind ?_
    exact (moreItems hrest hc hstop hcomma).bind (pure _)

theorem parenthesised {ts : List Token} (h : Items item P [] items xss) (hsolid : Solid ts) :
    Yields (Reader.parenthesised item) (commas xss ++ .mark ')' :: ts) (P []) items ts
      (P items) := by
  cases h with
  | nil => exact (symbol hsolid).bind (pure [])
  | cons ht hitem hrest =>
    refine (not_symbol ((ht.begins _).ne (by decide))).bind ?_
    exact commaList (.cons ht hitem hrest) (by decide) (fun P => symbol hsolid)
      fun P rest hrest => ⟨_, not_symbol (begins_mark (by decide)), expect hrest⟩

/-- Behind the opening parenthesis stand an item or the closing one. -/
theorem Items.solid (h : Items item P [] items xss) (ts : List Token) :
    Solid (commas xss ++ .mark ')' :: ts) := by
  cases h with
  | nil => exact solid_mark (by decide) ts
  | cons ht hitem hrest => exact ht.starts.solid _

end Items

/-! ### Primaries and operands -/

theorem arguments (hinner : YieldsExpr k levels inner) (hk : k.AllPlain) (done args : List Expr)
    {xss : List (List Token)} (hspelled : Expr.AllSpelled args xss)
    (hwf : Expr.AllWellFormed k args) (hdepth : Expr.depthAll args ≤ levels) :
    Items inner (fun _ => Scope.Sees k) done args xss := by
  induction args generalizing done xss with
  | nil =>
    cases hspelled
    exact .nil
  | cons e es ih =>
    obtain ⟨xs, rest, hxs, hrest, rfl⟩ := hspelled
    obtain ⟨hwf, hwfs⟩ := hwf
    obtain ⟨hd, hds⟩ := Nat.max_le.mp hdepth
    obtain ⟨t, tail, rfl, ht⟩ := hxs.opensOperand hk e hwf
    exact .cons ht (fun ts hts => hinner e _ _ hxs hwf hd hts) (ih _ hrest hwfs hds)

theorem call {ts : List Token} {name : String} {callee : Nat} {args : List Expr}
    {xss : List (List Token)} (hargs : Items inner (fun _ => Scope.Sees k) [] args xss)
    (hsolid : Solid ts) (hwf : (Expr.call name callee args).WellFormed k) (place : List Char) :
    Yields (Reader.call inner name place) (commas xss ++ .mark ')' :: ts) (Scope.Sees k)
      (callee, args) ts (Scope.Sees k) := by
  refine bind_scope fun s hs => ?_
  rw [Scope.function?_eq hs.1, hs.2, hwf.1]
  refine (parenthesised hargs hsolid).bind ?_
  rw [if_pos rfl]
  exact pure _

theorem namedVar {ts : List Token} (hnext : EndsOperand ts) {name : String} {place : Place}
    (hname : IsName name) (hplace : k.place? name = some place) :
    Yields (Reader.reference inner) (.word name :: ts) (Scope.Sees k) (.var name place) ts
      (Scope.Sees k) := by
  refine bind_name hname hnext.solid fun _ => ?_
  refine (not_symbol (hnext.begins.mono fun c hc => hc.1)).bind ?_
  refine bind_scope fun s hs => ?_
  rw [Scope.place?_eq hs.1, hs.2, hplace]
  exact pure _

theorem varExpr (hk : k.AllPlain) {ts : List Token} (hnext : EndsOperand ts) {xs : List Token}
    {name : String} {place : Place} (hspelled : (Expr.var name place).Spelled xs)
    (hwf : (Expr.var name place).WellFormed k) :
    Yields (Reader.reference inner) (xs ++ ts) (Scope.Sees k) (.var name place) ts
      (Scope.Sees k) := by
  cases hspelled
  exact namedVar hnext (hk.of_place? hwf).toIsName hwf

theorem callExpr (hinner : YieldsExpr k levels inner) (hk : k.AllPlain) {ts : List Token}
    (hnext : EndsOperand ts) {xs : List Token} {name : String} {callee : Nat} {args : List Expr}
    (hspelled : (Expr.call name callee args).Spelled xs)
    (hwf : (Expr.call name callee args).WellFormed k) (hdepth : Expr.depthAll args ≤ levels) :
    Yields (Reader.reference inner) (xs ++ ts) (Scope.Sees k) (.call name callee args) ts
      (Scope.Sees k) := by
  obtain ⟨xss, hxss, rfl⟩ := hspelled
  simp only [List.cons_append, List.append_assoc, List.nil_append]
  refine bind_name (hk.of_function? hwf.1).toIsName (solid_mark (by decide) _) fun _ => ?_
  have hargs := arguments hinner hk [] args hxss hwf.2 hdepth
  refine (symbol (hargs.solid ts)).bind ?_
  exact (call hargs hnext.solid hwf _).bind (pure _)

/-- Neither a group nor a literal begins with a name. -/
theorem toReference {w : String} (hw : IsPlainName w) {e : Expr} {ts ts' : List Token}
    {P P' : Scope → Prop} (hsolid : Solid ts)
    (h : Yields (Reader.reference inner) (.word w :: ts) P e ts' P') :
    Yields (Reader.primary inner) (.word w :: ts) P e ts' P' := by
  have hfirst : Begins (fun c => isWordChar c ∧ c.isDigit = false) (.word w :: ts) := by
    obtain ⟨c, rest, htext, hc⟩ := begins_word hw.toIsWord ts
    refine ⟨c, rest, htext, hc, hw.first c ?_⟩
    show w.toList.head? = some c
    rw [show w.toList = c :: rest from htext]
    rfl
  refine (not_symbol (hfirst.ne (by decide))).bind ?_
  refine (no_string ((hfirst.ne (by decide)).and (hfirst.ne (by decide)))).bind ?_
  refine (no_number ((hfirst.mono fun c hc => hc.2).and (hfirst.ne (by decide)))).bind ?_
  refine (not_keyword (by decide) hw.toIsName hsolid).bind ?_
  exact (not_keyword (by decide) hw.toIsName hsolid).bind h

theorem literal {v : Value} {t : Token} (hspelled : v.Spelled t) {ts : List Token}
    (hnext : EndsOperand ts) {P : Scope → Prop} :
    Yields (Reader.primary inner) (t :: ts) P (.literal v) ts P := by
  have hsolid := hnext.solid
  cases hspelled with
  | number h hv =>
    obtain ⟨c, rest, htext, hc⟩ := h.first
    have hfirst : Begins (fun c => c.isDigit ∨ c = '.') (.number _ :: ts) := ⟨c, rest, htext, hc⟩
    refine (not_symbol (hfirst.ne (by decide))).bind ?_
    refine (no_string ((hfirst.ne (by decide)).and (hfirst.ne (by decide)))).bind ?_
    exact (number h hv hsolid (hnext.begins.mono fun c hc => hc.2)).bind (pure _)
  | plain h =>
    refine (not_symbol (begins_quoted (by decide))).bind ?_
    exact (plainString h hsolid).bind (pure _)
  | raw h =>
    refine (not_symbol (begins_quoted (by decide))).bind ?_
    exact (rawString h hsolid).bind (pure _)
  | true =>
    have hfirst : Begins (· = 't') (.word "true" :: ts) := ⟨'t', _, rfl, rfl⟩
    refine (not_symbol (hfirst.mono (by rintro _ rfl; decide))).bind ?_
    refine (no_string (hfirst.mono (by rintro _ rfl; decide))).bind ?_
    refine (no_number (hfirst.mono (by rintro _ rfl; decide))).bind ?_
    exact (word (isWord_of_mem_keywords (by decide)) hsolid).bind (pure _)
  | false =>
    have hfirst : Begins (· = 'f') (.word "false" :: ts) := ⟨'f', _, rfl, rfl⟩
    refine (not_symbol (hfirst.mono (by rintro _ rfl; decide))).bind ?_
    refine (no_string (hfirst.mono (by rintro _ rfl; decide))).bind ?_
    refine (no_number (hfirst.mono (by rintro _ rfl; decide))).bind ?_
    refine (not_word (isWord_of_mem_keywords (by decide)) (isWord_of_mem_keywords (by decide))
      (by decide) hsolid).bind ?_
    exact (word (isWord_of_mem_keywords (by decide)) hsolid).bind (pure _)

theorem primary (hinner : YieldsExpr k levels inner) (hk : k.AllPlain) {ts : List Token}
    (hnext : EndsOperand ts) {e : Expr} (hprimary : e.isPrimary) {xs : List Token}
    (hspelled : e.Spelled xs) (hwf : e.WellFormed k) (hdepth : e.depth ≤ levels + 1) :
    Yields (Reader.primary inner) (xs ++ ts) (Scope.Sees k) e ts (Scope.Sees k) := by
  cases e with
  | literal v =>
    obtain ⟨t, ht, rfl⟩ := hspelled
    exact literal ht hnext
  | var name place =>
    have h : Yields (Reader.reference inner) _ _ _ _ _ := varExpr hk hnext hspelled hwf
    cases hspelled
    exact toReference (hk.of_place? hwf) hnext.solid h
  | call name callee args =>
    have h := callExpr hinner hk hnext hspelled hwf (Nat.le_of_succ_le_succ hdepth)
    obtain ⟨xss, -, rfl⟩ := hspelled
    exact toReference (hk.of_function? hwf.1) (solid_mark (by decide) _) h
  | group e =>
    obtain ⟨xs, hxs, rfl⟩ := hspelled
    obtain ⟨t, rest, rfl, ht⟩ := hxs.opensOperand hk e hwf
    simp only [List.cons_append, List.append_assoc, List.nil_append]
    refine (symbol (ht.starts.solid _)).bind ?_
    refine (hinner e _ _ hxs hwf (Nat.le_of_succ_le_succ hdepth) ⟨')', ts, by decide, rfl⟩).bind ?_
    exact (expect hnext.solid).bind (pure _)
  | unary op e | binary op lhs rhs => cases hprimary

theorem operand (hinner : YieldsExpr k levels inner) (hk : k.AllPlain) {ts : List Token}
    (hnext : EndsOperand ts) {e : Expr} (hoperand : e.isOperand) {xs : List Token}
    (hspelled : e.Spelled xs) (hwf : e.WellFormed k) (hdepth : e.depth ≤ levels + 1) :
    Yields (Reader.operand inner) (xs ++ ts) (Scope.Sees k) e ts (Scope.Sees k) := by
  by_cases hprimary : e.isPrimary
  · refine (no_unaryOperator (hspelled.noSign hk hprimary hwf ts)).bind ?_
    exact primary hinner hk hnext hprimary hspelled hwf hdepth
  · cases e with
    | unary op e =>
      obtain ⟨c, xs, hc, hxs, rfl⟩ := hspelled
      obtain ⟨-, hprimary, hwf⟩ := hwf
      obtain ⟨t, rest, rfl, ht⟩ := hxs.opensOperand hk e hwf
      refine (unaryOperator hc (ht.starts.solid _)).bind ?_
      exact (primary hinner hk hnext hprimary hxs hwf hdepth).bind (pure _)
    | binary op lhs rhs => cases hoperand
    | _ => exact absurd rfl hprimary

/-- The operators behind an operand are read one after another. -/
theorem continuations (hinner : YieldsExpr k levels inner) (hk : k.AllPlain) {ts : List Token}
    (hnext : EndsExpr ts) {ops : List (Operator × Expr)} {xs : List Token}
    (h : Expr.RestSpelled k (levels + 1) ops xs) :
    Yields (Reader.loop (Reader.continuation inner)) (xs ++ ts) (Scope.Sees k) ops ts
      (Scope.Sees k) := by
  induction h with
  | nil => exact loop_none ((no_binaryOperator hnext.begins).bind (pure none))
  | @cons op e more xs ys hop he hwf hdepth hspelled hmore ih =>
    obtain ⟨t, rest, rfl, ht⟩ := hspelled.opensOperand hk e hwf
    have hnot : Begins (· ≠ '=') (t :: (rest ++ (ys ++ ts))) := (ht.begins _).ne (by decide)
    rw [List.cons_append, List.append_assoc]
    refine loop_some ((binaryOperator hop (ht.starts.solid _) hnot).bind ?_) ?_ ih
    · exact (operand hinner hk (hmore.endsOperand hk hnext) he hspelled hwf hdepth).bind (pure _)
    · simp only [List.length_cons, List.length_append]
      omega

theorem chain (hinner : YieldsExpr k levels inner) (hk : k.AllPlain) :
    YieldsExpr k (levels + 1) (Reader.chain inner) := by
  intro e xs ts hspelled hwf hdepth hnext
  obtain ⟨us, vs, hus, hfirst, hwf', hdepth', hvs, rfl⟩ := hspelled.split e hwf hdepth
  -- operands are read one by one, and extending by them in that order gives the tree back
  suffices h : Yields (Reader.chain inner) ((us ++ vs) ++ ts) (Scope.Sees k)
      (e.first.extendAll e.rest) ts (Scope.Sees k) by
    rwa [Expr.extendAll_rest e hwf] at h
  rw [List.append_assoc]
  refine (operand hinner hk (hvs.endsOperand hk hnext) hfirst hus hwf' hdepth').bind ?_
  exact (continuations hinner hk hnext hvs).bind (pure _)

/-- **Every well-formed expression is read from each of its spellings.** -/
theorem expression (settings : Settings) (hk : k.AllPlain) (levels : Nat) :
    YieldsExpr k levels (Reader.expression settings levels) := by
  induction levels with
  | zero =>
    intro e xs ts hspelled hwf hdepth hnext
    exact absurd e.depth_pos (Nat.not_lt.mpr hdepth)
  | succ levels ih => exact chain ih hk

end Yields

end Reader

end StackScript
