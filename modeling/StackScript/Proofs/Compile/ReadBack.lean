import StackScript.Proofs.Compile.Compiled
import StackScript.Proofs.Machine.Cutoff
import StackScript.Proofs.Rendering.Script
import StackScript.Proofs.Source.Numbers

/-!
# Reading variables back

Names may begin with a digit, and a declaration takes any word that is no keyword for a name. An
operand is tried as a number first. So the two disagree about the words that are number literals:
`var 12 = 5;` declares a variable, but a later `12` is the number.

`Reader.Gives` says what a reader gives if it accepts some tokens. With it a script that stores a
literal in a variable and returns the variable is followed from its text to its program
(`compile_readBack`), and the program through its seven steps. **`variable_reads_back`** says which
value comes out: the stored one, unless the name is a literal itself, and else the value of that
literal.
-/

namespace StackScript

open Lexeme Literal

namespace Reader

variable {α β : Type}

/-! ## What readers give if they accept -/

/-- If the reader succeeds where `ts` remain, in a scope with `P`, then `Q` holds of what it gives,
and it leaves `ts'` and a scope with `P'`. -/
def Gives (x : Reader α) (ts : List Token) (P : Scope → Prop) (Q : α → Prop) (ts' : List Token)
    (P' : Scope → Prop) : Prop :=
  ∀ r : Reading, Remain ts r.rest → P r.scope → ∀ a r', x r = .ok a r' →
    Q a ∧ Remain ts' r'.rest ∧ P' r'.scope

variable {x : Reader α} {f : α → Reader β} {a : α} {Q Q' : α → Prop} {R : β → Prop}
  {ts ts' ts'' : List Token} {P P' P'' : Scope → Prop}

theorem Yields.gives (h : Yields x ts P a ts' P') : Gives x ts P (· = a) ts' P' := by
  intro r hat hP b r' hx
  obtain ⟨r₁, hx₁, hat₁, hP₁, -⟩ := h r hat hP
  cases hx₁.symm.trans hx
  exact ⟨rfl, hat₁, hP₁⟩

namespace Gives

theorem pure (h : Q a) : Gives (Pure.pure a : Reader α) ts P Q ts P := by
  intro r hat hP b r' hx
  cases hx
  exact ⟨h, hat, hP⟩

theorem refuse {c : Complaint} : Gives (Reader.refuse c : Reader α) ts P Q ts' P' :=
  fun _ _ _ _ _ hx => by cases hx

theorem refuseAt {place : List Char} {c : Complaint} :
    Gives (Reader.refuseAt place c : Reader α) ts P Q ts' P' :=
  fun _ _ _ _ _ hx => by cases hx

theorem mono (h : Gives x ts P Q ts' P') (hQ : ∀ a, Q a → Q' a) : Gives x ts P Q' ts' P' := by
  intro r hat hP a r' hx
  obtain ⟨ha, hrest⟩ := h r hat hP a r' hx
  exact ⟨hQ a ha, hrest⟩

theorem bind (hx : Gives x ts P Q ts' P') (hf : ∀ a, Q a → Gives (f a) ts' P' R ts'' P'') :
    Gives (x >>= f) ts P R ts'' P'' := by
  intro r hat hP b r' hb
  obtain ⟨a, r₁, hx₁, hf₁⟩ := bind_eq_ok.mp hb
  obtain ⟨ha, hat₁, hP₁⟩ := hx r hat hP a r₁ hx₁
  exact hf a ha r₁ hat₁ hP₁ b r' hf₁

theorem bind_scope {f : Scope → Reader β} (h : ∀ s, P s → Gives (f s) ts P R ts' P') :
    Gives (Reader.scope >>= f) ts P R ts' P' := fun r hat hP => h r.scope hP r hat hP

theorem bind_get {f : Reading → Reader β} (h : ∀ r, Gives (f r) ts P R ts' P') :
    Gives (get >>= f) ts P R ts' P' := fun r hat hP => h r r hat hP

end Gives

theorem Yields.bind_gives (hx : Yields x ts P a ts' P') (hf : Gives (f a) ts' P' R ts'' P'') :
    Gives (x >>= f) ts P R ts'' P'' := by
  refine hx.gives.bind fun b hb => ?_
  rw [hb]
  exact hf

namespace Gives

/-- A loop of one turn: the number of turns that are allowed does not matter if it succeeds. -/
theorem loop {item : Reader (Option α)}
    (h : Gives item ts P (fun o => ∃ a, o = some a ∧ Q a) ts' P')
    (hend : Yields item ts' P' none ts'' P'') :
    Gives (Reader.loop item) ts P (fun as => ∃ a, as = [a] ∧ Q a) ts'' P'' := by
  have hstop : ∀ turns, Gives (Reader.many item turns) ts' P' (· = []) ts'' P'' := by
    intro turns
    cases turns with
    | zero => exact refuse
    | succ turns => exact hend.bind_gives (pure rfl)
  intro r
  have hmany : Gives (Reader.many item (r.rest.length + 1)) ts P (fun as => ∃ a, as = [a] ∧ Q a)
      ts'' P'' := by
    refine h.bind fun o ho => ?_
    obtain ⟨a, rfl, ha⟩ := ho
    refine (hstop _).bind fun as has => ?_
    exact pure ⟨a, by rw [has], ha⟩
  exact hmany r

/-- A list of one item. -/
theorem commaList {item : Reader α} {stop : Reader Bool} {comma : Reader Unit}
    (h : Gives item ts P Q ts' P') (hstop : Yields stop ts' P' true ts'' P'') :
    Gives (Reader.commaList item stop comma) ts P (fun as => ∃ a, as = [a] ∧ Q a) ts'' P'' := by
  refine h.bind fun a ha => ?_
  exact (Yields.loop_none (hstop.bind (.pure none))).bind_gives (pure ⟨a, rfl, ha⟩)

/-! ## Names and numbers -/

/-- A word is accepted as a name only if it is no keyword. -/
theorem name {w what : String} (hw : IsWord w) (hsolid : Solid ts) :
    Gives (Reader.name what) (.word w :: ts) P (fun found => found.1 = w ∧ IsName w) ts P := by
  refine Yields.skipBlanks.bind_gives (bind_get fun r => ?_)
  refine (Yields.identifier hw hsolid).bind_gives ?_
  simp only
  split
  · exact refuseAt
  · rename_i hkeyword
    exact pure ⟨rfl, hw, Bool.eq_false_iff.mpr hkeyword⟩

end Gives

end Reader

theorem Lexeme.IsWord.dropBlanks {w : String} (h : IsWord w) : dropBlanks w.toList = w.toList := by
  obtain ⟨c, rest, htext, hblank, hslash, -⟩ := (opensOperand_word h).starts
  have hw : w.toList = c :: rest := htext
  rw [hw]
  exact dropBlanks_of_first hblank fun hcomment => hslash hcomment.1

/-- The characters of a number that are no letters and no digits. -/
theorem Literal.Numeral.Written.mark_of_mem {n : Numeral} {text : List Char} (h : n.Written text)
    {c : Char} (hc : c ∈ text) (hword : isWordChar c = false) : c = '.' ∨ c = '+' ∨ c = '-' := by
  have hnot : ∀ {ds : List Char}, AreDigits ds → c ∉ ds := by
    intro ds hds hmem
    simp [isWordChar, Char.isAlphanum, hds c hmem] at hword
  obtain ⟨whole, f, e⟩ := n
  obtain ⟨hwhole, -, fraction, power, hfraction, hpower, rfl⟩ := h
  rcases List.mem_append.mp hc with hmem | hrest
  · exact absurd hmem (hnot hwhole)
  rcases List.mem_append.mp hrest with hmem | hmem
  · cases hfraction with
    | none => cases hmem
    | some hds =>
      rcases List.mem_cons.mp hmem with rfl | hdigit
      · exact .inl rfl
      · exact absurd hdigit (hnot hds)
  · cases hpower with
    | none => cases hmem
    | some he hsign _ hds =>
      rcases List.mem_cons.mp hmem with rfl | hafter
      · rcases he with rfl | rfl <;> exact absurd hword (by decide)
      rcases List.mem_append.mp hafter with hmark | hdigit
      · cases hsign with
        | none => cases hmark
        | plus => exact .inr (.inl (List.mem_singleton.mp hmark))
        | minus => exact .inr (.inr (List.mem_singleton.mp hmark))
      · exact absurd hdigit (hnot hds)

/-- No number is recognised at a word that is none, unless a point or a sign follows. -/
theorem Literal.numeral?_word {w : String} {rest : List Char} (hw : IsWord w)
    (hno : w.toList ∉ Grammar.number)
    (hrest : ∀ c ∈ rest.head?, isWordChar c = false ∧ c ∉ ['.', '+', '-']) :
    numeral? (w.toList ++ rest) = none := by
  refine Option.eq_none_iff_forall_ne_some.mpr fun found hfound => hno ?_
  obtain ⟨text, htext, hwritten, hends⟩ := numeral?_eq_some_iff.mp hfound
  have hwhole : text = w.toList → w.toList ∈ Grammar.number := fun heq =>
    Grammar.mem_number.mpr ⟨found.1, heq ▸ hwritten⟩
  rcases List.append_eq_append_iff.mp htext with ⟨more, hmore, hafter⟩ | ⟨more, hmore, hafter⟩
  · -- the number would go on behind the word
    cases more with
    | nil => exact hwhole (by rw [hmore, List.append_nil])
    | cons c more =>
      obtain ⟨hword, hmark⟩ := hrest c (by rw [hafter]; rfl)
      have hmem : c ∈ text := by rw [hmore]; simp
      exact absurd (by simpa using hwritten.mark_of_mem hmem hword) hmark
  · -- the number would end inside the word
    cases more with
    | nil => exact hwhole (by rw [hmore, List.append_nil])
    | cons c more =>
      have hword := hw.chars c (by rw [hmore]; simp)
      obtain ⟨hstop, hdigit⟩ := hends c (by rw [hafter]; rfl)
      simp only [continuesNumber, Bool.or_eq_false_iff] at hstop
      simp [isWordChar, Char.isAlphanum, hstop, hdigit] at hword

namespace Reader

variable {P : Scope → Prop} {ts : List Token} {w : String}

/-- A word that is no number literal is not taken for a number. -/
theorem Yields.no_number_word (hw : IsWord w) (hno : w.toList ∉ Grammar.number)
    (hnext : EndsExpr ts) : Yields (scan .number) (.word w :: ts) P none (.word w :: ts) P := by
  refine of_skip fun r hopens => ?_
  obtain ⟨rest, htext, hlaid⟩ := hopens
  have hclosing : ∀ c ∈ closing, c ∉ ['.', '+', '-'] := forall_closing.mpr (by decide)
  have hmark : ∀ c ∈ rest.head?, c ∉ ['.', '+', '-'] :=
    hlaid.head? (hnext.begins.mono hclosing) (forall_isBlank.mpr (by decide)) (by decide)
  have hnone : numeral? (dropBlanks r.rest) = none := by
    rw [htext]
    exact numeral?_word hw hno fun c hc =>
      ⟨hlaid.not_isWordChar rfl hnext.solid c hc, hmark c hc⟩
  simp only [scan, Scanner.number, hnone]

/-- A word that is a number literal is accepted as the number that it is on its own. -/
theorem Gives.number_word (hw : IsWord w) (hnumber : w.toList ∈ Grammar.number)
    (hnext : EndsExpr ts) :
    Gives (scan .number) (.word w :: ts) P
      (fun found => ∃ v, found = some v ∧ Scanner.number w.toList = .ok (some v) []) ts P := by
  obtain ⟨n, hn⟩ := Grammar.mem_number.mp hnumber
  have hbegins : Begins (fun c => continuesNumber c = false ∧ c.isDigit = false) ts :=
    (EndsOperand.begins (.inl hnext)).mono fun _ hc => hc.2
  cases hv : n.value? with
  | some v =>
    have halone : Scanner.number w.toList = .ok (some v) [] :=
      Scanner.number_of_value hn (fun _ hc => by cases hc) (by rw [hw.dropBlanks]; simp) hv
    exact (Yields.number hn hv hnext.solid hbegins).gives.mono fun found hfound =>
      ⟨v, hfound, halone⟩
  | none =>
    intro r hat _ a r' hx
    obtain ⟨rest, htext, hlaid⟩ := hat.opens
    have hfound : numeral? (dropBlanks r.rest) = some (n, rest) := by
      rw [htext]
      exact numeral?_written hn (hlaid.endsNumber hbegins)
    simp only [scan, Scanner.number, hfound, hv] at hx
    cases hx

end Reader

/-! ## Words as operands -/

/-- What a word means as an operand, if it is the name of a variable at `place`. -/
structure Expr.IsWordOperand (name : String) (place : Place) (e : Expr) : Prop where
  ofNumber : name.toList ∈ Grammar.number →
    ∃ v, Scanner.number name.toList = .ok (some v) [] ∧ e = .literal v
  ofName : name.toList ∉ Grammar.number → e = .var name place

namespace Reader.Gives

variable {settings : Settings} {k : Names} {name : String} {place : Place} {ts : List Token}

theorem primary {inner : Reader Expr} (hname : IsName name) (hplace : k.place? name = some place)
    (hnext : EndsExpr ts) :
    Gives (Reader.primary inner) (.word name :: ts) (Scope.Sees k) (Expr.IsWordOperand name place)
      ts (Scope.Sees k) := by
  have hfirst := begins_word hname.toIsWord ts
  refine (Yields.not_symbol (hfirst.ne (by decide))).bind_gives ?_
  refine (Yields.no_string ((hfirst.ne (by decide)).and (hfirst.ne (by decide)))).bind_gives ?_
  by_cases hnumber : name.toList ∈ Grammar.number
  · refine (number_word hname.toIsWord hnumber hnext).bind fun found hfound => ?_
    obtain ⟨v, rfl, hv⟩ := hfound
    exact pure ⟨fun _ => ⟨v, hv, rfl⟩, fun hno => absurd hnumber hno⟩
  · refine (Yields.no_number_word hname.toIsWord hnumber hnext).bind_gives ?_
    refine (Yields.not_keyword (by decide) hname hnext.solid).bind_gives ?_
    refine (Yields.not_keyword (by decide) hname hnext.solid).bind_gives ?_
    refine (Yields.namedVar (.inl hnext) hname hplace).gives.mono fun e he => ?_
    exact ⟨fun hyes => absurd hyes hnumber, fun _ => he⟩

/-- A single operand without a sign is an expression, if any level may be opened. -/
theorem expression {t : Token} {P P' : Scope → Prop} {Q : Expr → Prop} (settings : Settings)
    (levels : Nat) (hsign : Begins (Operator.ofSign? · = none) (t :: ts)) (hnext : EndsExpr ts)
    (h : ∀ inner, Gives (Reader.primary inner) (t :: ts) P Q ts P') :
    Gives (Reader.expression settings levels) (t :: ts) P Q ts P' := by
  cases levels with
  | zero => exact refuse
  | succ levels =>
    have hoperand : Gives (Reader.operand fun r => Reader.expression settings levels r) (t :: ts) P
        Q ts P' := (Yields.no_unaryOperator hsign).bind_gives (h _)
    refine hoperand.bind fun e he => ?_
    have hend : Yields (Reader.continuation fun r => Reader.expression settings levels r) ts P' none
        ts P' := (Yields.no_binaryOperator hnext.begins).bind (.pure none)
    exact (Yields.loop_none hend).bind_gives (pure he)

theorem declaration {v : Value} {t : Token} (hname : IsWord name) (hnew : name ∉ k.frameNames)
    (hplace : (k.introduce name).place? name = some place) (hspelled : v.Spelled t)
    (hnext : EndsExpr ts) :
    Gives (Reader.declaration settings) (.word name :: .mark '=' :: t :: ts) (Scope.Sees k)
      (fun d => IsName name ∧ d = ⟨name, place, some (.literal v)⟩) ts
      (Scope.Sees (k.introduce name)) := by
  refine (Gives.name hname (solid_mark (by decide) _)).bind fun found hfound => ?_
  obtain ⟨word, start⟩ := found
  obtain ⟨rfl, hisName⟩ := hfound
  refine (Yields.declare hnew hplace start).bind_gives ?_
  refine (Yields.symbol (hspelled.opensOperand.starts.solid _)).bind_gives ?_
  refine (expression settings settings.maxNesting (hspelled.noSign ts) hnext fun _ =>
    (Yields.literal hspelled (.inl hnext)).gives).bind fun e he => ?_
  exact pure ⟨hisName, by rw [he]⟩

/-- A single declaration of a single variable. -/
theorem declarations {t : Token} {xs : List Token} {P P' : Scope → Prop} {Q : Decl → Prop}
    (h : Gives (Reader.declaration settings) (t :: xs) P Q (.mark ';' :: ts) P')
    (ht : t.Starts) (hend : Lacks "var" ts) :
    Gives (Reader.declarations settings) (.word "var" :: t :: xs) P (fun ds => ∃ d, ds = [d] ∧ Q d)
      ts P' := by
  have hvar : IsWord "var" := isWord_of_mem_keywords (by decide)
  have hgroup : Gives (Reader.declarationGroup settings) (.word "var" :: t :: xs) P
      (fun group => ∃ ds, group = some ds ∧ ∃ d, ds = [d] ∧ Q d) ts P' := by
    refine (Yields.word hvar (ht.solid _)).bind_gives ?_
    have hstop : Yields (do return !(← scan (.symbol ','))) (.mark ';' :: ts) P' true
        (.mark ';' :: ts) P' := (Yields.not_symbol (begins_mark (by decide))).bind (.pure true)
    refine (commaList h hstop).bind fun ds hds => ?_
    exact (Yields.expect hend.solid).bind_gives (pure ⟨ds, rfl, hds⟩)
  refine (hgroup.loop (Yields.noDeclarationGroup hend)).bind fun groups hgroups => ?_
  obtain ⟨_, rfl, hds⟩ := hgroups
  exact pure (by rwa [List.flatten_cons, List.flatten_nil, List.append_nil])

/-- The statement that returns the value of a word. -/
theorem returnWord (hname : IsName name) (hplace : k.place? name = some place) (hsolid : Solid ts) :
    Gives (Reader.statement settings) (.word "return" :: .word name :: .mark ';' :: ts)
      (Scope.Sees k) (fun st => ∃ e, Expr.IsWordOperand name place e ∧ st = .ret (some e)) ts
      (Scope.Sees k) := by
  have hword := hname.toIsWord
  have hstop : EndsExpr (.mark ';' :: ts) := ⟨';', ts, by decide, rfl⟩
  have hsign : Begins (Operator.ofSign? · = none) (.word name :: .mark ';' :: ts) :=
    (begins_word hword _).mono fun _ hc => ofSign?_of_isWordChar hc
  refine (Yields.word (isWord_of_mem_keywords (by decide)) (solid_word hword _)).bind_gives ?_
  refine (Yields.not_symbol ((begins_word hword _).ne (by decide))).bind_gives ?_
  refine (expression settings settings.maxNesting hsign hstop fun _ =>
    primary hname hplace hstop).bind fun e he => ?_
  exact (Yields.expect hsolid).bind_gives (pure ⟨e, he, rfl⟩)

end Reader.Gives

/-! ## The script that reads a variable back -/

/-- Stores a literal in a variable and returns the variable. -/
def readBack (name literal : String) : String :=
  "var " ++ name ++ " = " ++ literal ++ "; return " ++ name ++ ";"

/-- The script of `readBack`, if the last operand is read as `e`. -/
def Script.readBack (name : String) (v : Value) (e : Expr) : Script where
  globals := [name]
  decls := [⟨name, .global 0, some (.literal v)⟩]
  functions := []
  lateDecls := []
  body := [.ret (some e)]

/-- The tokens of `readBack`. -/
def readBackTokens (name : String) (t : Token) : List Token :=
  [.word "var", .word name, .mark '=', t, .mark ';', .word "return", .word name, .mark ';']

theorem renders_readBack (name literal : String) :
    Renders (readBackTokens name (.number literal.toList)) (readBack name literal).toList := by
  have htext : (readBack name literal).toList = "var".toList ++ ' ' :: (name.toList ++
      ' ' :: '=' :: ' ' :: (literal.toList ++ ';' :: ' ' :: ("return".toList ++
        ' ' :: (name.toList ++ [';'])))) := by
    simp [readBack]
  refine ⟨[], _, htext, .nil, ?_⟩
  refine ⟨[' '], _, rfl, isSeparator_blank .nil, ?_⟩
  refine ⟨[' '], _, rfl, isSeparator_blank .nil, ?_⟩
  refine ⟨[' '], _, rfl, isSeparator_blank .nil, ?_⟩
  refine ⟨[], _, rfl, isSeparator_nil (.inr rfl), ?_⟩
  refine ⟨[' '], _, rfl, isSeparator_blank .nil, ?_⟩
  refine ⟨[' '], _, rfl, isSeparator_blank .nil, ?_⟩
  exact ⟨[], _, rfl, isSeparator_nil (.inr rfl), .nil⟩

theorem Reader.Gives.script {settings : Settings} {name : String} {v : Value} {t : Token}
    (hname : IsWord name) (hspelled : v.Spelled t) :
    Gives (Reader.script settings) (readBackTokens name t) (Scope.Sees (.top [] []))
      (fun s => ∃ e, Expr.IsWordOperand name (.global 0) e ∧ s = .readBack name v e) []
      (Scope.Sees (.top [name] [])) := by
  have hreturn : ∀ w ∈ ["var", "function"], Lacks w [.word "return", .word name, .mark ';'] := by
    intro w hw
    refine .word (isWord_of_mem_keywords (by decide)) ?_ (solid_word hname _)
    rintro rfl
    exact absurd hw (by decide)
  have hvar := hreturn "var" (by decide)
  have hplace : (Names.top [name] []).place? name = some (.global 0) := by
    simp [Names.place?, Names.top, Names.frameNames]
  have hdecl : Gives (Reader.declaration settings)
      (.word name :: .mark '=' :: t :: .mark ';' :: [.word "return", .word name, .mark ';'])
      (Scope.Sees (.top [] [])) (fun d => IsName name ∧ d = ⟨name, .global 0, some (.literal v)⟩)
      (.mark ';' :: [.word "return", .word name, .mark ';']) (Scope.Sees (.top [name] [])) :=
    declaration hname (fun hmem => by cases hmem) hplace hspelled ⟨';', _, by decide, rfl⟩
  refine (declarations hdecl (opensOperand_word hname).starts hvar).bind fun decls hdecls => ?_
  obtain ⟨_, rfl, hisName, rfl⟩ := hdecls
  refine (Yields.noFunctions (hreturn "function" (by decide))).bind_gives ?_
  refine (Yields.noDeclarations hvar).bind_gives ?_
  have hbody : Gives (Reader.statementTurn settings)
      [.word "return", .word name, .mark ';'] (Scope.Sees (.top [name] []))
      (fun o => ∃ st, o = some st ∧
        ∃ e, Expr.IsWordOperand name (.global 0) e ∧ st = .ret (some e)) []
      (Scope.Sees (.top [name] [])) := by
    have hword : IsWord "return" := isWord_of_mem_keywords (by decide)
    refine (Yields.not_atEnd ((begins_word hword _).mono fun _ _ => trivial)).bind_gives ?_
    have hsolid : Solid [] := trivial
    exact (returnWord hisName hplace hsolid).bind fun st hst => pure ⟨st, rfl, hst⟩
  refine (hbody.loop (Yields.atEnd.bind (.pure none))).bind fun body hbody => ?_
  obtain ⟨_, rfl, e, he, rfl⟩ := hbody
  refine bind_scope fun s hs => ?_
  have hglobals : s.globals.names = [name] := congrArg Names.globals hs.2
  rw [hglobals]
  exact pure ⟨e, he, rfl⟩

/-- **Where the script is accepted, it is read as it is meant, up to its last operand.** -/
theorem compile_readBack {settings : Settings} {name literal : String} {v : Value} {p : Program}
    (hname : IsWord name) (hspelled : v.Spelled (.number literal.toList))
    (hp : compile settings (readBack name literal) = .ok p) :
    ∃ e, Expr.IsWordOperand name (.global 0) e ∧ p = (Script.readBack name v e).program := by
  have hsolid : Solid (readBackTokens name (.number literal.toList)) :=
    solid_word (isWord_of_mem_keywords (by decide)) _
  rw [compile_eq] at hp
  unfold Reader.run at hp
  cases hread : Reader.script settings ⟨(readBack name literal).toList, ∅⟩ with
  | error e r =>
    rw [hread] at hp
    cases hp
  | ok s r =>
    rw [hread] at hp
    cases hp
    obtain ⟨⟨e, he, rfl⟩, -⟩ := Reader.Gives.script hname hspelled _
      ((renders_readBack name literal).remain hsolid) ⟨Scope.valid_empty, rfl⟩ s r hread
    exact ⟨e, he, rfl⟩

/-! ## Running the script -/

namespace Machine

variable {p : Program} {l l' : Limits} {m m' : Machine} {v w : Value} {n : Nat}

theorem runFor_tick {result : EStateM.Result Fault Machine Value} (ht : tick l p m = .ok none m')
    (h : runFor l p n m' = some result) : runFor l p (n + 1) m = some result := by
  unfold runFor
  rw [ht]
  exact h

/-- A value that comes out without a bound on steps comes out wherever there is as much room and the
bound allows as many steps. -/
theorem runFor_of_limits (hnone : l.maxSteps = none) (hstack : l.maxStack ≤ l'.maxStack)
    (hdepth : l.maxDepth ≤ l'.maxDepth) (hsteps : ∀ bound ∈ l'.maxSteps, m.steps + n ≤ bound)
    (h : runFor l p n m = some (.ok v m')) : runFor l' p n m = some (.ok v m') := by
  obtain ⟨maxStack, maxDepth, maxSteps⟩ := l'
  have hroom : runFor ⟨maxStack, maxDepth, none⟩ p n m = some (.ok v m') := by
    refine runFor_of_room ?_ ?_ ?_ h fun _ _ heq => by cases heq
    · exact hnone
    · exact hstack
    · exact hdepth
  cases maxSteps with
  | none => exact hroom
  | some bound =>
    rw [← hroom]
    exact (runFor_of_le_bound (l := ⟨maxStack, maxDepth, none⟩) (hsteps bound rfl)).1

end Machine

namespace Program

open Machine

/-- Stores a value in a global and returns what one more instruction loads. -/
def readBack (name : String) (v : Value) (load : Instr) : Program where
  code := ⟨#[.push v, .endOfExpression, .setGlobal 0, .jump 4, load, .endOfExpression, .ret 0 0,
    .push (.int 0), .endOfExpression, .ret 0 0]⟩
  globals := [name]
  functions := []

/-- The run of `readBack` on a stack of one cell, tick by tick. -/
theorem runFor_readBack {name : String} {v w : Value} {load : Instr}
    (hload : tick ⟨1, 0, none⟩ (readBack name v load) ⟨#[], [], #[v], 4, 0, #[], 4⟩ =
      .ok none ⟨#[.value w], [], #[v], 5, 0, #[], 5⟩) :
    runFor ⟨1, 0, none⟩ (readBack name v load) 7 (idle.start (readBack name v load)) =
      some (.ok w ⟨#[], [], #[v], 7, 0, #[], 7⟩) := by
  have hpush : tick ⟨1, 0, none⟩ (readBack name v load) (idle.start (readBack name v load)) =
      .ok none ⟨#[.value v], [], #[.undefined], 1, 0, #[], 1⟩ := rfl
  have hend : tick ⟨1, 0, none⟩ (readBack name v load)
      ⟨#[.value v], [], #[.undefined], 1, 0, #[], 1⟩ =
        .ok none ⟨#[.value v], [], #[.undefined], 2, 0, #[], 2⟩ := rfl
  have hset : tick ⟨1, 0, none⟩ (readBack name v load)
      ⟨#[.value v], [], #[.undefined], 2, 0, #[], 2⟩ =
        .ok none ⟨#[], [], #[v], 3, 0, #[], 3⟩ := rfl
  have hjump : tick ⟨1, 0, none⟩ (readBack name v load) ⟨#[], [], #[v], 3, 0, #[], 3⟩ =
      .ok none ⟨#[], [], #[v], 4, 0, #[], 4⟩ := rfl
  have hend' : tick ⟨1, 0, none⟩ (readBack name v load) ⟨#[.value w], [], #[v], 5, 0, #[], 5⟩ =
      .ok none ⟨#[.value w], [], #[v], 6, 0, #[], 6⟩ := rfl
  have hret : tick ⟨1, 0, none⟩ (readBack name v load) ⟨#[.value w], [], #[v], 6, 0, #[], 6⟩ =
      .ok (some w) ⟨#[], [], #[v], 7, 0, #[], 7⟩ := rfl
  refine runFor_tick hpush (runFor_tick hend (runFor_tick hset (runFor_tick hjump ?_)))
  exact runFor_tick hload (runFor_tick hend' (runFor_lastTick hret))

theorem run?_readBack {name : String} {v w : Value} {load : Instr} {limits : Limits}
    (hcheck : (readBack name v load).check = .ok ()) (hstack : 1 ≤ limits.maxStack)
    (hsteps : ∀ bound ∈ limits.maxSteps, 7 ≤ bound)
    (hload : tick ⟨1, 0, none⟩ (readBack name v load) ⟨#[], [], #[v], 4, 0, #[], 4⟩ =
      .ok none ⟨#[.value w], [], #[v], 5, 0, #[], 5⟩) :
    (readBack name v load).run? limits 7 = some (.ok w) := by
  have hrun := runFor_of_limits rfl hstack (Nat.zero_le _) hsteps (runFor_readBack hload)
  rw [Program.run?, run?_eq hcheck, hrun]
  rfl

/-- A program has one result, however many ticks it is given. -/
theorem run?_unique {p : Program} {limits : Limits} {fuel fuel' : Nat}
    {result result' : Except Fault Value} (hcheck : p.check = .ok ())
    (h : p.run? limits fuel = some result) (h' : p.run? limits fuel' = some result') :
    result = result' := by
  rw [Program.run?, run?_eq hcheck] at h h'
  simp only [Option.map_map, Option.map_eq_some_iff] at h h'
  obtain ⟨r, hr, rfl⟩ := h
  obtain ⟨r', hr', rfl⟩ := h'
  rw [runFor_unique hr hr']

end Program

theorem Literal.written_digits {ds : List Char} (hne : ds ≠ []) (hds : AreDigits ds) :
    (Numeral.mk ds none none).Written ds :=
  ⟨hds, .inl hne, [], [], .none, .none, by simp⟩

/-- **A variable can be read back unless its name is a number.** Let the script that stores the
digits of a 64-bit integer in a variable and returns the variable be accepted for a word as the
name. On at least one cell of stack it ends after seven steps. If the word is no number literal, it
returns the integer that was stored, and else the number that the word is. -/
theorem variable_reads_back {settings : Settings} {name literal : String} {p : Program}
    (hname : IsWord name) (hne : literal.toList ≠ []) (hdigits : AreDigits literal.toList)
    (hfits : decimal literal.toList < 2 ^ 63)
    (hp : compile settings (readBack name literal) = .ok p) (limits : Limits)
    (hstack : 1 ≤ limits.maxStack) (hsteps : ∀ bound ∈ limits.maxSteps, 7 ≤ bound) :
    (name.toList ∉ Grammar.number →
      ∃ i : Int64, i.toInt = decimal literal.toList ∧ p.run? limits 7 = some (.ok (.int i))) ∧
    (name.toList ∈ Grammar.number →
      ∃ v, Scanner.number name.toList = .ok (some v) [] ∧ p.run? limits 7 = some (.ok v)) := by
  have hvalue : (Numeral.mk literal.toList none none).value? =
      some (.int (Int64.ofNat (decimal literal.toList))) := by
    rw [value?_digits, if_pos hfits]
  have hcheck := (check_compiled (.inl hp)).1
  obtain ⟨e, he, rfl⟩ := compile_readBack hname (.number (written_digits hne hdigits) hvalue) hp
  constructor
  · intro hno
    obtain rfl := he.ofName hno
    exact ⟨_, toInt_ofNat_decimal hfits, Program.run?_readBack hcheck hstack hsteps rfl⟩
  · intro hnumber
    obtain ⟨v, hv, rfl⟩ := he.ofNumber hnumber
    exact ⟨v, hv, Program.run?_readBack hcheck hstack hsteps rfl⟩

/-- The name begins like a number with an exponent. -/
theorem variable_reads_back_exponent :
    "5e".toList ∉ Grammar.number ∧ ∃ p, compile .standard (readBack "5e" "007") = .ok p ∧
      ∃ i : Int64, i.toInt = 7 ∧ p.run? .standard 7 = some (.ok (.int i)) := by
  have hok : (compile .standard (readBack "5e" "007")).isOk := by decide +kernel
  have hno : "5e".toList ∉ Grammar.number := by decide
  cases hp : compile .standard (readBack "5e" "007") with
  | error d =>
    rw [hp] at hok
    cases hok
  | ok p =>
    have hdigits : AreDigits "007".toList := List.all_eq_true.mp (by decide)
    have hread := variable_reads_back (.of_all (by decide) (by decide)) (by decide) hdigits
      (by decide) hp .standard (by decide) fun _ hbound => by cases hbound
    exact ⟨hno, p, rfl, hread.1 hno⟩

/-- The names of some variables are numbers: where `5` was stored in `12`, the script returns
`12`. -/
theorem not_every_variable_reads_back :
    ¬ ∀ (name literal : String) (p : Program), IsWord name → literal.toList ≠ [] →
      AreDigits literal.toList → decimal literal.toList < 2 ^ 63 →
      compile .standard (readBack name literal) = .ok p →
        ∃ (i : Int64) (fuel : Nat), i.toInt = decimal literal.toList ∧
          p.run? .standard fuel = some (.ok (.int i)) := by
  intro hevery
  have hname : IsWord "12" := .of_all (by decide) (by decide)
  have hdigits : AreDigits "5".toList := List.all_eq_true.mp (by decide)
  have hok : (compile .standard (readBack "12" "5")).isOk := by decide +kernel
  cases hp : compile .standard (readBack "12" "5") with
  | error d =>
    rw [hp] at hok
    cases hok
  | ok p =>
    obtain ⟨i, fuel, hi, hrun⟩ :=
      hevery "12" "5" p hname (by decide) hdigits (by decide) hp
    have hcheck := (check_compiled (.inl hp)).1
    obtain ⟨e, he, rfl⟩ :=
      compile_readBack hname (.number (written_digits (by decide) hdigits) rfl) hp
    obtain ⟨v, hv, rfl⟩ := he.ofNumber (by decide)
    obtain rfl : v = .int 12 := by
      have htwelve : Scanner.number "12".toList = .ok (some (.int 12)) [] := rfl
      cases htwelve.symm.trans hv
      rfl
    have hend : (Program.readBack "12" (.int 5) (.push (.int 12))).run? .standard 7 =
        some (.ok (.int 12)) :=
      Program.run?_readBack hcheck (by decide) (fun _ hbound => by cases hbound) rfl
    cases Program.run?_unique hcheck hrun hend
    exact absurd hi (by decide)

end StackScript
