import StackScript.Program.Listing
import StackScript.Proofs.Text.Legible

/-!
# What a listing tells

Two programs that differ in their code only, and have the same listing, have the same code
(`Program.code_eq_of_listing_eq`): nothing that tells two instructions apart is lost on the way to
the text. The first twelve characters of an instruction's text are its mnemonic (`Instr.mnemonic`),
the rest its operands (`Program.operandText`), and of each kind of instruction the operands can be
read off that rest. No name and no constant breaks a line, so the lines can be told apart too.
Doubles have to be left out, since all that are not a number are written alike.
-/

namespace StackScript

open Text

/-! ## Constants -/

namespace Value

variable {v w : Value}

/-- The type of a literal that is no double, by its first character. -/
def typeLedBy (c : Char) : ValueType :=
  if c = 'u' then .undefined
  else if c = '"' then .string
  else if c = 't' ∨ c = 'f' then .bool
  else .int

theorem typeLedBy_of_isDigit {c : Char} (hc : c.isDigit) : typeLedBy c = .int := by
  have hne {d : Char} (hd : d.isDigit = false) : c ≠ d := by
    rintro rfl
    exact Bool.false_ne_true (hd.symm.trans hc)
  rw [typeLedBy, if_neg (hne rfl), if_neg (hne rfl), if_neg (not_or.mpr ⟨hne rfl, hne rfl⟩)]

theorem toList_literal_int (n : Int64) :
    (int n).literal.toList =
      (if n.toInt < 0 then ['-'] else []) ++ Nat.toDigits 10 n.toInt.natAbs :=
  toList_toString_int n.toInt

theorem exists_lead_literal (hv : v.type ≠ .double) :
    ∃ c, v.literal.toList.head? = some c ∧ typeLedBy c = v.type := by
  cases v with
  | undefined => exact ⟨'u', rfl, rfl⟩
  | int n =>
    rw [toList_literal_int]
    split
    · exact ⟨'-', rfl, rfl⟩
    · obtain ⟨c, s, hdigits⟩ := List.exists_cons_of_ne_nil (Nat.toDigits_ne_nil (b := 10))
      rw [hdigits]
      have hc := isDigit_of_mem_toDigits _ c (hdigits ▸ List.mem_cons_self)
      exact ⟨c, rfl, typeLedBy_of_isDigit hc⟩
  | double x => exact absurd rfl hv
  | string s =>
    refine ⟨'"', ?_, rfl⟩
    change (quoted s).toList.head? = _
    rw [quoted, String.toList_ofList, List.head?_cons]
  | bool b => cases b with
    | true => exact ⟨'t', rfl, rfl⟩
    | false => exact ⟨'f', rfl, rfl⟩

theorem type_eq_of_literal_eq (hv : v.type ≠ .double) (hw : w.type ≠ .double)
    (h : v.literal.toList = w.literal.toList) : v.type = w.type := by
  obtain ⟨c, hhead, hc⟩ := exists_lead_literal hv
  obtain ⟨d, hhead', hd⟩ := exists_lead_literal hw
  rw [h, hhead', Option.some.injEq] at hhead
  rw [← hc, ← hd, hhead]

theorem literal_inj (hv : v.type ≠ .double) (hw : w.type ≠ .double)
    (h : v.literal.toList = w.literal.toList) : v = w := by
  have htype := type_eq_of_literal_eq hv hw h
  cases v <;> cases w <;> cases htype
  case undefined.undefined => rfl
  case int.int m n => exact congrArg int (Int64.toInt_inj.mp (toString_int_inj h))
  case double.double => exact absurd rfl hv
  case string.string s t => exact congrArg string (quoted_inj h)
  case bool.bool b b' =>
    have hinj : ∀ b b' : Bool, (bool b).literal.toList = (bool b').literal.toList → b = b' := by
      decide
    exact congrArg bool (hinj b b' h)

theorem newline_notMem_literal (hv : v.type ≠ .double) : '\n' ∉ v.literal.toList := by
  cases v with
  | undefined => decide
  | int n =>
    rw [toList_literal_int, List.mem_append, not_or]
    refine ⟨?_, newline_notMem_toDigits _⟩
    split <;> decide
  | double x => exact absurd rfl hv
  | string s => exact newline_notMem_quoted s
  | bool b => cases b <;> decide

end Value

/-! ## Instructions -/

/-- What an instruction's text begins with, up to the column of the operands. -/
def Instr.mnemonic : Instr → String
  | push _ => "PUSH        "
  | getGlobal _ => "GET_GLOBAL  "
  | setGlobal _ => "SET_GLOBAL  "
  | getLocal _ => "GET_LOCAL   "
  | setLocal _ => "SET_LOCAL   "
  | declareLocal => "DECL_LOCAL"
  | jump _ => "JUMP        "
  | jumpIfFalse _ => "JUMP_FALSE  "
  | call _ => "CALL        "
  | ret _ _ => "RETURN      "
  | operator _ => "OP          "
  | pop => "POP"

namespace Program

/-- The name of the function that is called. -/
def calleeName (p : Program) (target : Nat) : String := ((p.functionAt? target).map (·.name)).getD "?"

/-- What an instruction's text holds behind the mnemonic. -/
def operandText (p : Program) : Instr → String
  | .push v => v.literal
  | .getGlobal slot | .setGlobal slot => toString slot ++ (" (" ++ (p.globalName slot ++ ")"))
  | .getLocal offset | .setLocal offset => Text.signed offset
  | .jump target | .jumpIfFalse target => targetText target
  | .call target => p.calleeName target ++ (" (→ " ++ (Text.index target ++ ")"))
  | .ret params locals => "; params=" ++ (toString params ++ (" locals=" ++ toString locals))
  | .operator op => op.symbol
  | .declareLocal | .pop => ""

theorem instrText_eq (p : Program) (i : Instr) : p.instrText i = i.mnemonic ++ p.operandText i := by
  cases i with
  | push | getLocal | setLocal | jump | jumpIfFalse | operator => rfl
  | declareLocal | pop => exact String.append_empty.symm
  | getGlobal | setGlobal | call =>
    change _ ++ _ ++ _ ++ _ ++ _ = _
    simp only [String.append_assoc]
    rfl
  | ret params locals =>
    have hmnemonic : "RETURN      ; params=" = "RETURN      " ++ "; params=" := rfl
    change "RETURN      ; params=" ++ _ ++ _ ++ _ = _
    simp only [hmnemonic, String.append_assoc]
    rfl

theorem take_instrText (p : Program) (i : Instr) :
    (p.instrText i).toList.take 12 = i.mnemonic.toList := by
  rw [instrText_eq, String.toList_append]
  cases i with
  | declareLocal | pop => rfl
  | _ =>
    dsimp only [Instr.mnemonic]
    exact List.take_left' (by decide)

theorem mnemonic_and_operandText_eq {p : Program} {i j : Instr}
    (h : (p.instrText i).toList = (p.instrText j).toList) :
    i.mnemonic = j.mnemonic ∧ (p.operandText i).toList = (p.operandText j).toList := by
  have hmnemonic : i.mnemonic = j.mnemonic := by
    rw [← String.toList_inj, ← take_instrText p i, h, take_instrText]
  rw [instrText_eq, instrText_eq, hmnemonic, String.toList_append, String.toList_append] at h
  exact ⟨hmnemonic, List.append_cancel_left h⟩

/-! ### The operands of each kind -/

section Operands

variable {m n m' n' : Nat} {name name' : List Char}

theorem slot_inj (h : (toString m).toList ++ (" (".toList ++ name) =
    (toString n).toList ++ (" (".toList ++ name')) : m = n := by
  rw [toList_toString_nat, toList_toString_nat] at h
  exact (toDigits_append_inj (stops_append rfl) (stops_append rfl) h).1

/-- The placeholder of an open target is no index. -/
theorem placeholder_ne_index (n : Nat) : "→ ????".toList ≠ ("→ " ++ Text.index n).toList := by
  intro h
  rw [String.toList_append, (by decide : "→ ????".toList = "→ ".toList ++ "????".toList)] at h
  have hmark : '?' ∈ (Text.index n).toList := List.append_cancel_left h ▸ (by decide)
  exact notMem_of_isDigit (isDigit_of_mem_index n) rfl hmark

theorem targetText_inj (h : (targetText m).toList = (targetText n).toList) : m = n := by
  unfold targetText at h
  split at h <;> split at h
  · rename_i hm hn
    rw [hm, hn]
  · exact absurd h (placeholder_ne_index n)
  · exact absurd h.symm (placeholder_ne_index m)
  · rw [String.toList_append, String.toList_append] at h
    exact index_inj (List.append_cancel_left h)

/-- A name may hold anything, so that the target is read from the end. -/
theorem callee_inj (h : name ++ (" (→ ".toList ++ ((Text.index m).toList ++ ")".toList)) =
    name' ++ (" (→ ".toList ++ ((Text.index n).toList ++ ")".toList))) : m = n := by
  have hback := congrArg List.reverse h
  simp only [List.reverse_append, List.append_assoc] at hback
  have hdigits (k : Nat) : ∀ c ∈ (Text.index k).toList.reverse, c.isDigit :=
    fun c hc => isDigit_of_mem_index k c (List.mem_reverse.mp hc)
  obtain ⟨hindex, -⟩ := append_inj_of_stops (hdigits m) (hdigits n) (stops_append rfl)
    (stops_append rfl) (List.append_cancel_left hback)
  exact index_inj (List.reverse_inj.mp hindex)

theorem counts_inj (h : (toString m).toList ++ (" locals=".toList ++ (toString m').toList) =
    (toString n).toList ++ (" locals=".toList ++ (toString n').toList)) : m = n ∧ m' = n' := by
  simp only [toList_toString_nat] at h
  obtain ⟨hfirst, hrest⟩ := toDigits_append_inj (stops_append rfl) (stops_append rfl) h
  exact ⟨hfirst, toDigits_ten_inj (List.append_cancel_left hrest)⟩

theorem symbol_inj {op op' : Operator} (h : op.symbol = op'.symbol) : op = op' := by
  cases op <;> cases op' <;> simp [Operator.symbol] at h ⊢

end Operands

/-- One case for each kind of instruction: the mnemonic tells the kind. -/
theorem instrText_inj {p : Program} {i j : Instr} (hi : ∀ v, i = .push v → v.type ≠ .double)
    (hj : ∀ v, j = .push v → v.type ≠ .double)
    (h : (p.instrText i).toList = (p.instrText j).toList) : i = j := by
  obtain ⟨hmnemonic, hoperands⟩ := mnemonic_and_operandText_eq h
  cases i <;> cases j <;> simp only [Instr.mnemonic, String.reduceEq] at hmnemonic
  case push.push v w =>
    exact congrArg Instr.push (Value.literal_inj (hi v rfl) (hj w rfl) hoperands)
  case getGlobal.getGlobal m n | setGlobal.setGlobal m n =>
    simp only [operandText, String.toList_append] at hoperands
    rw [slot_inj hoperands]
  case getLocal.getLocal a b | setLocal.setLocal a b => rw [signed_inj hoperands]
  case declareLocal.declareLocal | pop.pop => rfl
  case jump.jump m n | jumpIfFalse.jumpIfFalse m n => rw [targetText_inj hoperands]
  case call.call m n =>
    simp only [operandText, String.toList_append] at hoperands
    rw [callee_inj hoperands]
  case ret.ret m m' n n' =>
    simp only [operandText, String.toList_append] at hoperands
    obtain ⟨rfl, rfl⟩ := counts_inj (List.append_cancel_left hoperands)
    rfl
  case operator.operator op op' => rw [symbol_inj (String.toList_inj.mp hoperands)]

/-! ## Lines -/

/-- No name of a program breaks a line. -/
structure NamesUnbroken (p : Program) : Prop where
  globals : ∀ name ∈ p.globals, '\n' ∉ name.toList
  functions : ∀ f ∈ p.functions, '\n' ∉ f.name.toList

section Lines

variable {p q : Program} {i j : Instr}

theorem newline_notMem_globalName (hp : p.NamesUnbroken) (slot : Nat) :
    '\n' ∉ (p.globalName slot).toList := by
  unfold globalName
  cases hname : p.globals[slot]? with
  | none => decide
  | some name => exact hp.globals name (List.mem_of_getElem? hname)

theorem newline_notMem_calleeName (hp : p.NamesUnbroken) (target : Nat) :
    '\n' ∉ (p.calleeName target).toList := by
  unfold calleeName
  cases hfound : p.functionAt? target with
  | none => decide
  | some f => exact hp.functions f (List.mem_of_find?_eq_some hfound)

theorem newline_notMem_targetText (target : Nat) : '\n' ∉ (targetText target).toList := by
  unfold targetText
  split
  · decide
  · rw [String.toList_append, List.mem_append, not_or]
    exact ⟨by decide, newline_notMem_index target⟩

theorem newline_notMem_symbol (op : Operator) : '\n' ∉ op.symbol.toList := by
  cases op <;> decide

theorem newline_notMem_instrText (hp : p.NamesUnbroken) (hi : ∀ v, i = .push v → v.type ≠ .double) :
    '\n' ∉ (p.instrText i).toList := by
  have hmnemonic : '\n' ∉ i.mnemonic.toList := by
    cases i <;> dsimp only [Instr.mnemonic] <;> decide
  have hoperands : '\n' ∉ (p.operandText i).toList := by
    cases i with
    | push v => exact Value.newline_notMem_literal (hi v rfl)
    | getGlobal slot | setGlobal slot =>
      simp [operandText, newline_notMem_globalName hp, newline_notMem_toDigits]
    | getLocal k | setLocal k => exact newline_notMem_signed k
    | declareLocal | pop => exact List.not_mem_nil
    | jump target | jumpIfFalse target => exact newline_notMem_targetText target
    | call target => simp [operandText, newline_notMem_calleeName hp, newline_notMem_index]
    | ret params locals => simp [operandText, newline_notMem_toDigits]
    | operator op => exact newline_notMem_symbol op
  rw [instrText_eq, String.toList_append, List.mem_append, not_or]
  exact ⟨hmnemonic, hoperands⟩

/-- Of a program, the text of an instruction takes the names only. -/
theorem instrText_congr (hglobals : p.globals = q.globals) (hfunctions : p.functions = q.functions)
    (i : Instr) : p.instrText i = q.instrText i := by
  obtain ⟨code, globals, functions⟩ := p
  obtain ⟨code', globals', functions'⟩ := q
  cases hglobals
  cases hfunctions
  cases i <;> rfl

theorem heading?_congr (hfunctions : p.functions = q.functions) (index : Nat) :
    p.heading? index = q.heading? index := by
  rw [heading?, heading?, hfunctions]

/-- The lines of an instruction: a heading or none, the index, a mark and the text. -/
theorem toList_instrLines (p : Program) (i : Instr) (index : Nat) :
    ∃ mark, (p.instrLines i index).toList =
      ((p.heading? index).getD "").toList ++ ((Text.index index).toList ++
        ' ' :: mark :: ' ' :: ((p.instrText i).toList ++ ['\n'])) := by
  refine ⟨if p.isJumpTarget index then '►' else ' ', ?_⟩
  unfold instrLines
  split <;> simp only [String.toList_append, List.append_assoc] <;> rfl

/-- The first line that belongs to an instruction tells which one it is. -/
theorem instrLines_append_inj (hnames : p.NamesUnbroken) (hglobals : p.globals = q.globals)
    (hfunctions : p.functions = q.functions) (hi : ∀ v, i = .push v → v.type ≠ .double)
    (hj : ∀ v, j = .push v → v.type ≠ .double) {index : Nat} {s t : List Char}
    (h : (p.instrLines i index).toList ++ s = (q.instrLines j index).toList ++ t) :
    i = j ∧ s = t := by
  obtain ⟨mark, hlines⟩ := toList_instrLines p i index
  obtain ⟨mark', hlines'⟩ := toList_instrLines q j index
  rw [hlines, hlines', heading?_congr hfunctions, ← instrText_congr hglobals hfunctions] at h
  simp only [List.append_assoc, List.append_cancel_left_eq, List.cons_append, List.nil_append,
    List.cons.injEq, true_and] at h
  obtain ⟨htext, hrest⟩ := append_terminator_inj (newline_notMem_instrText hnames hi)
    (newline_notMem_instrText hnames hj) h.2
  exact ⟨instrText_inj hi hj htext, hrest⟩

/-- The lines of some instructions, the first one with a given index. -/
def linesFrom (p : Program) (index : Nat) (instrs : List Instr) : List Char :=
  (instrs.zipIdx index).flatMap fun x => (p.instrLines x.1 x.2).toList

/-- By induction on the instructions, line by line. -/
theorem linesFrom_inj (hnames : p.NamesUnbroken) (hglobals : p.globals = q.globals)
    (hfunctions : p.functions = q.functions) {is js : List Instr} {index : Nat}
    (hlength : is.length = js.length) (his : ∀ v, .push v ∈ is → v.type ≠ .double)
    (hjs : ∀ v, .push v ∈ js → v.type ≠ .double)
    (h : p.linesFrom index is = q.linesFrom index js) : is = js := by
  induction is generalizing js index with
  | nil => exact (List.length_eq_zero_iff.mp hlength.symm).symm
  | cons i is ih =>
    cases js with
    | nil => cases hlength
    | cons j js =>
      obtain ⟨rfl, hrest⟩ := instrLines_append_inj hnames hglobals hfunctions
        (fun v hv => his v (hv ▸ List.mem_cons_self)) (fun v hv => hjs v (hv ▸ List.mem_cons_self)) h
      rw [ih (Nat.succ.inj hlength) (fun v hv => his v (List.mem_cons_of_mem _ hv))
        (fun v hv => hjs v (List.mem_cons_of_mem _ hv)) hrest]

end Lines

/-- What stands in a listing between the number of instructions and the first of them. -/
def headEnd (globals : List String) : String :=
  " instructions\n" ++
    ((if globals.isEmpty then "" else " globals: " ++ ", ".intercalate globals ++ "\n") ++
      (rule ++ "\n"))

theorem toList_listing (p : Program) :
    p.listing.toList = rule.toList ++ ("\n program: ".toList ++ (Nat.toDigits 10 p.code.size ++
      ((headEnd p.globals).toList ++ p.linesFrom 0 p.code.instrs.toList))) := by
  have hstart : "\n program: ".toList = "\n".toList ++ " program: ".toList := by decide
  change (rule ++ "\n" ++ (" program: " ++ toString p.code.size ++ " instructions\n") ++
    (if p.globals.isEmpty then _ else _) ++ rule ++ "\n" ++ String.join _).toList = _
  simp only [headEnd, linesFrom, String.toList_append, String.toList_join, List.flatMap_map,
    List.append_assoc, hstart, toList_toString_nat]

/-- A listing shows all there is to the code: programs with the same names, no double among their
constants and the same listing run the same instructions. -/
theorem code_eq_of_listing_eq {p q : Program} (hglobals : p.globals = q.globals)
    (hfunctions : p.functions = q.functions) (hnames : p.NamesUnbroken)
    (hp : ∀ v, .push v ∈ p.code.instrs → v.type ≠ .double)
    (hq : ∀ v, .push v ∈ q.code.instrs → v.type ≠ .double) (h : p.listing = q.listing) :
    p.code = q.code := by
  rw [← String.toList_inj, toList_listing, toList_listing, hglobals] at h
  have hstops {s : List Char} : Stops Char.isDigit ((headEnd q.globals).toList ++ s) := by
    rw [headEnd, String.toList_append, List.append_assoc]
    exact stops_append rfl
  obtain ⟨hsize, hrest⟩ := toDigits_append_inj hstops hstops
    (List.append_cancel_left (List.append_cancel_left h))
  have hinstrs := linesFrom_inj hnames hglobals hfunctions hsize
    (fun v hv => hp v (Array.mem_toList_iff.mp hv)) (fun v hv => hq v (Array.mem_toList_iff.mp hv))
    (List.append_cancel_left hrest)
  exact congrArg Code.mk (Array.toList_inj.mp hinstrs)

/-- A call of `f` whose result nobody takes, and a string that has to be escaped. -/
def discarding : Program where
  code := .ofList [.operator .prepareCall, .push (.string "a\n\"b\\"), .endOfExpression, .call 7, .pop,
    .jumpIfFalse Instr.unpatched, .ret 0 0, .getLocal 1, .setGlobal 0, .ret 1 0]
  globals := ["x"]
  functions := [⟨"f", 7, 1, 0⟩]

/-- The same listing from a stream that was emitted one instruction after the other. -/
theorem code_eq_of_listing_eq_discarding :
    let emitted := (Code.ofList [.operator .prepareCall, .push (.string "a\n\"b\\"),
      .endOfExpression, .call 7, .pop]).reserveJumpIfFalse.2.push (.ret 0 0)
    let q := { discarding with
      code := (((emitted.2.push (.getLocal 1)).2.push (.setGlobal 0)).2.push (.ret 1 0)).2 }
    discarding.listing = q.listing ∧ discarding.code = q.code := by
  intro emitted q
  have hlisting : discarding.listing = q.listing := by decide +kernel
  have hnames : discarding.NamesUnbroken := ⟨by decide, by decide⟩
  have hp : ∀ v, .push v ∈ discarding.code.instrs → v.type ≠ .double := by
    simp [discarding, Code.ofList, Value.type]
  have hq : ∀ v, .push v ∈ q.code.instrs → v.type ≠ .double := by
    simp [q, emitted, Code.ofList, Code.reserveJumpIfFalse, Code.push, Value.type]
  exact ⟨hlisting, code_eq_of_listing_eq rfl rfl hnames hp hq hlisting⟩

end Program

end StackScript
