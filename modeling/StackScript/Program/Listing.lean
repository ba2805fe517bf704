import StackScript.Program
import StackScript.Text.Numeral

/-!
# Listings

A listing shows a program one instruction a line, with its index, a mark on the targets of jumps
and a heading where a function body starts. It is made for readers: nothing reads a listing back.
-/

namespace StackScript.Program

/-- The line above and below the head of a listing. -/
def rule : String := String.ofList (List.replicate 40 '═')

/-- The name of a global in a listing. -/
def globalName (p : Program) (slot : Nat) : String := (p.globals[slot]?).getD "?"

/-- The target of a jump in a listing. -/
def targetText (target : Nat) : String :=
  if target = Instr.unpatched then "→ ????" else "→ " ++ Text.index target

/-- The text of an instruction in a listing. -/
def instrText (p : Program) : Instr → String
  | .push v => "PUSH        " ++ v.literal
  | .getGlobal slot => s!"GET_GLOBAL  {slot} ({p.globalName slot})"
  | .setGlobal slot => s!"SET_GLOBAL  {slot} ({p.globalName slot})"
  | .getLocal offset => "GET_LOCAL   " ++ Text.signed offset
  | .setLocal offset => "SET_LOCAL   " ++ Text.signed offset
  | .declareLocal => "DECL_LOCAL"
  | .jump target => "JUMP        " ++ targetText target
  | .jumpIfFalse target => "JUMP_FALSE  " ++ targetText target
  | .call target =>
    let name := ((p.functionAt? target).map (·.name)).getD "?"
    s!"CALL        {name} (→ {Text.index target})"
  | .ret params locals => s!"RETURN      ; params={params} locals={locals}"
  | .operator op => "OP          " ++ op.symbol
  | .pop => "POP"

/-- The heading at an index: the last function that starts there. -/
def heading? (p : Program) (index : Nat) : Option String :=
  (p.functions.reverse.find? (·.entry == index)).map fun f =>
    s!"\n{f.name}/{f.params}  ; {f.locals} local(s)\n"

/-- Whether some jump leads to an index. -/
def isJumpTarget (p : Program) (index : Nat) : Bool :=
  p.code.instrs.any fun i => i.jumpTarget? == some index

/-- The lines of one instruction. -/
def instrLines (p : Program) (i : Instr) (index : Nat) : String :=
  let mark := if p.isJumpTarget index then "►" else " "
  (p.heading? index).getD "" ++ Text.index index ++ " " ++ mark ++ " " ++ p.instrText i ++ "\n"

/-- The listing of a program. -/
def listing (p : Program) : String :=
  let globals :=
    if p.globals.isEmpty then "" else " globals: " ++ ", ".intercalate p.globals ++ "\n"
  rule ++ "\n" ++ s!" program: {p.code.size} instructions\n" ++ globals ++ rule ++ "\n" ++
    String.join (p.code.instrs.toList.zipIdx.map fun (i, index) => p.instrLines i index)

end StackScript.Program
