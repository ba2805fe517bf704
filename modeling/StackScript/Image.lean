import StackScript.Image.Bytes
import StackScript.Program

/-!
# Program images

The bytes of a program: its instructions, the names of its globals and its functions, each a
sequence. A constructor is written as its number and then its fields. Bytes after the program are
not looked at. Numbers in a program have no bound; one whose numbers fit the widths of the format is
read back as it was.
-/

namespace StackScript

namespace Image

/-- An operator is its number. -/
def operator (op : Operator) : List UInt8 := varint (Operator.all.idxOf op)

/-- Reads an operator. -/
def readOperator : Decoder Operator := do
  match Operator.all[← readWord32]? with
  | some op => return op
  | none => throw .unknownVariant

/-- A value is the number of its type, then its payload. -/
def value : Value → List UInt8
  | .undefined => varint 0
  | .int n => varint 1 ++ varint (zigzag n.toInt)
  | .double x => varint 2 ++ double x
  | .string s => varint 3 ++ string s
  | .bool b => varint 4 ++ bool b

/-- Reads a value. -/
def readValue : Decoder Value := do
  match ← readWord32 with
  | 0 => return .undefined
  | 1 => return .int (Int64.ofInt (ofZigzag (← readWord64)))
  | 2 => return .double (← readDouble)
  | 3 => return .string (← readString)
  | 4 => return .bool (← readBool)
  | _ => throw .unknownVariant

/-- An instruction is its number, then its operands. -/
def instr : Instr → List UInt8
  | .push v => varint 0 ++ value v
  | .getGlobal slot => varint 1 ++ varint slot
  | .setGlobal slot => varint 2 ++ varint slot
  | .getLocal offset => varint 3 ++ varint (zigzag offset)
  | .setLocal offset => varint 4 ++ varint (zigzag offset)
  | .declareLocal => varint 5
  | .jump target => varint 6 ++ varint target
  | .jumpIfFalse target => varint 7 ++ varint target
  | .call target => varint 8 ++ varint target
  | .ret params locals => varint 9 ++ varint params ++ varint locals
  | .operator op => varint 10 ++ operator op
  | .pop => varint 11

/-- Reads an instruction. -/
def readInstr : Decoder Instr := do
  match ← readWord32 with
  | 0 => return .push (← readValue)
  | 1 => return .getGlobal (← readWord64)
  | 2 => return .setGlobal (← readWord64)
  | 3 => return .getLocal (ofZigzag (← readWord32))
  | 4 => return .setLocal (ofZigzag (← readWord32))
  | 5 => return .declareLocal
  | 6 => return .jump (← readWord64)
  | 7 => return .jumpIfFalse (← readWord64)
  | 8 => return .call (← readWord64)
  | 9 => return .ret (← readWord64) (← readWord64)
  | 10 => return .operator (← readOperator)
  | 11 => return .pop
  | _ => throw .unknownVariant

/-- A function is its name, its entry and its frame. -/
def function (f : FunctionEntry) : List UInt8 :=
  string f.name ++ varint f.entry ++ varint f.params ++ varint f.locals

/-- Reads a function. -/
def readFunction : Decoder FunctionEntry := do
  return ⟨← readString, ← readWord64, ← readWord64, ← readWord64⟩

/-- Reads a program and leaves the bytes after it. -/
def readProgram : Decoder Program := do
  let instrs ← readSequence readInstr
  let globals ← readSequence readString
  let functions ← readSequence readFunction
  return ⟨.ofList instrs, globals, functions⟩

end Image

namespace Program

/-- The image of a program. -/
def encode (p : Program) : List UInt8 :=
  Image.sequence Image.instr p.code.instrs.toList ++ Image.sequence Image.string p.globals ++
    Image.sequence Image.function p.functions

/-- The program that bytes begin with. -/
def decode (bytes : List UInt8) : Except Image.DecodeError Program :=
  (Image.readProgram bytes).map (·.1)

end Program

end StackScript
