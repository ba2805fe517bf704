import StackScript.Double

/-!
# The byte format of images

An image is written left to right with nothing between its parts. Numbers are base-128 varints,
low digits first, and integers are first put in zigzag order; strings and sequences carry their
length in front. A `Decoder` reads one part and gives back the bytes after it. A varint may be
longer than needed, up to the number of bytes that its width allows.
-/

namespace StackScript.Image

/-- Why bytes are not an image. -/
inductive DecodeError where
  | unexpectedEnd
  | badVarint
  | badBool
  | badUtf8
  | unknownVariant
  deriving DecidableEq, Repr

/-- The wording of a decoding error. -/
def DecodeError.message : DecodeError → String
  | unexpectedEnd => "Hit the end of buffer, expected more data"
  | badVarint => "Found a varint that didn't terminate. Is the usize too big for this platform?"
  | badBool => "Found a bool that wasn't 0 or 1"
  | badUtf8 => "Tried to parse invalid utf-8"
  | unknownVariant => "Serde Deserialization Error"

/-- The report of a decoding error. -/
def DecodeError.text (e : DecodeError) : String := "invalid program image: " ++ e.message

/-- Reads a part of an image and gives back the bytes after it. -/
abbrev Decoder := StateT (List UInt8) (Except DecodeError)

/-! ## Numbers -/

/-- The varint of a number. -/
def varint (n : Nat) : List UInt8 :=
  if n < 128 then [UInt8.ofNat n] else UInt8.ofNat (n % 128 + 128) :: varint (n / 128)
termination_by n
decreasing_by omega

/-- Reads a varint of at most `more + 1` bytes, of which the last possible one is at most `last`. -/
def readVarint (last : Nat) : (more : Nat) → Decoder Nat
  | _, [] => .error .unexpectedEnd
  | 0, b :: rest => if b.toNat ≤ last then .ok (b.toNat, rest) else .error .badVarint
  | more + 1, b :: rest =>
    if b.toNat < 128 then .ok (b.toNat, rest)
    else
      match readVarint last more rest with
      | .ok (n, rest) => .ok (b.toNat - 128 + 128 * n, rest)
      | .error e => .error e

/-- Reads a 64-bit number. -/
def readWord64 : Decoder Nat := readVarint 0x01 9

/-- Reads a 32-bit number. -/
def readWord32 : Decoder Nat := readVarint 0x0f 4

/-- The place of an integer in the order 0, -1, 1, -2, …. -/
def zigzag (i : Int) : Nat := if 0 ≤ i then 2 * i.toNat else 2 * (-i).toNat - 1

/-- The integer at a place in zigzag order. -/
def ofZigzag (n : Nat) : Int := if n % 2 = 0 then (n / 2 : Nat) else -((n / 2 + 1 : Nat) : Int)

/-- The lowest `count` bytes of a number, low byte first. -/
def littleEndian : (count n : Nat) → List UInt8
  | 0, _ => []
  | count + 1, n => UInt8.ofNat (n % 256) :: littleEndian count (n / 256)

/-- The number that bytes stand for, low byte first. -/
def ofLittleEndian (bytes : List UInt8) : Nat :=
  bytes.foldr (fun b n => b.toNat + 256 * n) 0

/-! ## Texts, sequences and the rest -/

/-- Reads a number of bytes. -/
def readBytes (count : Nat) : Decoder (List UInt8) := fun bytes =>
  if count ≤ bytes.length then .ok (bytes.splitAt count) else .error .unexpectedEnd

/-- A text: its length in bytes, then its bytes. -/
def string (s : String) : List UInt8 :=
  let bytes := s.toUTF8.data.toList
  varint bytes.length ++ bytes

/-- Reads a text. -/
def readString : Decoder String := do
  let bytes ← readBytes (← readWord64)
  match String.fromUTF8? ⟨bytes.toArray⟩ with
  | some s => return s
  | none => throw .badUtf8

/-- A bool is one byte. -/
def bool (b : Bool) : List UInt8 := [if b then 1 else 0]

/-- Reads a bool. -/
def readBool : Decoder Bool
  | [] => .error .unexpectedEnd
  | b :: rest =>
    if b = 0 then .ok (false, rest)
    else if b = 1 then .ok (true, rest)
    else .error .badBool

/-- A double is the eight bytes of its bit pattern. -/
def double (x : Double) : List UInt8 := littleEndian 8 x.bits.toNat

/-- Reads a double. -/
def readDouble : Decoder Double := do
  let bytes ← readBytes 8
  return ⟨UInt64.ofNat (ofLittleEndian bytes)⟩

/-- A sequence: its length, then its items. -/
def sequence {α : Type} (item : α → List UInt8) (items : List α) : List UInt8 :=
  varint items.length ++ items.flatMap item

/-- Reads a number of items. -/
def readTimes {α : Type} (item : Decoder α) : (count : Nat) → Decoder (List α)
  | 0 => return []
  | count + 1 => do
    let first ← item
    let rest ← readTimes item count
    return first :: rest

/-- Reads a sequence. -/
def readSequence {α : Type} (item : Decoder α) : Decoder (List α) := do
  readTimes item (← readWord64)

end StackScript.Image
