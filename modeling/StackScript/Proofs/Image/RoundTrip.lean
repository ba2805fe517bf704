import Mathlib.Algebra.Ring.Int.Defs
import Mathlib.Algebra.Ring.Nat
import StackScript.Image
import StackScript.Machine.Run

/-!
# Images are read back

A decoder reads some bytes as a value (`Image.Reads`) if it gives the value and leaves whatever
comes after the bytes. Decoders that run one after another read what is written one after another
(`Reads.bind`), so it suffices to look at the parts of the format one by one: varints within the
width that their reader allows, zigzag order, the bytes of doubles and texts, sequences, and the
numbers of constructors. Only the width of numbers and lengths has to be asked for (`Program.Fits`),
and then

* **`Program.decode_encode`**: an image followed by any bytes is decoded to its program. Hence no
  two programs have the same image and no image begins with another one.
-/

namespace StackScript

namespace Image

/-- A decoder reads `bytes` as `a`, whatever comes after them. -/
def Reads {α : Type} (d : Decoder α) (bytes : List UInt8) (a : α) : Prop :=
  ∀ rest, d (bytes ++ rest) = .ok (a, rest)

section Reads

variable {α β : Type} {x : Decoder α} {b₁ b₂ : List UInt8} {a : α}

theorem Reads.pure (a : α) : Reads (Pure.pure a) [] a := fun _ => rfl

/-- Decoders in sequence read what is written in sequence. -/
theorem Reads.bind {f : α → Decoder β} {c : β} (hx : Reads x b₁ a) (hf : Reads (f a) b₂ c) :
    Reads (x >>= f) (b₁ ++ b₂) c := by
  intro rest
  rw [List.append_assoc]
  show (x (b₁ ++ (b₂ ++ rest)) >>= fun r => f r.1 r.2) = _
  rw [hx]
  exact hf rest

/-- A decoder after which nothing is left to read. -/
theorem Reads.last {f : α → Decoder β} {c : β} (hx : Reads x b₁ a) (hf : f a = Pure.pure c) :
    Reads (x >>= f) b₁ c := by
  have hpure : Reads (f a) [] c := hf ▸ Reads.pure c
  have h := hx.bind hpure
  rwa [List.append_nil] at h

end Reads

/-! ## Numbers -/

theorem toNat_byte {n : Nat} (h : n < 256) : (UInt8.ofNat n).toNat = n := by
  rw [UInt8.toNat_ofNat']
  omega

/-- A varint is read back if its number is below what its reader allows. -/
theorem reads_varint {last : Nat} (hlast : last < 128) (more n : Nat)
    (hn : n < (last + 1) * 128 ^ more) : Reads (readVarint last more) (varint n) n := by
  induction more generalizing n with
  | zero =>
    have hle : n ≤ last := by omega
    intro rest
    rw [varint, if_pos (by omega), List.singleton_append]
    simp only [readVarint, toNat_byte (by omega : n < 256), if_pos hle]
  | succ more ih =>
    intro rest
    rw [varint]
    by_cases hsmall : n < 128
    · rw [if_pos hsmall, List.singleton_append]
      simp only [readVarint, toNat_byte (by omega : n < 256), if_pos hsmall]
    · have hdiv : n / 128 < (last + 1) * 128 ^ more := by
        rw [Nat.div_lt_iff_lt_mul (by decide), Nat.mul_assoc, ← Nat.pow_succ]
        exact hn
      have hbyte : ¬ n % 128 + 128 < 128 := by omega
      have hvalue : n % 128 + 128 - 128 + 128 * (n / 128) = n := by omega
      rw [if_neg hsmall, List.cons_append]
      simp only [readVarint, toNat_byte (by omega : n % 128 + 128 < 256), if_neg hbyte,
        ih (n / 128) hdiv rest, hvalue]

theorem reads_word64 {n : Nat} (h : n < 2 ^ 64) : Reads readWord64 (varint n) n :=
  reads_varint (by decide) 9 n h

theorem reads_word32 {n : Nat} (h : n < 2 ^ 32) : Reads readWord32 (varint n) n :=
  reads_varint (by decide) 4 n h

theorem ofZigzag_zigzag (i : Int) : ofZigzag (zigzag i) = i := by
  unfold zigzag
  by_cases hi : 0 ≤ i
  · rw [if_pos hi]
    unfold ofZigzag
    rw [if_pos (by omega)]
    omega
  · rw [if_neg hi]
    unfold ofZigzag
    rw [if_neg (by omega)]
    omega

theorem zigzag_lt (bound : Nat) {i : Int} (hlow : -(bound : Int) ≤ i) (hhigh : i < bound) :
    zigzag i < 2 * bound := by
  unfold zigzag
  split <;> omega

theorem length_littleEndian (count n : Nat) : (littleEndian count n).length = count := by
  induction count generalizing n with
  | zero => rfl
  | succ count ih => rw [littleEndian, List.length_cons, ih]

theorem ofLittleEndian_littleEndian (count n : Nat) (h : n < 256 ^ count) :
    ofLittleEndian (littleEndian count n) = n := by
  induction count generalizing n with
  | zero =>
    have hzero : n = 0 := by omega
    rw [hzero]
    rfl
  | succ count ih =>
    have hdiv : n / 256 < 256 ^ count := by
      rw [Nat.div_lt_iff_lt_mul (by decide), ← Nat.pow_succ]
      exact h
    have hrest : (littleEndian count (n / 256)).foldr (fun b n => b.toNat + 256 * n) 0 = n / 256 :=
      ih (n / 256) hdiv
    unfold ofLittleEndian
    rw [littleEndian, List.foldr_cons, hrest, toNat_byte (by omega)]
    omega

/-! ## Texts, sequences and the rest -/

theorem reads_bytes (bytes : List UInt8) : Reads (readBytes bytes.length) bytes bytes := by
  intro rest
  unfold readBytes
  rw [if_pos (by simp), List.splitAt_eq, List.take_left, List.drop_left]

/-- The length of a text in bytes can be written. -/
def TextFits (s : String) : Prop := s.utf8ByteSize < 2 ^ 64

instance (s : String) : Decidable (TextFits s) := inferInstanceAs (Decidable (_ < _))

theorem reads_string {s : String} (h : TextFits s) : Reads readString (string s) s := by
  have hutf8 : String.fromUTF8? ⟨s.toUTF8.data.toList.toArray⟩ = some s := by
    simp [String.fromUTF8?, String.fromUTF8, s.isValidUTF8]
  refine (reads_word64 h).bind ((reads_bytes s.toUTF8.data.toList).last ?_)
  simp only [hutf8]

theorem reads_bool (b : Bool) : Reads readBool (bool b) b := by
  cases b <;> exact fun _ => rfl

theorem reads_double (x : Double) : Reads readDouble (double x) x := by
  have hbytes := reads_bytes (littleEndian 8 x.bits.toNat)
  rw [length_littleEndian] at hbytes
  refine hbytes.last ?_
  rw [ofLittleEndian_littleEndian 8 x.bits.toNat x.bits.toNat_lt, UInt64.ofNat_toNat]

theorem reads_times {α : Type} {d : Decoder α} {item : α → List UInt8} {items : List α}
    (h : ∀ a ∈ items, Reads d (item a) a) :
    Reads (readTimes d items.length) (items.flatMap item) items := by
  induction items with
  | nil => exact Reads.pure []
  | cons a rest ih =>
    have hrest := ih fun b hb => h b (List.mem_cons_of_mem a hb)
    exact (h a List.mem_cons_self).bind (hrest.last rfl)

theorem reads_sequence {α : Type} {d : Decoder α} {item : α → List UInt8} {items : List α}
    (hlen : items.length < 2 ^ 64) (h : ∀ a ∈ items, Reads d (item a) a) :
    Reads (readSequence d) (sequence item items) items :=
  (reads_word64 hlen).bind (reads_times h)

end Image

/-! ## Programs whose numbers fit -/

/-- The texts of a value can be written. -/
def Value.Fits : Value → Prop
  | .string s => Image.TextFits s
  | _ => True

instance (v : Value) : Decidable v.Fits :=
  match v with
  | .string s => inferInstanceAs (Decidable (Image.TextFits s))
  | .undefined | .int _ | .double _ | .bool _ => isTrue trivial

/-- The operands of an instruction have the width in which they are written: offsets have 32 bits,
slots, targets and counts 64. -/
def Instr.Fits : Instr → Prop
  | .push v => v.Fits
  | .getGlobal n | .setGlobal n | .jump n | .jumpIfFalse n | .call n => n < 2 ^ 64
  | .getLocal offset | .setLocal offset => -2 ^ 31 ≤ offset ∧ offset < 2 ^ 31
  | .ret params locals => params < 2 ^ 64 ∧ locals < 2 ^ 64
  | .declareLocal | .operator _ | .pop => True

instance (i : Instr) : Decidable i.Fits :=
  match i with
  | .push v => inferInstanceAs (Decidable v.Fits)
  | .getGlobal n | .setGlobal n | .jump n | .jumpIfFalse n | .call n =>
    inferInstanceAs (Decidable (n < 2 ^ 64))
  | .getLocal offset | .setLocal offset =>
    inferInstanceAs (Decidable (-2 ^ 31 ≤ offset ∧ offset < 2 ^ 31))
  | .ret params locals => inferInstanceAs (Decidable (params < 2 ^ 64 ∧ locals < 2 ^ 64))
  | .declareLocal | .operator _ | .pop => isTrue trivial

/-- The numbers of a function have 64 bits. -/
structure FunctionEntry.Fits (f : FunctionEntry) : Prop where
  name : Image.TextFits f.name
  entry : f.entry < 2 ^ 64
  params : f.params < 2 ^ 64
  locals : f.locals < 2 ^ 64

/-- All operands of a program have the width in which they are written, and so have its lengths. -/
structure Program.Fits (p : Program) : Prop where
  size : p.code.size < 2 ^ 64
  instrs : ∀ i ∈ p.code.instrs.toList, i.Fits
  globalCount : p.globals.length < 2 ^ 64
  globals : ∀ name ∈ p.globals, Image.TextFits name
  functionCount : p.functions.length < 2 ^ 64
  functions : ∀ f ∈ p.functions, f.Fits

namespace Image

theorem reads_operator (op : Operator) : Reads readOperator (operator op) op := by
  have hlt : Operator.all.idxOf op < 2 ^ 32 := by cases op <;> decide
  refine (reads_word32 hlt).last ?_
  cases op <;> rfl

theorem reads_int (n : Int64) :
    Reads (do return Value.int (Int64.ofInt (ofZigzag (← readWord64)))) (varint (zigzag n.toInt))
      (.int n) := by
  have hlow := n.le_toInt
  have hhigh := n.toInt_lt
  have hlt : zigzag n.toInt < 2 ^ 64 := zigzag_lt (2 ^ 63) (by omega) (by omega)
  refine (reads_word64 hlt).last ?_
  rw [ofZigzag_zigzag, Int64.ofInt_toInt]

theorem reads_value {v : Value} (h : v.Fits) : Reads readValue (value v) v := by
  cases v with
  | undefined => exact (reads_word32 (n := 0) (by decide)).last rfl
  | int n => exact (reads_word32 (n := 1) (by decide)).bind (reads_int n)
  | double x => exact (reads_word32 (n := 2) (by decide)).bind ((reads_double x).last rfl)
  | string s => exact (reads_word32 (n := 3) (by decide)).bind ((reads_string h).last rfl)
  | bool b => exact (reads_word32 (n := 4) (by decide)).bind ((reads_bool b).last rfl)

theorem reads_offset {offset : Int} (h : -2 ^ 31 ≤ offset ∧ offset < 2 ^ 31) (g : Int → Instr) :
    Reads (do return g (ofZigzag (← readWord32))) (varint (zigzag offset)) (g offset) := by
  have hlt : zigzag offset < 2 ^ 32 := zigzag_lt (2 ^ 31) (by omega) (by omega)
  refine (reads_word32 hlt).last ?_
  rw [ofZigzag_zigzag]

theorem reads_instr {i : Instr} (h : i.Fits) : Reads readInstr (instr i) i := by
  have htag {n : Nat} {f : Nat → Decoder Instr} {bytes : List UInt8} (hn : n < 2 ^ 32)
      (hf : Reads (f n) bytes i) : Reads (readWord32 >>= f) (varint n ++ bytes) i :=
    (reads_word32 hn).bind hf
  cases i with
  | push v => exact htag (by decide) ((reads_value h).last rfl)
  | getGlobal n | setGlobal n | jump n | jumpIfFalse n | call n =>
    exact htag (by decide) ((reads_word64 h).last rfl)
  | getLocal offset | setLocal offset => exact htag (by decide) (reads_offset h _)
  | declareLocal => exact (reads_word32 (n := 5) (by decide)).last rfl
  | pop => exact (reads_word32 (n := 11) (by decide)).last rfl
  | ret params locals =>
    simp only [instr, List.append_assoc]
    exact htag (by decide) ((reads_word64 h.1).bind ((reads_word64 h.2).last rfl))
  | operator op => exact htag (by decide) ((reads_operator op).last rfl)

theorem reads_function {f : FunctionEntry} (h : f.Fits) : Reads readFunction (function f) f := by
  unfold function
  rw [List.append_assoc, List.append_assoc]
  exact (reads_string h.name).bind ((reads_word64 h.entry).bind
    ((reads_word64 h.params).bind ((reads_word64 h.locals).last rfl)))

/-- The image of a program is read as the program. -/
theorem reads_program {p : Program} (h : p.Fits) : Reads readProgram p.encode p := by
  have hinstrs := reads_sequence h.size fun i hi => reads_instr (h.instrs i hi)
  have hglobals := reads_sequence h.globalCount fun name hn => reads_string (h.globals name hn)
  have hfunctions := reads_sequence h.functionCount fun f hf => reads_function (h.functions f hf)
  unfold Program.encode
  rw [List.append_assoc]
  exact hinstrs.bind (hglobals.bind (hfunctions.last rfl))

end Image

namespace Program

/-- **Images are read back.** The image of a program, followed by any bytes, is decoded to that
program, doubles bit for bit. Hence different programs have different images, an image that begins
with another one is equal to it, and the decoded program runs as the program does, to the same
machine and so with the same steps and globals. -/
theorem decode_encode (p : Program) (hp : p.Fits) :
    (∀ rest, decode (p.encode ++ rest) = .ok p) ∧
      (∀ q : Program, q.Fits → q.encode = p.encode → q = p) ∧
        (∀ q : Program, q.Fits → q.encode <+: p.encode → q.encode = p.encode) ∧
          ∀ rest limits fuel (m : Machine), (decode (p.encode ++ rest)).map (m.run? limits · fuel) =
            .ok (m.run? limits p fuel) := by
  have hread (q : Program) (hq : q.Fits) (rest : List UInt8) :
      decode (q.encode ++ rest) = .ok q := by
    unfold decode
    rw [Image.reads_program hq rest]
    rfl
  have hbegins (q : Program) (hq : q.Fits) (h : q.encode <+: p.encode) : q = p := by
    obtain ⟨rest, hrest⟩ := h
    have hdecoded : decode (p.encode ++ []) = .ok q := by
      rw [← hrest, List.append_nil]
      exact hread q hq rest
    rw [hread p hp] at hdecoded
    exact (Except.ok.inj hdecoded).symm
  refine ⟨hread p hp, fun q hq h => hbegins q hq (h ▸ List.prefix_refl _),
    fun q hq h => by rw [hbegins q hq h], fun rest limits fuel m => ?_⟩
  rw [hread p hp]
  rfl

/-- Operands at the limits of their widths, a double that is a NaN with a payload, texts of several
bytes for a character and a jump that is still open. -/
def extremes : Program where
  code := .ofList [.push (.int Int64.minValue), .push (.int Int64.maxValue),
    .push (.double ⟨0xfff8000000000001⟩), .push (.string "é\n😀"), .push (.bool true),
    .push .undefined, .getGlobal (2 ^ 64 - 1), .setGlobal 128, .getLocal (-2 ^ 31),
    .setLocal (2 ^ 31 - 1), .declareLocal, .jump Instr.unpatched, .jumpIfFalse 16384, .call 0,
    .operator .prepareCall, .pop, .ret (2 ^ 64 - 1) 127]
  globals := ["", "größe"]
  functions := [⟨"f", 2 ^ 63, 3, 2 ^ 64 - 1⟩]

theorem extremes_decode_encode :
    extremes.Fits ∧ decode (extremes.encode ++ [0xff, 0]) = .ok extremes := by
  have hfits : extremes.Fits :=
    { size := by decide
      instrs := by decide +kernel
      globalCount := by decide
      globals := by decide +kernel
      functionCount := by decide
      functions := fun f hf => by
        rw [List.mem_singleton.mp hf]
        exact ⟨by decide +kernel, by decide, by decide, by decide⟩ }
  exact ⟨hfits, (decode_encode extremes hfits).1 [0xff, 0]⟩

end Program

end StackScript
