import StackScript.Proofs.Image.RoundTrip

/-!
# Canonical images

Bytes that are decoded need not be the image of the program they give: a varint may be longer than
needed, a sequence may claim any length, and bytes may follow. What a decoder gives is here set
against the number of bytes that it took (`Image.Takes`); when decoders run one after another their
bytes add up (`Takes.bind`). The varint of a number is the shortest spelling that its reader takes
for it, all other parts have one length, and so every part of a decoded program takes at least the
bytes of its own image. Each instruction, global and function and each byte of a text has a byte of
the image to itself, which bounds the size of what is decoded.

* **`Program.length_encode_le`**: the image of a decoded program is decoded to the same program and
  is no longer than the bytes it was decoded from; no more than those bytes are its instructions,
  globals, functions and text bytes together.
-/

namespace StackScript

namespace Image

/-- Whatever a decoder reads satisfies `P`, together with the number of bytes that it took. -/
def Takes {α : Type} (d : Decoder α) (P : α → Nat → Prop) : Prop :=
  ∀ bytes a rest, d bytes = .ok (a, rest) → ∃ count, bytes.length = count + rest.length ∧ P a count

theorem length_append_le {xs ys : List UInt8} {first count : Nat} (hx : xs.length ≤ first)
    (hy : ys.length ≤ count) : (xs ++ ys).length ≤ first + count := by
  rw [List.length_append]
  exact Nat.add_le_add hx hy

section Takes

variable {α β : Type} {x : Decoder α} {P P' : α → Nat → Prop} {Q : β → Nat → Prop}

theorem Takes.pure {a : α} (h : P a 0) : Takes (Pure.pure a) P := by
  intro bytes b rest hread
  obtain ⟨rfl, rfl⟩ := Prod.mk.inj (Except.ok.inj hread)
  exact ⟨0, (Nat.zero_add _).symm, h⟩

theorem Takes.throw (e : DecodeError) : Takes (throw e) P := fun _ _ _ hread => nomatch hread

theorem Takes.mono (hx : Takes x P) (h : ∀ a count, P a count → P' a count) : Takes x P' := by
  intro bytes a rest hread
  obtain ⟨count, hcount, ha⟩ := hx bytes a rest hread
  exact ⟨count, hcount, h a count ha⟩

/-- The bytes of decoders that run one after another add up. -/
theorem Takes.bind {f : α → Decoder β} (hx : Takes x P)
    (hf : ∀ a first, P a first → Takes (f a) fun b count => Q b (first + count)) :
    Takes (x >>= f) Q := by
  intro bytes b rest hread
  change (x bytes >>= fun r => f r.1 r.2) = _ at hread
  cases hfirst : x bytes with
  | error e =>
    rw [hfirst] at hread
    cases hread
  | ok r =>
    rw [hfirst] at hread
    obtain ⟨first, hlength, ha⟩ := hx bytes r.1 r.2 hfirst
    obtain ⟨count, hrest, hb⟩ := hf r.1 first ha r.2 b rest hread
    exact ⟨first + count, by omega, hb⟩

/-- The last decoder of several, which read `a` from their first bytes. -/
theorem Takes.last {f : α → β} (hx : Takes x P) (h : ∀ a count, P a count → Q (f a) count) :
    Takes (do return f (← x)) Q :=
  hx.bind fun a count ha => .pure (h a count ha)

end Takes

/-! ## Numbers -/

theorem length_varint_of_lt {n : Nat} (h : n < 128) : (varint n).length = 1 := by
  rw [varint, if_pos h]
  rfl

theorem length_varint_pos (n : Nat) : 0 < (varint n).length := by
  rw [varint]
  split <;> exact Nat.succ_pos _

/-- A digit in front makes a varint longer by at most a byte. -/
theorem length_varint_digit {digit : Nat} (h : digit < 128) (n : Nat) :
    (varint (digit + 128 * n)).length ≤ 1 + (varint n).length := by
  by_cases hsmall : digit + 128 * n < 128
  · rw [length_varint_of_lt hsmall]
    omega
  · have hdiv : (digit + 128 * n) / 128 = n := by omega
    rw [varint, if_neg hsmall, List.length_cons, hdiv]
    omega

/-- A number that a varint reader gives is within its range, and no spelling that the reader takes
is shorter than the varint of the number. -/
theorem takes_varint {last : Nat} (hlast : last < 128) (more : Nat) :
    Takes (readVarint last more) fun n count =>
      n < (last + 1) * 128 ^ more ∧ (varint n).length ≤ count := by
  induction more with
  | zero =>
    intro bytes n rest hread
    cases bytes with
    | nil => cases hread
    | cons b bytes =>
      simp only [readVarint] at hread
      by_cases hb : b.toNat ≤ last
      · rw [if_pos hb] at hread
        obtain ⟨rfl, rfl⟩ := Prod.mk.inj (Except.ok.inj hread)
        exact ⟨1, by rw [List.length_cons]; omega, by omega,
          Nat.le_of_eq (length_varint_of_lt (by omega))⟩
      · rw [if_neg hb] at hread
        cases hread
  | succ more ih =>
    intro bytes n rest hread
    have hpow : 0 < 128 ^ more := Nat.pow_pos (by decide)
    have hwide : (last + 1) * 128 ^ (more + 1) = 128 * ((last + 1) * 128 ^ more) := by
      rw [Nat.pow_succ, ← Nat.mul_assoc, Nat.mul_comm]
    have hpos : 0 < (last + 1) * 128 ^ more := Nat.mul_pos (Nat.succ_pos _) hpow
    cases bytes with
    | nil => cases hread
    | cons b bytes =>
      simp only [readVarint] at hread
      by_cases hb : b.toNat < 128
      · rw [if_pos hb] at hread
        obtain ⟨rfl, rfl⟩ := Prod.mk.inj (Except.ok.inj hread)
        exact ⟨1, by rw [List.length_cons]; omega, by omega,
          Nat.le_of_eq (length_varint_of_lt hb)⟩
      · rw [if_neg hb] at hread
        cases hmore : readVarint last more bytes with
        | error e =>
          rw [hmore] at hread
          cases hread
        | ok r =>
          rw [hmore] at hread
          obtain ⟨rfl, rfl⟩ := Prod.mk.inj (Except.ok.inj hread)
          obtain ⟨count, hcount, hlt, hlength⟩ := ih bytes r.1 r.2 hmore
          have hdigit : b.toNat - 128 < 128 := by
            have := b.toNat_lt
            omega
          have hlonger := length_varint_digit hdigit r.1
          exact ⟨1 + count, by rw [List.length_cons]; omega, by omega, by omega⟩

theorem takes_word64 :
    Takes readWord64 fun n count => n < 2 ^ 64 ∧ (varint n).length ≤ count :=
  takes_varint (by decide) 9

theorem takes_word32 :
    Takes readWord32 fun n count => n < 2 ^ 32 ∧ (varint n).length ≤ count :=
  takes_varint (by decide) 4

theorem zigzag_ofZigzag (n : Nat) : zigzag (ofZigzag n) = n := by
  unfold ofZigzag
  split <;> (unfold zigzag; split <;> omega)

theorem ofZigzag_bounds (bound : Nat) {n : Nat} (h : n < 2 * bound) :
    -(bound : Int) ≤ ofZigzag n ∧ ofZigzag n < bound := by
  unfold ofZigzag
  split <;> omega

/-! ## Texts, sequences and the rest -/

theorem takes_bytes (length : Nat) :
    Takes (readBytes length) fun bytes count => bytes.length = length ∧ count = length := by
  intro bytes taken rest hread
  unfold readBytes at hread
  by_cases h : length ≤ bytes.length
  · rw [if_pos h, List.splitAt_eq] at hread
    obtain ⟨rfl, rfl⟩ := Prod.mk.inj (Except.ok.inj hread)
    exact ⟨length, by rw [List.length_drop]; omega, List.length_take_of_le h, rfl⟩
  · rw [if_neg h] at hread
    cases hread

theorem length_string (s : String) :
    (string s).length = (varint s.utf8ByteSize).length + s.utf8ByteSize := by
  unfold string
  rw [List.length_append]
  rfl

theorem utf8ByteSize_of_fromUTF8? {bytes : List UInt8} {s : String}
    (h : String.fromUTF8? ⟨bytes.toArray⟩ = some s) : s.utf8ByteSize = bytes.length := by
  unfold String.fromUTF8? at h
  split at h
  · obtain rfl := Option.some.inj h
    rfl
  · cases h

theorem takes_string :
    Takes readString fun s count => TextFits s ∧ (string s).length ≤ count := by
  refine takes_word64.bind fun length first hfirst => (takes_bytes length).bind ?_
  rintro bytes count ⟨hlength, rfl⟩
  cases hs : String.fromUTF8? ⟨bytes.toArray⟩ with
  | none => exact .throw .badUtf8
  | some s =>
    have hsize := utf8ByteSize_of_fromUTF8? hs
    refine .pure ⟨?_, ?_⟩
    · unfold TextFits
      rw [hsize, hlength]
      exact hfirst.1
    · rw [length_string, hsize, hlength]
      have := hfirst.2
      omega

theorem takes_bool : Takes readBool fun b count => (bool b).length ≤ count := by
  intro bytes b rest hread
  cases bytes with
  | nil => cases hread
  | cons byte bytes =>
    simp only [readBool] at hread
    split at hread
    · obtain ⟨rfl, rfl⟩ := Prod.mk.inj (Except.ok.inj hread)
      exact ⟨1, by rw [List.length_cons]; omega, Nat.le_refl 1⟩
    · split at hread
      · obtain ⟨rfl, rfl⟩ := Prod.mk.inj (Except.ok.inj hread)
        exact ⟨1, by rw [List.length_cons]; omega, Nat.le_refl 1⟩
      · cases hread

theorem takes_double : Takes readDouble fun x count => (double x).length ≤ count := by
  refine (takes_bytes 8).last fun bytes count h => ?_
  unfold double
  rw [length_littleEndian]
  exact Nat.le_of_eq h.2.symm

section Sequences

variable {α : Type} {d : Decoder α} {Fits : α → Prop} {item : α → List UInt8}

theorem takes_times (h : Takes d fun a count => Fits a ∧ (item a).length ≤ count) (length : Nat) :
    Takes (readTimes d length) fun items count =>
      items.length = length ∧ (∀ a ∈ items, Fits a) ∧ (items.flatMap item).length ≤ count := by
  induction length with
  | zero => exact .pure ⟨rfl, List.forall_mem_nil _, Nat.le_refl 0⟩
  | succ length ih =>
    refine h.bind fun a first ha => ih.last fun items count hitems => ⟨?_, ?_, ?_⟩
    · rw [List.length_cons, hitems.1]
    · exact List.forall_mem_cons.mpr ⟨ha.1, hitems.2.1⟩
    · rw [List.flatMap_cons]
      exact length_append_le ha.2 hitems.2.2

theorem takes_sequence (h : Takes d fun a count => Fits a ∧ (item a).length ≤ count) :
    Takes (readSequence d) fun items count =>
      items.length < 2 ^ 64 ∧ (∀ a ∈ items, Fits a) ∧ (sequence item items).length ≤ count := by
  refine takes_word64.bind fun length first hfirst => (takes_times h length).mono ?_
  rintro items count ⟨rfl, hfits, hitems⟩
  exact ⟨hfirst.1, hfits, length_append_le hfirst.2 hitems⟩

end Sequences

/-! ## Programs -/

theorem takes_operator : Takes readOperator fun op count => (operator op).length ≤ count := by
  refine takes_word32.bind fun n first hfirst => ?_
  cases Operator.all[n]? with
  | none => exact .throw .unknownVariant
  | some op =>
    have hnumber : Operator.all.idxOf op < 128 := by cases op <;> decide
    have hpos := length_varint_pos n
    refine .pure ?_
    unfold operator
    rw [length_varint_of_lt hnumber]
    omega

theorem takes_value : Takes readValue fun v count => v.Fits ∧ (value v).length ≤ count := by
  refine takes_word32.bind fun n first hfirst => ?_
  split
  · exact .pure ⟨trivial, hfirst.2⟩
  · refine takes_word64.last fun n count hn => ⟨trivial, ?_⟩
    have hbounds := ofZigzag_bounds (2 ^ 63) hn.1
    have hint : (Int64.ofInt (ofZigzag n)).toInt = ofZigzag n :=
      Int64.toInt_ofInt_of_le hbounds.1 hbounds.2
    rw [value, hint, zigzag_ofZigzag]
    exact length_append_le hfirst.2 hn.2
  · exact takes_double.last fun x count hx => ⟨trivial, length_append_le hfirst.2 hx⟩
  · exact takes_string.last fun s count hs => ⟨hs.1, length_append_le hfirst.2 hs.2⟩
  · exact takes_bool.last fun b count hb => ⟨trivial, length_append_le hfirst.2 hb⟩
  · exact .throw .unknownVariant

/-- Reads the offset of an instruction that is written as `tag` and its offset. -/
theorem takes_offset {g : Int → Instr} {tag : List UInt8} {first : Nat}
    (hfits : ∀ offset : Int, -2 ^ 31 ≤ offset ∧ offset < 2 ^ 31 → (g offset).Fits)
    (hwrite : ∀ offset, instr (g offset) = tag ++ varint (zigzag offset))
    (htag : tag.length ≤ first) :
    Takes (do return g (ofZigzag (← readWord32))) fun i count =>
      i.Fits ∧ (instr i).length ≤ first + count := by
  refine takes_word32.last fun n count hn => ⟨hfits _ (ofZigzag_bounds (2 ^ 31) hn.1), ?_⟩
  rw [hwrite, zigzag_ofZigzag]
  exact length_append_le htag hn.2

theorem takes_instr : Takes readInstr fun i count => i.Fits ∧ (instr i).length ≤ count := by
  refine takes_word32.bind fun n first hfirst => ?_
  have htag := hfirst.2
  split
  · exact takes_value.last fun v count hv => ⟨hv.1, length_append_le htag hv.2⟩
  · exact takes_word64.last fun n count hn => ⟨hn.1, length_append_le htag hn.2⟩
  · exact takes_word64.last fun n count hn => ⟨hn.1, length_append_le htag hn.2⟩
  · exact takes_offset (fun _ h => h) (fun _ => rfl) htag
  · exact takes_offset (fun _ h => h) (fun _ => rfl) htag
  · exact .pure ⟨trivial, htag⟩
  · exact takes_word64.last fun n count hn => ⟨hn.1, length_append_le htag hn.2⟩
  · exact takes_word64.last fun n count hn => ⟨hn.1, length_append_le htag hn.2⟩
  · exact takes_word64.last fun n count hn => ⟨hn.1, length_append_le htag hn.2⟩
  · refine takes_word64.bind fun params second hparams => takes_word64.last ?_
    intro locals count hlocals
    rw [← Nat.add_assoc]
    exact ⟨⟨hparams.1, hlocals.1⟩,
      length_append_le (length_append_le htag hparams.2) hlocals.2⟩
  · exact takes_operator.last fun op count hop => ⟨trivial, length_append_le htag hop⟩
  · exact .pure ⟨trivial, htag⟩
  · exact .throw .unknownVariant

theorem takes_function :
    Takes readFunction fun f count => f.Fits ∧ (function f).length ≤ count := by
  refine takes_string.bind fun name _ hname => takes_word64.bind fun entry _ hentry =>
    takes_word64.bind fun params _ hparams => takes_word64.last fun locals count hlocals => ?_
  refine ⟨⟨hname.1, hentry.1, hparams.1, hlocals.1⟩, ?_⟩
  rw [← Nat.add_assoc, ← Nat.add_assoc]
  exact length_append_le (length_append_le (length_append_le hname.2 hentry.2) hparams.2) hlocals.2

/-- A program that is read has the widths in which it is written, and its image takes no more bytes
than were read. -/
theorem takes_program :
    Takes readProgram fun p count => p.Fits ∧ p.encode.length ≤ count := by
  refine (takes_sequence takes_instr).bind fun instrs _ hinstrs =>
    (takes_sequence takes_string).bind fun globals _ hglobals =>
      (takes_sequence takes_function).last fun functions count hfunctions => ⟨?_, ?_⟩
  · exact
      { size := hinstrs.1
        instrs := hinstrs.2.1
        globalCount := hglobals.1
        globals := hglobals.2.1
        functionCount := hfunctions.1
        functions := hfunctions.2.1 }
  · rw [← Nat.add_assoc]
    exact length_append_le (length_append_le hinstrs.2.2 hglobals.2.2) hfunctions.2.2

/-! ## What an image has room for -/

/-- Items that are written with a byte more than their weight weigh no more than their sequence,
even when each of them counts for itself. -/
theorem weight_le_sequence {α : Type} {item : α → List UInt8} {weight : α → Nat}
    (h : ∀ a, 1 + weight a ≤ (item a).length) (items : List α) :
    items.length + (items.map weight).sum ≤ (sequence item items).length := by
  have hitems : items.length + (items.map weight).sum ≤ (items.flatMap item).length := by
    induction items with
    | nil => exact Nat.le_refl 0
    | cons a items ih =>
      have ha := h a
      rw [List.flatMap_cons, List.length_append, List.length_cons, List.map_cons, List.sum_cons]
      omega
  unfold sequence
  rw [List.length_append]
  omega

theorem text_lt_string (s : String) : 1 + s.utf8ByteSize ≤ (string s).length := by
  have := length_varint_pos s.utf8ByteSize
  rw [length_string]
  omega

end Image

/-- The bytes of the text that an instruction holds. -/
def Instr.textBytes : Instr → Nat
  | .push (.string s) => s.utf8ByteSize
  | _ => 0

theorem Instr.textBytes_lt (i : Instr) : 1 + i.textBytes ≤ (Image.instr i).length := by
  have htag (n : Nat) (bytes : List UInt8) : 1 ≤ (Image.varint n ++ bytes).length := by
    have := Image.length_varint_pos n
    rw [List.length_append]
    omega
  cases i with
  | push v =>
    cases v with
    | string s =>
      have htext := Image.text_lt_string s
      rw [textBytes, Image.instr, Image.value, List.length_append, List.length_append]
      omega
    | undefined | int n | double x | bool b => exact htag 0 _
  | declareLocal | pop => exact Image.length_varint_pos _
  | ret params locals =>
    rw [Image.instr, List.append_assoc]
    exact htag 9 _
  | getGlobal n | setGlobal n | jump n | jumpIfFalse n | call n => exact htag _ _
  | getLocal offset | setLocal offset => exact htag _ _
  | operator op => exact htag 10 _

namespace Program

/-- The bytes of all texts of a program: its constants and the names of globals and functions. -/
def textBytes (p : Program) : Nat :=
  (p.code.instrs.toList.map Instr.textBytes).sum + (p.globals.map String.utf8ByteSize).sum +
    (p.functions.map (·.name.utf8ByteSize)).sum

/-- The image of a program has a byte for each instruction, global and function and for each byte
of its texts. -/
theorem items_le_length_encode (p : Program) :
    p.code.size + p.globals.length + p.functions.length + p.textBytes ≤ p.encode.length := by
  have hname (f : FunctionEntry) : 1 + f.name.utf8ByteSize ≤ (Image.function f).length := by
    have := Image.text_lt_string f.name
    unfold Image.function
    simp only [List.length_append]
    omega
  have hinstrs := Image.weight_le_sequence Instr.textBytes_lt p.code.instrs.toList
  have hglobals := Image.weight_le_sequence Image.text_lt_string p.globals
  have hfunctions := Image.weight_le_sequence hname p.functions
  have hsize : p.code.size = p.code.instrs.toList.length := rfl
  unfold encode textBytes
  rw [List.length_append, List.length_append]
  omega

/-- **Decoding normalises and never inflates.** The image of a decoded program is decoded to that
program again, and it is no longer than the bytes the program was decoded from, however its numbers
were spelled there. So whatever lengths the bytes claim, the instructions, globals, functions and
text bytes of the program are together no more than the bytes. -/
theorem length_encode_le {bytes : List UInt8} {p : Program} (h : decode bytes = .ok p) :
    decode p.encode = .ok p ∧ p.encode.length ≤ bytes.length ∧
      p.code.size + p.globals.length + p.functions.length + p.textBytes ≤ bytes.length := by
  have hread : ∃ rest, Image.readProgram bytes = .ok (p, rest) := by
    unfold decode at h
    cases hr : Image.readProgram bytes with
    | error e =>
      rw [hr] at h
      cases h
    | ok r =>
      rw [hr] at h
      obtain rfl := Except.ok.inj h
      exact ⟨r.2, rfl⟩
  obtain ⟨rest, hread⟩ := hread
  obtain ⟨count, hcount, hfits, hlength⟩ := Image.takes_program bytes p rest hread
  have hitems := items_le_length_encode p
  refine ⟨?_, by omega, by omega⟩
  have hagain := Image.reads_program hfits []
  rw [List.append_nil] at hagain
  unfold decode
  rw [hagain]
  rfl

/-- Two instructions, a global and no function, with numbers longer than needed and a byte behind. -/
def overlong : List UInt8 :=
  [0x82, 0x80, 0x00, 0x80, 0x00, 0x83, 0x00, 0x82, 0x80, 0x00, 0xc3, 0xa9, 0x0b,
    0x01, 0x81, 0x00, 0x61, 0x80, 0x80, 0x80, 0x00, 0xff]

theorem overlong_length_encode_le :
    overlong.length = 22 ∧
      decode overlong = .ok ⟨.ofList [.push (.string "é"), .pop], ["a"], []⟩ ∧
        (Program.mk (.ofList [.push (.string "é"), .pop]) ["a"] []).encode.length ≤ 22 := by
  have h : decode overlong = .ok ⟨.ofList [.push (.string "é"), .pop], ["a"], []⟩ := by
    decide +kernel
  exact ⟨rfl, h, (length_encode_le h).2.1⟩

end Program

end StackScript
