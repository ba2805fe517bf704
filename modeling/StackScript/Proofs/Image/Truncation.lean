import StackScript.Proofs.Image.RoundTrip

/-!
# Truncated images

A decoder reads from left to right and looks no further than it has to. So its answer to some bytes
stands when more bytes follow, which come out behind the bytes it left; only a decoder that ran out
of bytes may then answer otherwise (`Image.Steady`). Each decoder of the format is made of steady
parts, and decoders that run one after another are steady if each of them is (`Steady.bind`).

An image is read to its last byte. Were a proper beginning of it read, the bytes cut off would be
left over; were it refused for another reason than its end, so would the image be. Hence

* **`Program.decode_truncated`**: of the beginnings of an image, the whole image is decoded and
  every other one ends unexpectedly.
-/

namespace StackScript

namespace Image

/-- Bytes that follow come out behind what a decoder leaves, unless it ran out of bytes. -/
def Steady {α : Type} (d : Decoder α) : Prop :=
  ∀ bytes more, d bytes = .error .unexpectedEnd ∨
    d (bytes ++ more) = (d bytes).map fun r => (r.1, r.2 ++ more)

section Steady

variable {α β : Type} {x : Decoder α}

theorem Steady.pure (a : α) : Steady (Pure.pure a) := fun _ _ => .inr rfl

theorem Steady.throw (e : DecodeError) : Steady (throw e : Decoder α) := fun _ _ => .inr rfl

theorem Steady.bind {f : α → Decoder β} (hx : Steady x) (hf : ∀ a, Steady (f a)) :
    Steady (x >>= f) := by
  intro bytes more
  show (x bytes >>= fun r => f r.1 r.2) = _ ∨ (x (bytes ++ more) >>= fun r => f r.1 r.2) =
    (x bytes >>= fun r => f r.1 r.2).map _
  obtain h | h := hx bytes more
  · rw [h]
    exact .inl rfl
  · rw [h]
    cases x bytes with
    | error e => exact .inr rfl
    | ok r => exact hf r.1 r.2 more

/-- **What a steady decoder reads to the end, it does not read when bytes are cut off.** -/
theorem Steady.truncated {bytes cut : List UInt8} {a : α} (hx : Steady x)
    (hread : x (bytes ++ cut) = .ok (a, [])) (hcut : cut ≠ []) :
    x bytes = .error .unexpectedEnd := by
  refine (hx bytes cut).resolve_right fun h => hcut ?_
  rw [hread] at h
  cases hbytes : x bytes with
  | error e =>
    rw [hbytes] at h
    cases h
  | ok r =>
    rw [hbytes] at h
    have hrest : [] = r.2 ++ cut := congrArg Prod.snd (Except.ok.inj h)
    exact (List.append_eq_nil_iff.mp hrest.symm).2

end Steady

/-! ## The parts of the format -/

theorem steady_varint (last more : Nat) : Steady (readVarint last more) := by
  induction more with
  | zero =>
    intro bytes rest
    cases bytes with
    | nil => exact .inl rfl
    | cons b bytes =>
      refine .inr ?_
      rw [List.cons_append]
      simp only [readVarint]
      split <;> rfl
  | succ more ih =>
    intro bytes rest
    cases bytes with
    | nil => exact .inl rfl
    | cons b bytes =>
      rw [List.cons_append]
      simp only [readVarint]
      by_cases hb : b.toNat < 128
      · rw [if_pos hb, if_pos hb]
        exact .inr rfl
      · rw [if_neg hb, if_neg hb]
        obtain h | h := ih bytes rest
        · rw [h]
          exact .inl rfl
        · rw [h]
          cases readVarint last more bytes <;> exact .inr rfl

theorem steady_word64 : Steady readWord64 := steady_varint 0x01 9

theorem steady_word32 : Steady readWord32 := steady_varint 0x0f 4

theorem steady_bytes (count : Nat) : Steady (readBytes count) := by
  intro bytes more
  unfold readBytes
  by_cases h : count ≤ bytes.length
  · have hmore : count ≤ (bytes ++ more).length := by
      rw [List.length_append]
      omega
    rw [if_pos h, if_pos hmore, List.splitAt_eq, List.splitAt_eq,
      List.take_append_of_le_length h, List.drop_append_of_le_length h]
    exact .inr rfl
  · rw [if_neg h]
    exact .inl rfl

theorem steady_string : Steady readString := by
  refine steady_word64.bind fun count => (steady_bytes count).bind fun bytes => ?_
  cases String.fromUTF8? ⟨bytes.toArray⟩ with
  | none => exact .throw .badUtf8
  | some s => exact .pure s

theorem steady_bool : Steady readBool := by
  intro bytes more
  cases bytes with
  | nil => exact .inl rfl
  | cons b bytes =>
    refine .inr ?_
    rw [List.cons_append]
    simp only [readBool]
    split
    · rfl
    · split <;> rfl

theorem steady_double : Steady readDouble := (steady_bytes 8).bind fun _ => .pure _

theorem steady_times {α : Type} {d : Decoder α} (h : Steady d) (count : Nat) :
    Steady (readTimes d count) := by
  induction count with
  | zero => exact .pure []
  | succ count ih => exact h.bind fun first => ih.bind fun rest => .pure (first :: rest)

theorem steady_sequence {α : Type} {d : Decoder α} (h : Steady d) : Steady (readSequence d) :=
  steady_word64.bind (steady_times h)

theorem steady_operator : Steady readOperator := by
  refine steady_word32.bind fun n => ?_
  cases Operator.all[n]? with
  | none => exact .throw .unknownVariant
  | some op => exact .pure op

theorem steady_value : Steady readValue := by
  refine steady_word32.bind fun n => ?_
  split
  · exact .pure Value.undefined
  · exact steady_word64.bind fun _ => .pure _
  · exact steady_double.bind fun _ => .pure _
  · exact steady_string.bind fun _ => .pure _
  · exact steady_bool.bind fun _ => .pure _
  · exact .throw .unknownVariant

theorem steady_instr : Steady readInstr := by
  have hoperand (g : Nat → Instr) : Steady (do return g (← readWord64)) :=
    steady_word64.bind fun n => .pure (g n)
  have hoffset (g : Int → Instr) : Steady (do return g (ofZigzag (← readWord32))) :=
    steady_word32.bind fun n => .pure (g (ofZigzag n))
  refine steady_word32.bind fun n => ?_
  split
  · exact steady_value.bind fun v => .pure (Instr.push v)
  · exact hoperand .getGlobal
  · exact hoperand .setGlobal
  · exact hoffset .getLocal
  · exact hoffset .setLocal
  · exact .pure Instr.declareLocal
  · exact hoperand .jump
  · exact hoperand .jumpIfFalse
  · exact hoperand .call
  · exact steady_word64.bind fun params => hoperand (.ret params)
  · exact steady_operator.bind fun op => .pure (Instr.operator op)
  · exact .pure Instr.pop
  · exact .throw .unknownVariant

theorem steady_function : Steady readFunction :=
  steady_string.bind fun _ => steady_word64.bind fun _ => steady_word64.bind fun _ =>
    steady_word64.bind fun _ => .pure _

theorem steady_program : Steady readProgram :=
  (steady_sequence steady_instr).bind fun _ => (steady_sequence steady_string).bind fun _ =>
    (steady_sequence steady_function).bind fun _ => .pure _

end Image

namespace Program

/-- **Truncation is always detected.** The image of a program is decoded, and every beginning of it
that is not the whole image is refused because it ends unexpectedly, wherever the cut falls. -/
theorem decode_truncated (p : Program) (hp : p.Fits) :
    decode p.encode = .ok p ∧
      ∀ bytes, bytes <+: p.encode → bytes ≠ p.encode → decode bytes = .error .unexpectedEnd := by
  have hread : Image.readProgram p.encode = .ok (p, []) := by
    have h := Image.reads_program hp []
    rwa [List.append_nil] at h
  constructor
  · unfold decode
    rw [hread]
    rfl
  · rintro bytes ⟨cut, hcut⟩ hne
    have hcut_ne : cut ≠ [] := by
      rintro rfl
      exact hne (List.append_nil bytes ▸ hcut)
    rw [← hcut] at hread
    unfold decode
    rw [Image.steady_program.truncated hread hcut_ne]
    rfl

/-- Texts, a double, and numbers that take several bytes. -/
def severable : Program where
  code := .ofList [.push (.string "é😀"), .push (.double ⟨0x3ff8000000000000⟩), .getGlobal 0,
    .setLocal (-300), .jump 16384, .operator .endOfExpression]
  globals := ["größe"]
  functions := [⟨"f", 300, 1, 2⟩]

theorem severable_decode_truncated :
    severable.Fits ∧ decode severable.encode = .ok severable ∧
      ∀ n < severable.encode.length,
        decode (severable.encode.take n) = .error .unexpectedEnd := by
  have hfits : severable.Fits :=
    { size := by decide
      instrs := by decide +kernel
      globalCount := by decide
      globals := by decide +kernel
      functionCount := by decide
      functions := fun f hf => by
        rw [List.mem_singleton.mp hf]
        exact ⟨by decide +kernel, by decide, by decide, by decide⟩ }
  obtain ⟨hwhole, hcut⟩ := decode_truncated severable hfits
  refine ⟨hfits, hwhole, fun n hn => hcut _ (List.take_prefix n _) fun h => ?_⟩
  have hshort := congrArg List.length h
  rw [List.length_take] at hshort
  omega

end Program

end StackScript
