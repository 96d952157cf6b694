import EvmToolchain.Instruction.Decoding

/-!
# EvmToolchain.Proofs.Code.Encoding

Decoding inverts encoding, one instruction at a time.

Instructions that can be read from code (`Instruction.Readable`) all have an
encoding, and where the code holds that encoding (`Bytes.Holds`), they are read
again. Only the label of a jump destination is lost: its own offset takes its
place. Any other instruction without data (`Instruction.Whole`) is at least read
over in as many bytes as it has.

The other way round, what is read at an offset is encoded by the bytes from which
it was read, unless its opcode byte stands for no instruction
(`Instruction.encode_decodeAt`).
-/

namespace EvmToolchain

theorem BigEndian.capacity_mono {m n : Nat} (h : m ≤ n) : capacity m ≤ capacity n :=
  Nat.pow_le_pow_right (by decide) h

/-- The code has the given bytes from an offset on. -/
def Bytes.Holds (code : Bytes) (pc : Nat) (bytes : List UInt8) : Prop :=
  ∀ (k : Nat) (b : UInt8), bytes[k]? = some b → code.byteAt (pc + k) = b

namespace Bytes.Holds

variable {code : Bytes} {pc : Nat} {a b : List UInt8}

theorem left (h : code.Holds pc (a ++ b)) : code.Holds pc a := by
  intro k x hk
  obtain ⟨hlt, -⟩ := List.getElem?_eq_some_iff.mp hk
  exact h k x (by rw [List.getElem?_append_left hlt, hk])

theorem right (h : code.Holds pc (a ++ b)) : code.Holds (pc + a.length) b := by
  intro k x hk
  have := h (a.length + k) x (by rw [List.getElem?_append_right (Nat.le_add_right _ _),
    Nat.add_sub_cancel_left, hk])
  rwa [Nat.add_assoc]

theorem byteAt_head {x : UInt8} (h : code.Holds pc (x :: a)) : code.byteAt pc = x :=
  h 0 x rfl

theorem window (h : code.Holds pc a) : code.window pc a.length = a := by
  refine List.ext_getElem? fun k => ?_
  rw [Bytes.getElem?_window]
  split
  · next hlt =>
    rw [List.getElem?_eq_getElem hlt, h k _ (List.getElem?_eq_getElem hlt)]
  · next hge => rw [List.getElem?_eq_none (Nat.not_lt.mp hge)]

/-- A buffer holds what can be read from it. -/
theorem of_window (code : Bytes) (pc count : Nat) : code.Holds pc (code.window pc count) := by
  intro k x hk
  rw [Bytes.getElem?_window] at hk
  split at hk
  · exact Option.some.inj hk
  · cases hk

/-- Code that was made from bytes holds them. -/
theorem ofList (bytes : List UInt8) : (Bytes.ofList bytes).Holds 0 bytes := by
  intro k x hk
  rw [Nat.zero_add, Bytes.byteAt_ofList, List.getD_eq_getElem?_getD, hk]
  rfl

end Bytes.Holds

/-- A stretch of a buffer is read in two parts. -/
theorem Bytes.window_add (b : Bytes) (start m n : Nat) :
    b.window start (m + n) = b.window start m ++ b.window (start + m) n := by
  simp only [window, List.range_add, List.map_append, List.map_map]
  congr 1
  refine List.map_congr_left fun k _ => ?_
  show b.byteAt (start + (m + k)) = b.byteAt (start + m + k)
  rw [Nat.add_assoc]

namespace Instruction

/-- The instructions that can be read from code. -/
inductive Readable : Instruction → Prop
  | push {data : List UInt8} : 1 ≤ data.length → data.length ≤ maxImmediate → Readable (.push data)
  | push0 : Readable .push0
  | jumpdest (label : Int) : Readable (.jumpdest label)
  | op (o : Opcode) : Readable (.op o)

/-- An instruction that can be read has an encoding. -/
theorem Readable.exists_encode {i : Instruction} (h : i.Readable) :
    ∃ bytes, i.encode = .ok bytes := by
  cases h with
  | @push data _ hle =>
      have hmax : data.length ≤ maxEncodable := Nat.le_trans hle (by decide)
      exact ⟨(pushBase + UInt8.ofNat data.length) :: data, if_pos hmax⟩
  | push0 => exact ⟨_, rfl⟩
  | jumpdest label => exact ⟨_, rfl⟩
  | op o => exact ⟨_, rfl⟩

theorem Readable.mnemonic_ne {i : Instruction} (h : i.Readable) : i.mnemonic ≠ .pushLabel := by
  cases h <;> exact Mnemonic.noConfusion

theorem readable_decodeAt (code : Bytes) (pc : Nat) : Readable (decodeAt code pc) := by
  unfold decodeAt
  dsimp only
  split
  · exact .push0
  split
  · exact .jumpdest pc
  split
  · next h =>
    have hlow : 0x5f < (code.byteAt pc).toNat := h.1
    have hhigh : (code.byteAt pc).toNat < 0x80 := h.2
    refine .push ?_ ?_ <;> rw [Bytes.length_window] <;> simp only [pushBase, maxImmediate]
    · exact Nat.le_sub_of_add_le (Nat.add_comm .. ▸ hlow)
    · show (code.byteAt pc).toNat - 95 ≤ 32
      omega
  · exact .op _

theorem readable_of_decode {code : Bytes} {offset : Int} {i : Instruction}
    (h : decode code offset = .ok i) : i.Readable := by
  unfold decode at h
  split at h
  · obtain rfl := Except.ok.inj h
    exact readable_decodeAt code offset.toNat
  · cases h

/-- The instruction as it is read at an offset: a jump destination is labelled
with the offset. -/
def readAt (i : Instruction) (pc : Nat) : Instruction :=
  if i.mnemonic = .jumpdest then jumpdest pc else i

/-- What was read at an offset is as it is read there. -/
theorem readAt_decodeAt (code : Bytes) (pc : Nat) :
    (decodeAt code pc).readAt pc = decodeAt code pc := by
  unfold decodeAt
  dsimp only
  split
  · rfl
  split
  · rfl
  split <;> rfl

/-- A jump destination that was read is labelled with its offset. -/
theorem label_decodeAt {code : Bytes} {pc : Nat}
    (h : (decodeAt code pc).mnemonic = .jumpdest) :
    (decodeAt code pc).label = some (pc : Int) := by
  rw [← readAt_decodeAt, readAt, if_pos h]
  rfl

/-- Opcodes are encoded apart from pushes and jump destinations. -/
theorem toByte_spec (o : Opcode) :
    o.toByte ≠ pushBase ∧ o.toByte ≠ jumpdestByte ∧ ¬ (pushBase < o.toByte ∧ o.toByte < 0x80) := by
  cases o with
  | dup n => revert n; decide
  | swap n => revert n; decide
  | log n => revert n; decide
  | _ => decide

theorem decodeAt_op {code : Bytes} {pc : Nat} {o : Opcode} (h : code.byteAt pc = o.toByte) :
    decodeAt code pc = op o := by
  obtain ⟨hpush0, hjumpdest, hpush⟩ := toByte_spec o
  unfold decodeAt
  dsimp only
  rw [h, if_neg hpush0, if_neg hjumpdest, if_neg hpush, Opcode.ofByte?_toByte]
  rfl

theorem decodeAt_jumpdest {code : Bytes} {pc : Nat} (h : code.byteAt pc = jumpdestByte) :
    decodeAt code pc = jumpdest pc := by
  unfold decodeAt
  dsimp only
  rw [h, if_neg (by decide), if_pos rfl]

theorem decodeAt_push0 {code : Bytes} {pc : Nat} (h : code.byteAt pc = pushBase) :
    decodeAt code pc = push0 := by
  unfold decodeAt
  dsimp only
  rw [h, if_pos rfl]

/-- A push is read together with the bytes that its opcode announces. -/
theorem decodeAt_of_push {code : Bytes} {pc : Nat}
    (h : pushBase < code.byteAt pc ∧ code.byteAt pc < 0x80) :
    decodeAt code pc
      = push (code.window (pc + 1) ((code.byteAt pc).toNat - pushBase.toNat)) := by
  have hlow : 95 < (code.byteAt pc).toNat := h.1
  have hne : ∀ {b : UInt8}, b.toNat ≤ 95 → code.byteAt pc ≠ b := by
    intro b hb heq
    rw [heq] at hlow
    omega
  unfold decodeAt
  dsimp only
  rw [if_neg (hne (by decide)), if_neg (hne (by decide)), if_pos h]

/-- The opcode byte of the push of some bytes. -/
theorem toNat_pushByte {n : Nat} (h : n ≤ maxImmediate) :
    (pushBase + UInt8.ofNat n).toNat = 95 + n := by
  rw [maxImmediate] at h
  rw [UInt8.toNat_add, UInt8.toNat_ofNat']
  show (95 + n % 256) % 256 = 95 + n
  omega

theorem decodeAt_push {code : Bytes} {pc : Nat} {data : List UInt8} (hpos : 1 ≤ data.length)
    (hle : data.length ≤ maxImmediate)
    (h : code.Holds pc ((pushBase + UInt8.ofNat data.length) :: data)) :
    decodeAt code pc = push data := by
  have hnat : (code.byteAt pc).toNat = 95 + data.length := by
    rw [h.byteAt_head, toNat_pushByte hle]
  have hrange : pushBase < code.byteAt pc ∧ code.byteAt pc < 0x80 := by
    rw [maxImmediate] at hle
    refine ⟨UInt8.lt_iff_toNat_lt.mpr ?_, UInt8.lt_iff_toNat_lt.mpr ?_⟩
    · show 95 < (code.byteAt pc).toNat
      omega
    · show (code.byteAt pc).toNat < 128
      omega
  have hcount : (code.byteAt pc).toNat - pushBase.toNat = data.length := by
    show (code.byteAt pc).toNat - 95 = data.length
    omega
  have hdata : code.Holds (pc + 1) data :=
    Bytes.Holds.right (a := [pushBase + UInt8.ofNat data.length]) h
  rw [decodeAt_of_push hrange, hcount, hdata.window]

/-- An instruction is read where its encoding stands. -/
theorem decodeAt_encode {code : Bytes} {pc : Nat} {i : Instruction} (hi : i.Readable)
    {bytes : List UInt8} (hencode : i.encode = .ok bytes) (h : code.Holds pc bytes) :
    decodeAt code pc = i.readAt pc := by
  cases hi with
  | @push data hpos hle =>
      have hbytes : bytes = (pushBase + UInt8.ofNat data.length) :: data := by
        have hmax : data.length ≤ maxEncodable := Nat.le_trans hle (by decide)
        have hok : (push data).encode = .ok ((pushBase + UInt8.ofNat data.length) :: data) :=
          if_pos hmax
        exact Except.ok.inj (hencode.symm.trans hok)
      rw [decodeAt_push hpos hle (hbytes ▸ h)]
      rfl
  | push0 =>
      obtain rfl := Except.ok.inj hencode
      exact decodeAt_push0 h.byteAt_head
  | jumpdest label =>
      obtain rfl := Except.ok.inj hencode
      exact decodeAt_jumpdest h.byteAt_head
  | op o =>
      obtain rfl := Except.ok.inj hencode
      exact decodeAt_op h.byteAt_head

/-! ### Lengths -/

/-- The number of immediate bytes that an opcode byte announces. -/
def announced (b : UInt8) : Nat :=
  if pushBase < b ∧ b < 0x80 then b.toNat - pushBase.toNat else 0

/-- How many bytes are read is decided by the opcode byte. -/
theorem length_decodeAt (code : Bytes) (pc : Nat) :
    (decodeAt code pc).length = 1 + announced (code.byteAt pc) := by
  unfold decodeAt announced
  dsimp only
  by_cases hpush0 : code.byteAt pc = pushBase
  · rw [if_pos hpush0, hpush0]
    rfl
  by_cases hjumpdest : code.byteAt pc = jumpdestByte
  · rw [if_neg hpush0, if_pos hjumpdest, hjumpdest]
    rfl
  rw [if_neg hpush0, if_neg hjumpdest]
  split
  · simp [length, push]
  · rfl

/-- An instruction proper: it is no data, and the opcode byte of its encoding
announces just the bytes behind it. -/
structure Whole (i : Instruction) : Prop where
  not_data : i.mnemonic ≠ .data
  announces : ∀ {b : UInt8} {immediate : List UInt8}, i.encode = .ok (b :: immediate) →
    announced b = immediate.length

theorem length_pos {i : Instruction} (h : i.mnemonic ≠ .data) : 0 < i.length := by
  unfold length
  split <;> first | omega | contradiction

theorem announced_toByte (o : Opcode) : announced o.toByte = 0 := if_neg (toByte_spec o).2.2

/-- A push of no bytes has the encoding of the push of zero. -/
theorem announced_pushByte {n : Nat} (h : n ≤ maxImmediate) :
    announced (pushBase + UInt8.ofNat n) = n := by
  have hnat := toNat_pushByte h
  rw [maxImmediate] at h
  unfold announced
  split
  · rw [hnat]
    exact Nat.add_sub_cancel_left 95 n
  · next hrange =>
    refine (Nat.eq_zero_of_not_pos fun hpos => hrange ?_).symm
    refine ⟨UInt8.lt_iff_toNat_lt.mpr ?_, UInt8.lt_iff_toNat_lt.mpr ?_⟩
    · show 95 < _
      omega
    · show _ < 128
      omega

/-- All instructions without data are whole, except for pushes of more than a
word and for spelled names of pushes, which have an opcode byte only. -/
theorem whole_of_not_data {i : Instruction} (h : i.mnemonic ≠ .data)
    (hpush : i.mnemonic = .push → i.data.length ≤ maxImmediate)
    (hspelled : ∀ text row, i.mnemonic = .spelled text → Spelling.row? text = some row →
      announced row.byte = 0) : i.Whole := by
  refine ⟨h, fun {b immediate} hencode => ?_⟩
  rw [encode] at hencode
  split at hencode
  · next hm =>
    split at hencode
    · obtain ⟨rfl, rfl⟩ := List.cons.inj (Except.ok.inj hencode)
      exact announced_pushByte (hpush hm)
    · cases hencode
  · obtain ⟨rfl, rfl⟩ := List.cons.inj (Except.ok.inj hencode)
    rfl
  · next hm => exact absurd hm h
  · obtain ⟨rfl, rfl⟩ := List.cons.inj (Except.ok.inj hencode)
    rfl
  · cases hencode
  · obtain ⟨rfl, rfl⟩ := List.cons.inj (Except.ok.inj hencode)
    exact announced_toByte _
  · next text hm =>
    split at hencode
    · next row hrow =>
      obtain ⟨rfl, rfl⟩ := List.cons.inj (Except.ok.inj hencode)
      exact hspelled text row hm hrow
    · cases hencode

/-- Where the encoding of an instruction proper stands, an instruction of the
same length is read. -/
theorem Whole.length_decodeAt {code : Bytes} {pc : Nat} {i : Instruction} (hi : i.Whole)
    {bytes : List UInt8} (hencode : i.encode = .ok bytes) (h : code.Holds pc bytes) :
    (decodeAt code pc).length = i.length := by
  have hlength := length_encode hencode
  cases bytes with
  | nil => exact absurd hlength (Nat.ne_of_lt (length_pos hi.not_data))
  | cons b immediate =>
      rw [Instruction.length_decodeAt, h.byteAt_head, hi.announces hencode, ← hlength,
        List.length_cons, Nat.add_comm]

/-! ### Encoding what was read -/

/-- Whether the opcode table has an entry for a byte. Beside the opcodes without
an immediate it lists jump destinations and the pushes of one to 32 bytes. -/
def hasEntry (b : UInt8) : Bool :=
  (Opcode.ofByte? b).isSome || b == jumpdestByte || (pushBase < b && b < 0x80)

/-- The opcode byte of what a byte is read as: a byte that stands for no
instruction is read as `INVALID`. -/
def opcodeByte (b : UInt8) : UInt8 :=
  if !hasEntry b && b != pushBase then 0xfe else b

theorem opcodeByte_of_hasEntry {b : UInt8} (h : hasEntry b = true) : opcodeByte b = b := by
  rw [opcodeByte, h]
  rfl

@[simp] theorem opcodeByte_pushBase : opcodeByte pushBase = pushBase := by
  rw [opcodeByte, bne_self_eq_false, Bool.and_false]
  rfl

/-- The opcode byte of a push is the one that announced its immediate. -/
theorem pushBase_add {b : UInt8} (h : pushBase < b ∧ b < 0x80) :
    pushBase + UInt8.ofNat (b.toNat - pushBase.toNat) = b := by
  have hlow : 95 < b.toNat := h.1
  have hhigh : b.toNat < 128 := h.2
  have hcount : b.toNat - pushBase.toNat ≤ maxImmediate := by
    show b.toNat - 95 ≤ 32
    omega
  refine UInt8.toNat_inj.mp ?_
  rw [toNat_pushByte hcount]
  show 95 + (b.toNat - 95) = b.toNat
  omega

/-- What was read is encoded by the bytes from which it was read, except for an
opcode byte that stands for no instruction. -/
theorem encode_decodeAt (code : Bytes) (pc : Nat) :
    (decodeAt code pc).encode = .ok
      (opcodeByte (code.byteAt pc) :: code.window (pc + 1) (announced (code.byteAt pc))) := by
  by_cases hpush0 : code.byteAt pc = pushBase
  · rw [decodeAt_push0 hpush0, hpush0, opcodeByte_pushBase]
    rfl
  by_cases hjumpdest : code.byteAt pc = jumpdestByte
  · have hentry : hasEntry jumpdestByte = true := by
      rw [hasEntry, beq_self_eq_true, Bool.or_true, Bool.true_or]
    rw [decodeAt_jumpdest hjumpdest, hjumpdest, opcodeByte_of_hasEntry hentry]
    rfl
  by_cases hpush : pushBase < code.byteAt pc ∧ code.byteAt pc < 0x80
  · have hentry : hasEntry (code.byteAt pc) = true := by
      rw [hasEntry, decide_eq_true hpush.1, decide_eq_true hpush.2, Bool.and_self, Bool.or_true]
    obtain ⟨bytes, hbytes⟩ := (readable_decodeAt code pc).exists_encode
    rw [decodeAt_of_push hpush] at hbytes ⊢
    rw [hbytes, announced, if_pos hpush, opcodeByte_of_hasEntry hentry]
    simp only [encode, push, Bytes.length_window, pushBase_add hpush] at hbytes
    split at hbytes
    · exact congrArg Except.ok (Except.ok.inj hbytes).symm
    · cases hbytes
  -- any other byte is looked up among the opcodes without an immediate
  have hop : decodeAt code pc = op ((Opcode.ofByte? (code.byteAt pc)).getD .invalid) := by
    unfold decodeAt
    dsimp only
    rw [if_neg hpush0, if_neg hjumpdest, if_neg hpush]
  rw [hop, announced, if_neg hpush]
  cases hopcode : Opcode.ofByte? (code.byteAt pc) with
  | some o =>
      have hentry : hasEntry (code.byteAt pc) = true := by
        rw [hasEntry, hopcode, Option.isSome_some, Bool.true_or, Bool.true_or]
      rw [opcodeByte_of_hasEntry hentry, ← Opcode.toByte_of_ofByte? hopcode]
      rfl
  | none =>
      have hentry : hasEntry (code.byteAt pc) = false := by
        rw [hasEntry, hopcode, beq_eq_false_iff_ne.mpr hjumpdest, ← Bool.decide_and,
          decide_eq_false hpush]
        rfl
      rw [opcodeByte, hentry, bne_iff_ne.mpr hpush0]
      rfl

end Instruction

end EvmToolchain
