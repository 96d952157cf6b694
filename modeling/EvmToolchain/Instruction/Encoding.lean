import EvmToolchain.Instruction.Basic

/-!
# EvmToolchain.Instruction.Encoding

The bytes of a single instruction. A label push has none: its label has to be
resolved to an address first.
-/

namespace EvmToolchain.Instruction

/-- The opcode byte of `PUSH0`. A push of `n` bytes has the byte `n` further. -/
def pushBase : UInt8 := 0x5f

/-- The opcode byte of `JUMPDEST`. -/
def jumpdestByte : UInt8 := 0x5b

/-- The most bytes an immediate can have before the opcode byte overflows. -/
def maxEncodable : Nat := 0xff - pushBase.toNat

/-- The bytes of an instruction. -/
def encode (i : Instruction) : Except InstructionError (List UInt8) :=
  match i.mnemonic with
  | .push =>
    if i.data.length ≤ maxEncodable then
      .ok ((pushBase + UInt8.ofNat i.data.length) :: i.data)
    else .error (.opcodeOverflow i.data.length)
  | .push0 => .ok [pushBase]
  | .data => .ok i.data
  | .jumpdest => .ok [jumpdestByte]
  | .pushLabel => .error (.unresolvedLabel i.label)
  | .op o => .ok [o.toByte]
  | .spelled text =>
    match Spelling.row? text with
    | some row => .ok [row.byte]
    | none => .error (.unknownMnemonic text)

/-- Every encoding has the length that the instruction announces. -/
theorem length_encode {i : Instruction} {bytes : List UInt8} (h : i.encode = .ok bytes) :
    bytes.length = i.length := by
  obtain ⟨mnemonic, data, label⟩ := i
  cases mnemonic with
  | push =>
    simp only [encode] at h
    split at h
    · cases h
      simp [length, Nat.add_comm]
    · cases h
  | pushLabel => cases h
  | spelled text =>
    simp only [encode] at h
    split at h
    · cases h
      rfl
    · cases h
  | _ =>
    cases h
    rfl

end EvmToolchain.Instruction
