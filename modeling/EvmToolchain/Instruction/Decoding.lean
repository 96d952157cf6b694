import EvmToolchain.Instruction.Encoding

/-!
# EvmToolchain.Instruction.Decoding

Reading instructions from code. Immediate bytes past the end of the code read
as zero, a byte without a table entry reads as `INVALID`, and a jump
destination gets its own offset as label.

`sweep` reads one instruction after the other. It is the only place where the
distance between instruction offsets is decided; linear decoding, block
discovery and the replay of blocks all go through it.
-/

namespace EvmToolchain

/-- An offset at which no instruction can be decoded. -/
structure DecodeError where
  offset : Int
  /-- The size of the code. -/
  size : Nat
  deriving Repr, DecidableEq

/-- The wording of a decoding error. -/
def DecodeError.message (e : DecodeError) : String :=
  "Cannot decode at offset " ++ toString e.offset ++ " (code is " ++ toString e.size ++ " bytes)"

namespace Instruction

/-- The instruction at an offset, reading zeros past the end of the code. -/
def decodeAt (code : Bytes) (pc : Nat) : Instruction :=
  let b := code.byteAt pc
  if b = pushBase then push0
  else if b = jumpdestByte then jumpdest pc
  else if pushBase < b ∧ b < 0x80 then push (code.window (pc + 1) (b.toNat - pushBase.toNat))
  else op ((Opcode.ofByte? b).getD .invalid)

/-- The instruction at an offset of the code. -/
def decode (code : Bytes) (offset : Int) : Except DecodeError Instruction :=
  if 0 ≤ offset ∧ offset < code.size then .ok (decodeAt code offset.toNat)
  else .error ⟨offset, code.size⟩

theorem length_decodeAt_pos (code : Bytes) (pc : Nat) : 0 < (decodeAt code pc).length := by
  unfold decodeAt
  dsimp only
  split
  · decide
  split
  · simp [length, jumpdest]
  split
  · simp only [length, push]
    omega
  · simp [length, op]

end Instruction

/-- An instruction and the offset where it starts. -/
structure Located where
  offset : Nat
  instruction : Instruction
  deriving Repr, DecidableEq

/-- The offset just past the instruction. -/
def Located.next (l : Located) : Nat := l.offset + l.instruction.length

/-- The instructions that start at `pc` or later and before `stop`, one after
the other. -/
def sweep (code : Bytes) (pc stop : Nat) : List Located :=
  if pc < stop then
    let insn := Instruction.decodeAt code pc
    ⟨pc, insn⟩ :: sweep code (pc + insn.length) stop
  else []
termination_by stop - pc
decreasing_by
  have := Instruction.length_decodeAt_pos code pc
  omega

theorem sweep_of_lt {code : Bytes} {pc stop : Nat} (h : pc < stop) :
    sweep code pc stop =
      ⟨pc, Instruction.decodeAt code pc⟩ ::
        sweep code (pc + (Instruction.decodeAt code pc).length) stop := by
  rw [sweep, if_pos h]

theorem sweep_of_le {code : Bytes} {pc stop : Nat} (h : stop ≤ pc) : sweep code pc stop = [] := by
  rw [sweep, if_neg (Nat.not_lt.mpr h)]

/-- Linear decoding of the whole code, with offsets. -/
def listing (code : Bytes) : List Located := sweep code 0 code.size

/-- Linear decoding of the whole code. -/
def decodeAll (code : Bytes) : List Instruction := (listing code).map (·.instruction)

end EvmToolchain
