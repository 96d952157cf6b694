import EvmToolchain.Proofs.Code.Encoding
import EvmToolchain.Proofs.Code.Positioned

/-!
# EvmToolchain.Proofs.Code.NormalForm

The normal form of code, in which every instruction stands as it is encoded.

Encoding what was read does not always give back the bytes that were read. An
opcode byte that stands for no instruction is read as `INVALID` and becomes the
byte of that, and a push that the code cuts off is completed. `normalForm` makes
these two changes and no other, in the part of the code that does not count as
data. There it shows the encoding of every instruction at its offset
(`encode_decodeAt_normalForm`), and elsewhere the bytes of the code
(`window_normalForm`).
-/

namespace EvmToolchain

open Instruction

/-- Whether an instruction of the linear decoding starts at an offset. -/
def startsInstruction (code : Bytes) (pc : Nat) : Bool :=
  (listing code).any (·.offset == pc)

/-- The number of immediate bytes that a push at the end of the code lacks. -/
def missing (code : Bytes) : Nat :=
  match (listing code).getLast? with
  | some l => l.next - code.size
  | none => 0

/-- What becomes of a byte of the code: where the bytes count as code, an opcode
byte that stands for no instruction becomes that of `INVALID`. -/
def normalByte (code : Bytes) (isCode : Nat → Bool) (pc : Nat) (b : UInt8) : UInt8 :=
  if isCode pc && startsInstruction code pc then opcodeByte b else b

/-- The normal form of code of which some bytes count as code and the others as
data: it has no opcode bytes that stand for no instruction, and a push at its end
is complete. -/
def normalForm (code : Bytes) (isCode : Nat → Bool) : List UInt8 :=
  code.contents.mapIdx (normalByte code isCode)
    ++ List.replicate (if isCode (code.size - 1) then missing code else 0) 0

variable {code : Bytes} {isCode : Nat → Bool} {pc : Nat}

theorem startsInstruction_iff :
    startsInstruction code pc = true ↔ Walk code 0 pc ∧ pc < code.size := by
  rw [startsInstruction, List.any_eq_true]
  constructor
  · rintro ⟨l, hl, hoffset⟩
    obtain rfl : l.offset = pc := eq_of_beq hoffset
    obtain ⟨hwalk, hlt, -⟩ := mem_sweep.mp hl
    exact ⟨hwalk, hlt⟩
  · rintro ⟨hwalk, hlt⟩
    exact ⟨⟨pc, decodeAt code pc⟩, mem_sweep.mpr ⟨hwalk, hlt, rfl⟩, beq_self_eq_true pc⟩

theorem startsInstruction_eq_false (h : ¬ (Walk code 0 pc ∧ pc < code.size)) :
    startsInstruction code pc = false :=
  Bool.eq_false_iff.mpr (mt startsInstruction_iff.mp h)

/-! ### The end of the code -/

theorem missing_of_size_eq_zero (h : code.size = 0) : missing code = 0 := by
  have hlisting : listing code = [] := sweep_of_le (Nat.le_of_eq h)
  rw [missing, hlisting]
  rfl

/-- The last instruction of the code ends where the code does, or as far behind
it as the code lacks bytes. -/
theorem exists_last (hpos : 0 < code.size) :
    ∃ l ∈ listing code, l.next = code.size + missing code := by
  obtain ⟨stop, hspans, hle, -⟩ := Spans.exists_of_sweep code 0 code.size
  cases hlast : (listing code).getLast? with
  | none =>
      rw [List.getLast?_eq_none_iff, listing, sweep_of_lt hpos] at hlast
      cases hlast
  | some l =>
      obtain ⟨pre, hlisting⟩ := List.getLast?_eq_some_iff.mp hlast
      rw [← listing, hlisting] at hspans
      obtain ⟨m, -, hspans⟩ := hspans.split
      cases hspans with
      | cons _ hnil =>
          cases hnil
          refine ⟨l, List.mem_of_getLast? hlast, ?_⟩
          rw [missing, hlast]
          exact (Nat.add_sub_cancel' hle).symm

/-! ### What the normal form shows -/

theorem size_normalForm (code : Bytes) (isCode : Nat → Bool) :
    (Bytes.ofList (normalForm code isCode)).size
      = code.size + if isCode (code.size - 1) then missing code else 0 := by
  rw [Bytes.size_ofList, normalForm, List.length_append, List.length_mapIdx,
    Bytes.length_contents, List.length_replicate]

theorem byteAt_normalForm (code : Bytes) (isCode : Nat → Bool) (pc : Nat) :
    (Bytes.ofList (normalForm code isCode)).byteAt pc
      = normalByte code isCode pc (code.byteAt pc) := by
  rw [Bytes.byteAt_ofList, normalForm, List.getD_eq_getElem?_getD, List.getElem?_append,
    List.length_mapIdx, Bytes.length_contents]
  by_cases hlt : pc < code.size
  · have hlt' : pc < code.contents.length := by rwa [Bytes.length_contents]
    rw [if_pos hlt, List.getElem?_mapIdx, Bytes.byteAt_eq_getD, List.getD_eq_getElem?_getD,
      List.getElem?_eq_getElem hlt']
    rfl
  · -- past the end all bytes read as zero, and no instruction starts there
    have hstarts : startsInstruction code pc = false :=
      startsInstruction_eq_false fun h => hlt h.2
    rw [if_neg hlt, List.getElem?_replicate, normalByte, hstarts, Bool.and_false,
      Bytes.byteAt_of_size_le (Nat.not_lt.mp hlt), if_neg Bool.false_ne_true]
    split <;> split <;> rfl

/-- Bytes that count as data stay as they are. -/
theorem window_normalForm {n : Nat} (h : ∀ k < n, isCode (pc + k) = false) :
    (Bytes.ofList (normalForm code isCode)).window pc n = code.window pc n := by
  refine Bytes.window_congr fun k hk => ?_
  rw [byteAt_normalForm, normalByte, h k hk]
  rfl

/-- The opcode byte of an instruction that counts as code. -/
theorem window_normalForm_opcode (hwalk : Walk code 0 pc) (hlt : pc < code.size)
    (hcode : isCode pc = true) :
    (Bytes.ofList (normalForm code isCode)).window pc 1 = [opcodeByte (code.byteAt pc)] := by
  show [(Bytes.ofList (normalForm code isCode)).byteAt pc] = _
  rw [byteAt_normalForm, normalByte, hcode, startsInstruction_iff.mpr ⟨hwalk, hlt⟩, Bool.and_self,
    if_pos rfl]

/-- The immediate bytes of an instruction stay as they are, because no other
instruction starts among them. -/
theorem window_normalForm_immediate (hwalk : Walk code 0 pc) :
    (Bytes.ofList (normalForm code isCode)).window (pc + 1) (announced (code.byteAt pc))
      = code.window (pc + 1) (announced (code.byteAt pc)) := by
  refine Bytes.window_congr fun k hk => ?_
  have hstarts : startsInstruction code (pc + 1 + k) = false := by
    refine startsInstruction_eq_false fun ⟨hwalk', _⟩ => ?_
    have hnext := hwalk.next_le_of_lt hwalk' (by omega)
    rw [length_decodeAt] at hnext
    omega
  rw [byteAt_normalForm, normalByte, hstarts, Bool.and_false]
  rfl

/-- An instruction that counts as code is encoded as the normal form shows it. -/
theorem encode_decodeAt_normalForm (hwalk : Walk code 0 pc) (hlt : pc < code.size)
    (hcode : isCode pc = true) :
    (decodeAt code pc).encode = .ok
      ((Bytes.ofList (normalForm code isCode)).window pc (decodeAt code pc).length) := by
  rw [encode_decodeAt, length_decodeAt, Bytes.window_add,
    window_normalForm_opcode hwalk hlt hcode, window_normalForm_immediate hwalk]
  rfl

end EvmToolchain
