import EvmToolchain.Proofs.Code.Blocks

/-!
# EvmToolchain.Proofs.Code.Alignment

Codes that decode alike.

The instruction at an offset depends on the bytes that it covers only
(`Instruction.decodeAt_congr`), and a walk on the instructions that it passes
(`Walk.congr_iff`). Within a block this comes down to the bytes of the block
(`Block.IsBasic.decodeAt_congr`). So codes with different bytes, and even of
different size, may show the same instructions at the same boundaries
(`Aligned`), and then they are decoded alike (`Aligned.decodeAll_eq`).
-/

namespace EvmToolchain

namespace Instruction

variable {code code' : Bytes} {pc : Nat}

/-- Where all bytes of an instruction are the same, it is read again. -/
theorem decodeAt_congr
    (h : ∀ k < (decodeAt code pc).length, code'.byteAt (pc + k) = code.byteAt (pc + k)) :
    decodeAt code' pc = decodeAt code pc := by
  have hbyte : code'.byteAt pc = code.byteAt pc := h 0 (length_decodeAt_pos code pc)
  by_cases hpush : pushBase < code.byteAt pc ∧ code.byteAt pc < 0x80
  · rw [decodeAt_of_push hpush, decodeAt_of_push (hbyte ▸ hpush), hbyte]
    rw [decodeAt_of_push hpush] at h
    refine congrArg push (Bytes.window_congr fun k hk => ?_)
    have hlen : 1 + k < (push (code.window (pc + 1)
        ((code.byteAt pc).toNat - pushBase.toNat))).length := by
      show 1 + k < 1 + (code.window _ _).length
      rw [Bytes.length_window]
      omega
    rw [Nat.add_assoc]
    exact h (1 + k) hlen
  · -- all other instructions are single bytes
    unfold decodeAt
    dsimp only
    rw [hbyte, if_neg hpush, if_neg hpush]

end Instruction

open Instruction

namespace Walk

variable {code code' : Bytes} {a b c : Nat}

/-- A walk only looks at the instructions that it passes. -/
theorem congr (hwalk : Walk code a c)
    (h : ∀ pc, Walk code a pc → pc < c → decodeAt code' pc = decodeAt code pc) :
    Walk code' a c := by
  induction hwalk with
  | refl => exact .refl _
  | @step pc stop rest ih =>
      have hpos := length_decodeAt_pos code pc
      have hle := rest.le
      refine .step ?_
      rw [h pc (.refl pc) (by omega)]
      exact ih fun q hq => h q (.step hq)

/-- Codes with the same instructions up to an offset have the same walks up to
there. -/
theorem congr_iff (h : ∀ pc, Walk code a pc → pc < b → decodeAt code' pc = decodeAt code pc)
    (hc : c ≤ b) : Walk code' a c ↔ Walk code a c := by
  constructor
  · intro hwalk
    induction hwalk with
    | refl => exact .refl _
    | @step pc stop rest ih =>
        have hpos := length_decodeAt_pos code' pc
        have hle := rest.le
        have hsame := h pc (.refl pc) (by omega)
        rw [hsame] at ih
        exact .step (ih (fun q hq => h q (.step hq)) hc)
  · exact fun hwalk => hwalk.congr fun pc hpc hlt => h pc hpc (by omega)

end Walk

/-- Where all bytes of a block are the same, its instructions are read again. Only
at the end of the code does an instruction reach past its block, and what it
reads there are zeros. -/
theorem Block.IsBasic.decodeAt_congr {code code' : Bytes} {b : Block} {pc : Nat}
    (hb : b.IsBasic code) (hpc : Walk code b.start pc) (hlt : pc < b.stop)
    (h : ∀ i, b.start ≤ i → i < b.stop → code'.byteAt i = code.byteAt i)
    (hend : b.stop = code.size → code'.size = code.size) :
    decodeAt code' pc = decodeAt code pc := by
  refine Instruction.decodeAt_congr fun k hk => ?_
  have hle := hpc.le
  by_cases hin : pc + k < b.stop
  · exact h (pc + k) (by omega) hin
  · rcases Layout.next_le_or_eq hb hpc hlt with hnext | hlast
    · omega
    · have hsize := hend hlast
      rw [Bytes.byteAt_of_size_le (by omega), Bytes.byteAt_of_size_le (by omega)]

/-- At every instruction boundary of some code, another one ends likewise or
shows the same instruction. -/
structure Aligned (code code' : Bytes) : Prop where
  lt_size_iff : ∀ {pc}, Walk code 0 pc → (pc < code'.size ↔ pc < code.size)
  decodeAt_eq : ∀ {pc}, Walk code 0 pc → pc < code.size → decodeAt code' pc = decodeAt code pc

/-- Aligned codes have the same instruction boundaries. -/
theorem Aligned.walk_iff {code code' : Bytes} (h : Aligned code code') (pc : Nat) :
    Walk code' 0 pc ∧ pc < code'.size ↔ Walk code 0 pc ∧ pc < code.size := by
  have hcongr : ∀ {q}, q ≤ code'.size → (Walk code' 0 q ↔ Walk code 0 q) :=
    Walk.congr_iff fun q hq hlt => h.decodeAt_eq hq ((h.lt_size_iff hq).mp hlt)
  constructor
  · rintro ⟨hwalk, hlt⟩
    have hwalk := (hcongr (Nat.le_of_lt hlt)).mp hwalk
    exact ⟨hwalk, (h.lt_size_iff hwalk).mp hlt⟩
  · rintro ⟨hwalk, hlt⟩
    have hlt := (h.lt_size_iff hwalk).mpr hlt
    exact ⟨(hcongr (Nat.le_of_lt hlt)).mpr hwalk, hlt⟩

/-- From a boundary on, aligned codes show the same instructions. -/
theorem Aligned.sweep_eq {code code' : Bytes} (h : Aligned code code') {pc : Nat}
    (hwalk : Walk code 0 pc) : sweep code' pc code'.size = sweep code pc code.size := by
  by_cases hlt : pc < code.size
  · have hpos := length_decodeAt_pos code pc
    rw [sweep_of_lt hlt, sweep_of_lt ((h.lt_size_iff hwalk).mpr hlt), h.decodeAt_eq hwalk hlt,
      h.sweep_eq hwalk.snoc]
  · have hlt' : ¬ pc < code'.size := mt (h.lt_size_iff hwalk).mp hlt
    rw [sweep_of_le (Nat.not_lt.mp hlt), sweep_of_le (Nat.not_lt.mp hlt')]
termination_by code.size - pc

theorem Aligned.decodeAll_eq {code code' : Bytes} (h : Aligned code code') :
    decodeAll code' = decodeAll code :=
  congrArg (List.map Located.instruction) (h.sweep_eq (.refl 0))

end EvmToolchain
