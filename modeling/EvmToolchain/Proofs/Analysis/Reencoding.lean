import EvmToolchain.Proofs.Analysis.DeadBlocks
import EvmToolchain.Proofs.Analysis.Flattening
import EvmToolchain.Proofs.Code.NormalForm

/-!
# EvmToolchain.Proofs.Analysis.Reencoding

Flattened code is encoded as the code that was disassembled, in normal form.

The bytes of reachable blocks count as code (`Disassembly.isCode`). With this the
instructions of a disassembly stand one after the other in the normal form of its
code, up to its end (`Disassembly.spans_located_normalForm`), and each of them is
encoded as the normal form shows it (`Disassembly.encode_of_mem_located`). As the
normal form thus holds the encodings of the instructions, it also decodes to the
same instructions as the code (`Disassembly.decodeAll_normalForm`).

The linear decoding is a case of this, in which all blocks are reachable.
-/

namespace EvmToolchain

open Instruction

/-- If a block ends with the code, then the instruction that reaches to the end of
the code starts in that block. -/
theorem Block.IsBasic.start_le_of_next_ge {code : Bytes} {b : Block} {l : Located}
    (hb : b.IsBasic code) (hend : b.stop = code.size) (hl : l ∈ listing code)
    (hnext : code.size ≤ l.next) : b.start ≤ l.offset := by
  obtain ⟨pc, rfl, hwalk, -⟩ := exists_of_mem_sweep hl
  have hlt := b.start_lt_stop
  by_contra hbefore
  have hle : Located.next ⟨pc, decodeAt code pc⟩ ≤ b.start :=
    hwalk.next_le_of_lt hb.walk (Nat.not_le.mp hbefore)
  omega

namespace Disassembly

section Encoded

variable {σ : Type} [Domain σ] {code : Bytes} {d : Disassembly σ}

/-- The bytes of reachable blocks count as code. -/
def isCode (d : Disassembly σ) (pc : Nat) : Bool := !d.isDead pc

/-- Everything counts as code if all blocks are reachable. -/
theorem isCode_of_reachable (hreach : ∀ id < d.blocks.size, isReachableIn d.contexts id = true) :
    d.isCode = fun _ => true := by
  funext pc
  rw [isCode, isDead, Bool.not_eq_true', List.any_eq_false]
  rintro ⟨b, id⟩ hb
  show ¬ (b.encloses pc && !isReachableIn d.contexts id) = true
  rw [hreach id (lt_size_of_mem_zipIdx hb), Bool.not_true, Bool.and_false]
  exact Bool.false_ne_true

variable (hlayout : d.toLayout = Layout.ofCode code)

include hlayout

theorem isCode_eq {id : Nat} {b : Block} {pc : Nat}
    (hb : (Layout.ofCode code).blocks[id]? = some b) (hle : b.start ≤ pc) (hlt : pc < b.stop) :
    d.isCode pc = isReachableIn d.contexts id := by
  rw [isCode, isDead_eq hlayout hb hle hlt, Bool.not_not]

/-- The instructions reach from the start of the normal form to its end. -/
theorem spans_located_normalForm :
    Spans 0 d.located (Bytes.ofList (normalForm code d.isCode)).size := by
  obtain ⟨stop, hspans, hle, hfirst⟩ := exists_spans_located hlayout
  suffices hstop : stop = code.size + if d.isCode (code.size - 1) then missing code else 0 by
    rwa [size_normalForm, ← hstop]
  rcases Nat.eq_zero_or_pos code.size with hzero | hpos
  · have hstop := hfirst 0 (.refl 0) (Nat.le_of_eq hzero)
    rw [missing_of_size_eq_zero hzero, ite_self]
    omega
  -- whether the last instruction is completed is up to the last block, in which it lies
  obtain ⟨l, hl, hnext⟩ := exists_last hpos
  obtain ⟨id, b, -, hb, hstart, hlast⟩ := Layout.exists_blockIndex (Nat.sub_one_lt_of_lt hpos)
  have hbasic := Layout.isBasic hb
  have hend : b.stop = code.size := by
    have := hbasic.stop_le
    omega
  rw [isCode_eq hlayout hb hstart hlast]
  cases hreach : isReachableIn d.contexts id with
  | false => exact stop_eq_of_dead hlayout hspans hb hreach hend
  | true =>
      have hfrom := hbasic.start_le_of_next_ge hend hl (by omega)
      obtain ⟨pc, rfl, hwalk, hlt⟩ := exists_of_mem_sweep hl
      have hl := (mem_located hlayout).mpr
        (.insn hb hreach (hbasic.walk.tail_of_le hwalk hfrom) (hend ▸ hlt))
      rw [hspans.stop_eq hl fun l' hl' => ?_, hnext, if_pos rfl]
      have := ((mem_located hlayout).mp hl').offset_lt
      omega

/-- Every instruction is encoded as the normal form shows it at its offset. -/
theorem encode_of_mem_located {l : Located} (hl : l ∈ d.located) :
    l.instruction.encode = .ok
      ((Bytes.ofList (normalForm code d.isCode)).window l.offset l.instruction.length) := by
  rcases (mem_located hlayout).mp hl with @⟨id, b, pc, hb, hreach, hwalk, hlt⟩ | @⟨id, b, hb, hdead⟩
  · have hbasic := Layout.isBasic hb
    exact encode_decodeAt_normalForm (hbasic.walk.trans hwalk)
      (Nat.lt_of_lt_of_le hlt hbasic.stop_le) ((isCode_eq hlayout hb hwalk.le hlt).trans hreach)
  · have hlength : Instruction.length (.raw (code.window b.start (b.stop - b.start)))
        = b.stop - b.start := Bytes.length_window ..
    rw [hlength, window_normalForm fun k hk => ?_]
    · rfl
    · exact (isCode_eq hlayout hb (Nat.le_add_right _ _) (by omega)).trans hdead

/-- The encodings of the instructions make up the normal form. -/
theorem mapM_encode_located :
    ∃ encodings, (d.located.map (·.instruction)).mapM Instruction.encode = .ok encodings ∧
      encodings.flatten = normalForm code d.isCode := by
  obtain ⟨encodings, hencodings, hflatten⟩ := (spans_located_normalForm hlayout).exists_mapM_encode
    fun l hl => encode_of_mem_located hlayout hl
  refine ⟨encodings, hencodings, ?_⟩
  rw [hflatten, Nat.sub_zero, Bytes.size_ofList]
  exact (Bytes.Holds.ofList _).window

/-- The normal form decodes to the same instructions as the code, whatever counts
as data. -/
theorem decodeAll_normalForm :
    decodeAll (.ofList (normalForm code d.isCode)) = decodeAll code := by
  refine Aligned.decodeAll_eq (aligned_of_holds hlayout ?_ fun l hl =>
    ⟨_, encode_of_mem_located hlayout hl, .of_window _ _ _⟩)
  rw [← (spans_located_normalForm hlayout).add_codeSize, Nat.zero_add]

end Encoded

section Linear

variable (code : Bytes)

/-- A disassembly of the code in which all blocks are reachable. -/
theorem exists_disassembly_reachable :
    ∃ d : Disassembly Unit, d.toLayout = Layout.ofCode code ∧
      d.located.map (·.instruction) = decodeAll code ∧ d.isCode = fun _ => true := by
  have hcontexts := @size_contexts_ofCode Unit _ code {}
  refine ⟨ofCode code {}, rfl, ?_, isCode_of_reachable fun id hid => ?_⟩
  · have hinstructions := @instructions_unit code _ rfl rfl hcontexts
    rw [instructions_eq rfl] at hinstructions
    exact Except.ok.inj hinstructions
  · exact (isBlockReachable_eq_true_iff hid).mp (isBlockReachable_unit hcontexts hid)

end Linear

/-- Encoding is the inverse of disassembling, up to the normal form of code,
whatever states the blocks have. The encodings of the flattened code make up the
normal form of the code in which the bytes of reachable blocks count as code.
Those of the linear decoding make up the one in which all bytes do. Both decode to
the same instructions as the code itself. -/
theorem encode_instructions {σ : Type} [Domain σ] {code : Bytes} {d : Disassembly σ}
    (hlayout : d.toLayout = Layout.ofCode code) (hlive : d.isRetired = false) :
    (∃ is encodings, d.instructions = .ok is ∧ is.mapM Instruction.encode = .ok encodings ∧
        encodings.flatten = normalForm code d.isCode) ∧
      decodeAll (.ofList (normalForm code d.isCode)) = decodeAll code ∧
      (∃ encodings, (decodeAll code).mapM Instruction.encode = .ok encodings ∧
        encodings.flatten = normalForm code fun _ => true) ∧
      decodeAll (.ofList (normalForm code fun _ => true)) = decodeAll code := by
  obtain ⟨encodings, hencodings, hflatten⟩ := mapM_encode_located hlayout
  obtain ⟨u, hu, hinstructions, hisCode⟩ := exists_disassembly_reachable code
  refine ⟨⟨_, encodings, instructions_eq hlive, hencodings, hflatten⟩,
    decodeAll_normalForm hlayout, ?_, ?_⟩
  · rw [← hinstructions, ← hisCode]
    exact mapM_encode_located hu
  · rw [← hisCode]
    exact decodeAll_normalForm hu

theorem encode_instructions_patchy :
    patchyDisassembly.toLayout = Layout.ofCode patchy ∧ patchyDisassembly.isRetired = false ∧
      normalForm patchy patchyDisassembly.isCode
        = [0x60, 0x05, 0x56, 0x01, 0x0c, 0x5b, 0xfe, 0x61, 0x01, 0x00] ∧
      (∃ is encodings, patchyDisassembly.instructions = .ok is ∧
        is.mapM Instruction.encode = .ok encodings ∧
        encodings.flatten = [0x60, 0x05, 0x56, 0x01, 0x0c, 0x5b, 0xfe, 0x61, 0x01, 0x00]) ∧
      ∃ encodings, (decodeAll patchy).mapM Instruction.encode = .ok encodings ∧
        encodings.flatten = [0x60, 0x05, 0x56, 0x01, 0xfe, 0x5b, 0xfe, 0x61, 0x01, 0x00] := by
  have hcode : normalForm patchy patchyDisassembly.isCode
      = [0x60, 0x05, 0x56, 0x01, 0x0c, 0x5b, 0xfe, 0x61, 0x01, 0x00] := by decide +kernel
  have hall : normalForm patchy (fun _ => true)
      = [0x60, 0x05, 0x56, 0x01, 0xfe, 0x5b, 0xfe, 0x61, 0x01, 0x00] := by decide +kernel
  obtain ⟨hflattened, -, hlinear, -⟩ :=
    @encode_instructions StackState _ patchy patchyDisassembly rfl rfl
  exact ⟨rfl, rfl, hcode, hcode ▸ hflattened, hall ▸ hlinear⟩

end Disassembly

end EvmToolchain
