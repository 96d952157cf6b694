import EvmToolchain.Proofs.Analysis.Reassembly
import Mathlib.Data.List.Basic

/-!
# EvmToolchain.Proofs.Analysis.Flattening

Flattening a disassembly matches the linear decoding of its code.

A disassembly decodes each block anew from where it starts, and the linear
decoding runs through the whole code at once. As blocks start at instruction
boundaries, both show the same instructions (`Block.IsBasic.listed_eq`), and so
the blocks divide the linear decoding among them (`Block.Tiles.flatMap_listed`).
What a disassembly changes is that the bytes of each unreachable block take the
place of its instructions (`Disassembly.collapsed`). Nothing changes if all
blocks are reachable (`Disassembly.collapsed_eq_decodeAll`).
-/

namespace EvmToolchain

open Instruction

/-! ### What the linear decoding shows in a block -/

namespace Block

/-- The instructions of the linear decoding that start in a block. -/
def listed (code : Bytes) (b : Block) : List Located :=
  (listing code).filter fun l => b.encloses l.offset

variable {code : Bytes} {b : Block} {start stop : Nat}

theorem filter_sweep_before (hstop : stop ≤ b.start) :
    (sweep code start stop).filter (fun l => b.encloses l.offset) = [] := by
  refine List.filter_eq_nil_iff.mpr fun l hl => ?_
  obtain ⟨-, hlt, -⟩ := mem_sweep.mp hl
  rw [encloses_iff]
  omega

theorem filter_sweep_behind (hstart : b.stop ≤ start) :
    (sweep code start stop).filter (fun l => b.encloses l.offset) = [] := by
  refine List.filter_eq_nil_iff.mpr fun l hl => ?_
  have hle := (mem_sweep.mp hl).1.le
  rw [encloses_iff]
  omega

theorem filter_sweep_within (hstart : b.start ≤ start) (hstop : stop ≤ b.stop) :
    (sweep code start stop).filter (fun l => b.encloses l.offset) = sweep code start stop := by
  refine List.filter_eq_self.mpr fun l hl => ?_
  obtain ⟨hwalk, hlt, -⟩ := mem_sweep.mp hl
  have hle := hwalk.le
  rw [encloses_iff]
  omega

/-- The sweep from the start of a block on goes through the block and then on from
where the block stops, also if the code cuts off the last instruction. -/
theorem IsBasic.sweep_eq (h : b.IsBasic code) :
    sweep code b.start code.size = sweep code b.start b.stop ++ sweep code b.stop code.size := by
  rcases h.boundary with hend | hwalk
  · rw [hend, sweep_self, List.append_nil]
  · exact sweep_append hwalk h.stop_le

/-- Decoding a block anew from its start shows what the linear decoding shows in
the block. -/
theorem IsBasic.listed_eq (h : b.IsBasic code) : listed code b = sweep code b.start b.stop := by
  have hlt : b.start < code.size := Nat.lt_of_lt_of_le b.start_lt_stop h.stop_le
  calc listed code b
      = (sweep code 0 b.start ++ (sweep code b.start b.stop ++ sweep code b.stop code.size)).filter
          fun l => b.encloses l.offset := by
        rw [listed, listing, sweep_append h.walk (Nat.le_of_lt hlt), h.sweep_eq]
    _ = sweep code b.start b.stop := by
        rw [List.filter_append, List.filter_append, filter_sweep_before (Nat.le_refl _),
          filter_sweep_within (Nat.le_refl _) (Nat.le_refl _), filter_sweep_behind (Nat.le_refl _),
          List.nil_append, List.append_nil]

theorem IsBasic.listed_ne_nil (h : b.IsBasic code) : listed code b ≠ [] := by
  rw [h.listed_eq, sweep_of_lt b.start_lt_stop]
  exact List.cons_ne_nil _ _

/-- Blocks that tile the rest of the code divide its instructions among them, in
order. -/
theorem Tiles.flatMap_listed {bs : List Block} (h : Tiles code start bs) :
    bs.flatMap (listed code) = sweep code start code.size := by
  induction h with
  | nil => rw [sweep_self, List.flatMap_nil]
  | cons hb _ ih => rw [List.flatMap_cons, ih, hb.listed_eq, hb.sweep_eq]

/-- The bytes of a block are a slice of the code: no zeros are read past its end. -/
theorem IsBasic.window_eq (h : b.IsBasic code) :
    code.window b.start (b.stop - b.start)
      = (code.contents.drop b.start).take (b.stop - b.start) := by
  have hstop := h.stop_le
  refine List.ext_getElem? fun k => ?_
  rw [Bytes.getElem?_window, List.getElem?_take, List.getElem?_drop]
  split
  · next hk =>
    have hlt : b.start + k < code.contents.length := by
      rw [Bytes.length_contents]
      omega
    rw [Bytes.byteAt_eq_getD, List.getD_eq_getElem?_getD, List.getElem?_eq_getElem hlt]
    rfl
  · rfl

end Block

/-! ### Flattening -/

namespace Disassembly

section Numbered

variable {σ : Type} {d : Disassembly σ} {code : Bytes}

theorem lt_size_of_mem_zipIdx {b : Block} {id : Nat} (hb : (b, id) ∈ d.blocks.toList.zipIdx) :
    id < d.blocks.size := by
  rw [List.mk_mem_zipIdx_iff_getElem?, Array.getElem?_toList] at hb
  exact (Array.getElem?_eq_some_iff.mp hb).1

theorem flatMap_listed (hlayout : d.toLayout = Layout.ofCode code) :
    d.blocks.toList.flatMap (Block.listed code) = listing code := by
  rw [blocks_eq hlayout]
  exact (Block.ofCode_tiles code).flatMap_listed

end Numbered

variable {σ : Type} [Domain σ] {d : Disassembly σ} {code : Bytes}

/-- The linear decoding, block by block, in which the bytes of every block that is
not reported reachable take the place of its instructions. -/
def collapsed (d : Disassembly σ) : List Instruction :=
  d.blocks.toList.zipIdx.flatMap fun (b, id) =>
    if d.isBlockReachable id = .ok true then (Block.listed d.code b).map (·.instruction)
    else [.raw ((d.code.contents.drop b.start).take (b.stop - b.start))]

/-- A block is reported reachable if it has the number zero or a reachable state. -/
theorem isBlockReachable_eq_true_iff {id : Nat} (hid : id < d.blocks.size) :
    d.isBlockReachable id = .ok true ↔ isReachableIn d.contexts id = true := by
  rw [isBlockReachable, if_pos ⟨Int.natCast_nonneg id, Int.ofNat_lt.mpr hid⟩, Int.toNat_natCast]
  split
  · exact ⟨Except.ok.inj, congrArg Except.ok⟩
  · next hmissing =>
    -- neither is the case without a state
    obtain ⟨hzero, hsize⟩ := not_or.mp hmissing
    have hzero : id ≠ 0 := fun h => hzero (congrArg Int.ofNat h)
    rw [isReachableIn, Array.getElem?_eq_none (Nat.not_lt.mp hsize), beq_false_of_ne hzero]
    exact ⟨nofun, nofun⟩

/-- Every block has a state from the start. -/
theorem size_contexts_ofCode (code : Bytes) (options : AnalysisOptions) :
    (ofCode code options : Disassembly σ).contexts.size
      = (ofCode code options : Disassembly σ).blocks.size := by
  rw [ofCode, Array.size_setIfInBounds, Array.size_replicate]

/-- All blocks count as reachable in the trivial domain. -/
theorem isBlockReachable_unit {d : Disassembly Unit} (hcontexts : d.contexts.size = d.blocks.size)
    {id : Nat} (hid : id < d.blocks.size) : d.isBlockReachable id = .ok true := by
  have hstate : d.contexts[id]? = some () := Array.getElem?_eq_getElem (hcontexts ▸ hid)
  rw [isBlockReachable_eq_true_iff hid, isReachableIn, hstate]
  exact Bool.or_true _

section Flattened

variable (hlayout : d.toLayout = Layout.ofCode code)

include hlayout

theorem instructions_eq_collapsed (hlive : d.isRetired = false) :
    d.instructions = .ok d.collapsed := by
  rw [instructions_eq hlive, located, locatedBlocks, List.map_flatMap, collapsed]
  refine congrArg Except.ok (List.flatMap_congr ?_)
  rintro ⟨b, id⟩ hb
  have hbasic := Layout.isBasic ((mem_zipIdx_blocks hlayout).mp hb)
  have hreach := isBlockReachable_eq_true_iff (lt_size_of_mem_zipIdx hb)
  show (d.locatedBlock b id).map (·.instruction)
    = if d.isBlockReachable id = .ok true then (Block.listed d.code b).map (·.instruction)
      else [.raw ((d.code.contents.drop b.start).take (b.stop - b.start))]
  simp only [hreach, locatedBlock, Layout.bytes, code_eq hlayout, hbasic.listed_eq,
    hbasic.window_eq]
  split <;> rfl

/-- Nothing is replaced if all blocks are reachable. -/
theorem collapsed_eq_decodeAll
    (hreach : ∀ id < d.blocks.size, d.isBlockReachable id = .ok true) :
    d.collapsed = decodeAll code := by
  have hkeep : d.collapsed = d.blocks.toList.zipIdx.flatMap fun p =>
      (Block.listed code p.1).map (·.instruction) := by
    refine List.flatMap_congr ?_
    rintro ⟨b, id⟩ hb
    show (if d.isBlockReachable id = .ok true then _ else _) = _
    rw [if_pos (hreach id (lt_size_of_mem_zipIdx hb)), code_eq hlayout]
  calc d.collapsed
      = (d.blocks.toList.zipIdx.map Prod.fst).flatMap fun b =>
          (Block.listed code b).map (·.instruction) := by rw [hkeep, List.flatMap_map]
    _ = (d.blocks.toList.flatMap (Block.listed code)).map (·.instruction) := by
          rw [List.zipIdx_map_fst, List.map_flatMap]
    _ = decodeAll code := by rw [flatMap_listed hlayout, decodeAll]

end Flattened

/-- In the trivial domain a disassembly is flattened to the linear decoding. -/
theorem instructions_unit {d : Disassembly Unit} (hlayout : d.toLayout = Layout.ofCode code)
    (hlive : d.isRetired = false) (hcontexts : d.contexts.size = d.blocks.size) :
    d.instructions = .ok (decodeAll code) := by
  rw [instructions_eq_collapsed hlayout hlive,
    collapsed_eq_decodeAll hlayout fun _ => isBlockReachable_unit hcontexts]

/-- Flattening matches the linear decoding, whatever states the blocks have. The
blocks divide the instructions of the linear decoding among them, in order, and
no block is left without any; the flattened code is the linear decoding in which
the bytes of each block that is not reported reachable take the place of its
instructions. So the whole linear decoding remains if all blocks are reported
reachable, as they always are in the trivial domain. -/
theorem instructions_flattened (hlayout : d.toLayout = Layout.ofCode code)
    (hlive : d.isRetired = false) :
    d.blocks.toList.flatMap (Block.listed code) = listing code ∧
      (∀ b ∈ d.blocks.toList, Block.listed code b ≠ []) ∧
      d.instructions = .ok d.collapsed ∧
      ((∀ id < d.blocks.size, d.isBlockReachable id = .ok true) →
        d.instructions = .ok (decodeAll code)) ∧
      ∀ u : Disassembly Unit, u.toLayout = Layout.ofCode code → u.isRetired = false →
        u.contexts.size = u.blocks.size →
          (∀ id < u.blocks.size, u.isBlockReachable id = .ok true) ∧
            u.instructions = .ok (decodeAll code) := by
  refine ⟨flatMap_listed hlayout, fun b hb => ?_, instructions_eq_collapsed hlayout hlive,
    fun hreach => ?_, fun u hu hlive hcontexts => ⟨fun _ => isBlockReachable_unit hcontexts,
      instructions_unit hu hlive hcontexts⟩⟩
  · rw [blocks_eq hlayout] at hb
    exact ((Block.ofCode_tiles code).isBasic hb).listed_ne_nil
  · rw [instructions_eq_collapsed hlayout hlive, collapsed_eq_decodeAll hlayout hreach]

/-- Code with a block of two instructions that no jump leads to, with an unassigned
byte in that block and one in another, and with a push that is cut off. -/
def patchy : Bytes := ⟨#[0x60, 0x05, 0x56, 0x01, 0x0c, 0x5b, 0x0c, 0x61, 0x01]⟩

/-- A disassembly of that code which takes the block for data. -/
def patchyDisassembly : Disassembly StackState :=
  { Layout.ofCode patchy with
    contexts := #[.stack [], .bottom, .stack [], .stack []], options := {} }

theorem instructions_flattened_patchy :
    patchyDisassembly.toLayout = Layout.ofCode patchy ∧ patchyDisassembly.isRetired = false ∧
      decodeAll patchy = [.push [0x05], .op .jump, .op .add, .op .invalid, .jumpdest 5,
        .op .invalid, .push [0x01, 0x00]] ∧
      patchyDisassembly.instructions = .ok [.push [0x05], .op .jump, .raw [0x01, 0x0c],
        .jumpdest 5, .op .invalid, .push [0x01, 0x00]] ∧
      (ofCode patchy {} : Disassembly Unit).instructions = .ok [.push [0x05], .op .jump, .op .add,
        .op .invalid, .jumpdest 5, .op .invalid, .push [0x01, 0x00]] := by
  have hdecoded : decodeAll patchy = [.push [0x05], .op .jump, .op .add, .op .invalid,
      .jumpdest 5, .op .invalid, .push [0x01, 0x00]] := by decide +kernel
  have hcollapsed : patchyDisassembly.collapsed = [.push [0x05], .op .jump, .raw [0x01, 0x0c],
      .jumpdest 5, .op .invalid, .push [0x01, 0x00]] := by decide +kernel
  obtain ⟨-, -, hinstructions, -, hunit⟩ :=
    @instructions_flattened StackState _ patchyDisassembly patchy rfl rfl
  exact ⟨rfl, rfl, hdecoded, hcollapsed ▸ hinstructions,
    hdecoded ▸ (hunit (ofCode patchy {}) rfl rfl (size_contexts_ofCode patchy {})).2⟩

end Disassembly

end EvmToolchain
