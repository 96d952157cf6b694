import EvmToolchain.Proofs.Code.Positioned
import EvmToolchain.Proofs.Machine.Lockstep

/-!
# EvmToolchain.Proofs.Analysis.Reassembly

Disassembling code and assembling it again keeps its behaviour.

The instructions of a disassembly are those of the reachable blocks, and the
bytes of the others (`Disassembly.Shows`). They stand where they stood in the
code (`Disassembly.exists_spans_located`), so code that holds their encodings
shows the same instruction at every boundary (`Disassembly.aligned_of_holds`): in
a reachable block because decoding inverts encoding, and in the others because
the bytes are the same. A push that the code cuts off is completed by the zeros
that it is read with; it is the last instruction, so nothing after it moves.
-/

namespace EvmToolchain

open Instruction Assembly

namespace Disassembly

variable {σ : Type} [Domain σ]

/-! ### Instructions and their offsets -/

/-- What a block is rendered as, with offsets. -/
def locatedBlock (d : Disassembly σ) (b : Block) (id : Nat) : List Located :=
  if isReachableIn d.contexts id then sweep d.code b.start b.stop
  else [⟨b.start, .raw (d.toLayout.bytes b)⟩]

/-- What some blocks are rendered as, whose numbers start with `id`. -/
def locatedBlocks (d : Disassembly σ) (bs : List Block) (id : Nat) : List Located :=
  (bs.zipIdx id).flatMap fun (b, id) => d.locatedBlock b id

/-- The instructions of a disassembly with their offsets. -/
def located (d : Disassembly σ) : List Located := d.locatedBlocks d.blocks.toList 0

theorem rendering_eq (d : Disassembly σ) (b : Block) (id : Nat) :
    d.rendering b id = (d.locatedBlock b id).map (·.instruction) := by
  unfold rendering locatedBlock
  split <;> rfl

theorem instructions_eq {d : Disassembly σ} (hlive : d.isRetired = false) :
    d.instructions = .ok (d.located.map (·.instruction)) := by
  rw [located, locatedBlocks, List.map_flatMap]
  simp only [← rendering_eq, instructions, checkLive, hlive, Bool.false_eq_true, if_false]
  rfl

theorem locatedBlocks_cons (d : Disassembly σ) (b : Block) (bs : List Block) (id : Nat) :
    d.locatedBlocks (b :: bs) id = d.locatedBlock b id ++ d.locatedBlocks bs (id + 1) := by
  rw [locatedBlocks, List.zipIdx_cons, List.flatMap_cons]
  rfl

/-- What can be found among the instructions: an instruction of the code in a
reachable block, or an unreachable block as a stretch of data. -/
inductive Shows (code : Bytes) (contexts : Array σ) : Located → Prop
  | insn {id : Nat} {b : Block} {pc : Nat} :
      (Layout.ofCode code).blocks[id]? = some b → isReachableIn contexts id = true →
      Walk code b.start pc → pc < b.stop → Shows code contexts ⟨pc, decodeAt code pc⟩
  | data {id : Nat} {b : Block} :
      (Layout.ofCode code).blocks[id]? = some b → isReachableIn contexts id = false →
      Shows code contexts ⟨b.start, .raw (code.window b.start (b.stop - b.start))⟩

variable {code : Bytes} {d : Disassembly σ} {id : Nat} {b : Block} {l : Located}

namespace Shows

variable {contexts : Array σ}

theorem offset_lt (h : Shows code contexts l) : l.offset < code.size := by
  cases h with
  | insn hb _ _ hlt => exact Nat.lt_of_lt_of_le hlt (Layout.isBasic hb).stop_le
  | @data _ b hb _ => exact Nat.lt_of_lt_of_le b.start_lt_stop (Layout.isBasic hb).stop_le

theorem label_eq (h : Shows code contexts l) (hjump : l.instruction.mnemonic = .jumpdest) :
    l.instruction.label = some (l.offset : Int) := by
  cases h with
  | insn => exact label_decodeAt hjump
  | data => cases hjump

theorem mnemonic_ne (h : Shows code contexts l) : l.instruction.mnemonic ≠ .pushLabel := by
  cases h with
  | @insn _ _ pc _ _ _ _ => exact (readable_decodeAt code pc).mnemonic_ne
  | data => exact Mnemonic.noConfusion

theorem exists_encode (h : Shows code contexts l) :
    ∃ bytes, l.instruction.encode = .ok bytes := by
  cases h with
  | @insn _ _ pc _ _ _ _ => exact (readable_decodeAt code pc).exists_encode
  | data => exact ⟨_, rfl⟩

end Shows

/-- The data of a block ends where the block does. -/
theorem next_raw (code : Bytes) (b : Block) :
    Located.next ⟨b.start, .raw (code.window b.start (b.stop - b.start))⟩ = b.stop := by
  have hlt := b.start_lt_stop
  show b.start + (code.window b.start (b.stop - b.start)).length = b.stop
  rw [Bytes.length_window]
  omega

section Rendered

variable (hlayout : d.toLayout = Layout.ofCode code)

include hlayout

/-- The instructions are those that the reachable blocks show, and the data. -/
theorem mem_located : l ∈ d.located ↔ Shows code d.contexts l := by
  rw [located, locatedBlocks, List.mem_flatMap]
  constructor
  · rintro ⟨⟨b, id⟩, hb, hl⟩
    have hl : l ∈ d.locatedBlock b id := hl
    rw [locatedBlock, code_eq hlayout] at hl
    split at hl
    · next hreach =>
      obtain ⟨pc, rfl, hwalk, hlt⟩ := exists_of_mem_sweep hl
      exact .insn ((mem_zipIdx_blocks hlayout).mp hb) hreach hwalk hlt
    · next hdead =>
      obtain rfl := List.mem_singleton.mp hl
      rw [Layout.bytes, code_eq hlayout]
      exact .data ((mem_zipIdx_blocks hlayout).mp hb) (Bool.not_eq_true _ ▸ hdead)
  · rintro (@⟨id, b, pc, hb, hreach, hwalk, hlt⟩ | @⟨id, b, hb, hdead⟩)
    · refine ⟨(b, id), (mem_zipIdx_blocks hlayout).mpr hb, show _ ∈ d.locatedBlock b id from ?_⟩
      rw [locatedBlock, if_pos hreach, code_eq hlayout]
      exact mem_sweep.mpr ⟨hwalk, hlt, rfl⟩
    · refine ⟨(b, id), (mem_zipIdx_blocks hlayout).mpr hb, show _ ∈ d.locatedBlock b id from ?_⟩
      rw [locatedBlock, hdead, if_neg (by simp), Layout.bytes, code_eq hlayout]
      exact List.mem_singleton_self _

/-- A block is rendered from its start to the first boundary at or past its end. -/
theorem exists_spans_block (b : Block) (id : Nat) :
    ∃ stop, Spans b.start (d.locatedBlock b id) stop ∧ b.stop ≤ stop ∧
      ∀ pc, Walk code b.start pc → b.stop ≤ pc → stop ≤ pc := by
  rw [locatedBlock, Layout.bytes, code_eq hlayout]
  split
  · exact Spans.exists_of_sweep code b.start b.stop
  · refine ⟨b.stop, .cons rfl ?_, Nat.le_refl _, fun _ _ hpc => hpc⟩
    rw [next_raw]
    exact .nil b.stop

/-- Blocks that tile the rest of the code are rendered one after the other, to
the first boundary at or past the end of the code. -/
theorem exists_spans_blocks {start : Nat} {bs : List Block} (h : Block.Tiles code start bs)
    (id : Nat) :
    ∃ stop, Spans start (d.locatedBlocks bs id) stop ∧ code.size ≤ stop ∧
      ∀ pc, Walk code start pc → code.size ≤ pc → stop ≤ pc := by
  induction h generalizing id with
  | nil => exact ⟨code.size, .nil _, Nat.le_refl _, fun _ _ hpc => hpc⟩
  | @cons b rest hb hrest ih =>
      obtain ⟨middle, hblock, hmiddle, hfirst⟩ := exists_spans_block hlayout b id
      rw [locatedBlocks_cons]
      rcases hb.boundary with hend | hwalk
      · -- the last block may end in an instruction that the code cuts off
        obtain rfl := hrest.eq_nil (Nat.le_of_eq hend.symm)
        rw [locatedBlocks, List.zipIdx_nil, List.flatMap_nil, List.append_nil, ← hend]
        exact ⟨middle, hblock, hmiddle, hfirst⟩
      · obtain rfl : middle = b.stop := Nat.le_antisymm (hfirst _ hwalk (Nat.le_refl _)) hmiddle
        obtain ⟨stop, hspans, hstop, hfirst⟩ := ih (id + 1)
        have hle := hb.stop_le
        exact ⟨stop, hblock.append hspans, hstop, fun pc hpc hpc' =>
          hfirst pc (hwalk.tail_of_le hpc (by omega)) hpc'⟩

/-- The instructions reach from the start of the code to the first boundary at or
past its end. -/
theorem exists_spans_located :
    ∃ stop, Spans 0 d.located stop ∧ code.size ≤ stop ∧
      ∀ pc, Walk code 0 pc → code.size ≤ pc → stop ≤ pc := by
  rw [located, blocks_eq hlayout]
  exact exists_spans_blocks hlayout (Block.ofCode_tiles code) 0

/-- If the last block is unreachable, the instructions end with the code. -/
theorem stop_eq_of_dead {stop : Nat} (hspans : Spans 0 d.located stop)
    (hb : (Layout.ofCode code).blocks[id]? = some b) (hdead : isReachableIn d.contexts id = false)
    (hend : b.stop = code.size) : stop = code.size := by
  have hl := (mem_located hlayout).mpr (.data hb hdead)
  rw [hspans.stop_eq hl fun l' hl' => ?_, next_raw, hend]
  rw [next_raw, hend]
  exact ((mem_located hlayout).mp hl').offset_lt

/-- The jump destinations among the instructions are those of reachable blocks. -/
theorem forall_jumpdest_located {P : Nat → Prop} :
    (∀ l ∈ d.located, l.instruction.mnemonic = .jumpdest → P l.offset) ↔
      ∀ (id : Nat) (b : Block), (Layout.ofCode code).blocks[id]? = some b →
        isReachableIn d.contexts id = true → ∀ pc, Walk code b.start pc → pc < b.stop →
          IsJumpdestAt code pc → P pc := by
  constructor
  · intro h id b hb hreach pc hwalk hlt
    exact h _ ((mem_located hlayout).mpr (.insn hb hreach hwalk hlt))
  · intro h l hl hjump
    cases (mem_located hlayout).mp hl with
    | insn hb hreach hwalk hlt => exact h _ _ hb hreach _ hwalk hlt hjump
    | data => cases hjump

/-! ### The assembled code -/

section Assembled

variable {code' : Bytes} {pc : Nat} (hholds : ∀ l ∈ d.located,
    ∃ encoded, l.instruction.encode = .ok encoded ∧ code'.Holds l.offset encoded)
  (hb : (Layout.ofCode code).blocks[id]? = some b)

include hholds hb

/-- In a reachable block an instruction is read where its encoding stands. -/
theorem decodeAt_of_reachable (hreach : isReachableIn d.contexts id = true)
    (hwalk : Walk code b.start pc) (hlt : pc < b.stop) :
    decodeAt code' pc = decodeAt code pc := by
  obtain ⟨encoded, hencoded, hheld⟩ :=
    hholds _ ((mem_located hlayout).mpr (.insn hb hreach hwalk hlt))
  rw [decodeAt_encode (readable_decodeAt code pc) hencoded hheld, readAt_decodeAt]

/-- The bytes of an unreachable block are still there. -/
theorem byteAt_of_dead (hdead : isReachableIn d.contexts id = false) (hle : b.start ≤ pc)
    (hlt : pc < b.stop) : code'.byteAt pc = code.byteAt pc := by
  obtain ⟨encoded, hencoded, hheld⟩ := hholds _ ((mem_located hlayout).mpr (.data hb hdead))
  obtain rfl : code.window b.start (b.stop - b.start) = encoded := Except.ok.inj hencoded
  obtain ⟨k, rfl⟩ := Nat.exists_eq_add_of_le hle
  refine hheld k _ ?_
  rw [Bytes.getElem?_window, if_pos (by omega)]

end Assembled

/-- Code that holds the encodings of the instructions, and nothing else, shows the
same instructions as the code. -/
theorem aligned_of_holds {code' : Bytes}
    (hsize : code'.size = codeSize (d.located.map (·.instruction)))
    (hholds : ∀ l ∈ d.located,
      ∃ encoded, l.instruction.encode = .ok encoded ∧ code'.Holds l.offset encoded) :
    Aligned code code' := by
  obtain ⟨stop, hspans, hstop, hfirst⟩ := exists_spans_located hlayout
  have hsize : code'.size = stop := by rw [hsize, ← hspans.add_codeSize, Nat.zero_add]
  refine ⟨fun {pc} hpc => ?_, fun {pc} hpc hlt => ?_⟩
  · rw [hsize]
    refine ⟨fun hlt => ?_, fun hlt => Nat.lt_of_lt_of_le hlt hstop⟩
    by_contra hge
    exact absurd (hfirst pc hpc (Nat.not_lt.mp hge)) (Nat.not_le.mpr hlt)
  · obtain ⟨id, b, -, hb, hle, hlt'⟩ := Layout.exists_blockIndex hlt
    have hwalk := (Layout.isBasic hb).walk.tail_of_le hpc hle
    cases hreach : isReachableIn d.contexts id with
    | true => exact decodeAt_of_reachable hlayout hholds hb hreach hwalk hlt'
    | false =>
        refine (Layout.isBasic hb).decodeAt_congr hwalk hlt' (fun i => ?_) fun hend => ?_
        · exact byteAt_of_dead hlayout hholds hb hreach
        · rw [hsize, stop_eq_of_dead hlayout hspans hb hreach hend]

/-- What the instructions are assembled to shows the same instructions as the
code. -/
theorem aligned_of_assemble {bytes : List UInt8}
    (h : assemble (d.located.map (·.instruction)) = .ok bytes) :
    Aligned code (.ofList bytes) := by
  obtain ⟨stop, hspans, -, -⟩ := exists_spans_located hlayout
  obtain ⟨hsize, hholds⟩ :=
    hspans.holds_of_assemble (fun l hl => ((mem_located hlayout).mp hl).mnemonic_ne) h
  rw [← hspans.add_codeSize, Nat.zero_add] at hsize
  exact aligned_of_holds hlayout hsize hholds

end Rendered

/-- Disassembling code and assembling it again keeps its behaviour, whatever
states the disassembly holds for its blocks: the instructions are assembled
unless a jump destination of a reachable block lies at 0x10000 or further, and
all runs of the assembled code have the same ending, data, final state and number
of steps as those of the code, or both exceed the limit. -/
theorem run_assemble_instructions (hlayout : d.toLayout = Layout.ofCode code)
    (hlive : d.isRetired = false) :
    ∃ is, d.instructions = .ok is ∧
      ((∃ bytes, assemble is = .ok bytes) ↔
        ∀ (id : Nat) (b : Block), d.blocks[id]? = some b → isReachableIn d.contexts id = true →
          ∀ pc, Walk code b.start pc → pc < b.stop → IsJumpdestAt code pc → pc < 0x10000) ∧
      ∀ bytes, assemble is = .ok bytes →
        ∀ (calldata : Bytes) (storage : Storage) (limit : Int),
          Machine.run (.load (.ofList bytes) calldata) storage limit
            = Machine.run (.load code calldata) storage limit := by
  obtain ⟨stop, hspans, -, -⟩ := exists_spans_located hlayout
  have hshows := fun l hl => (mem_located (l := l) hlayout).mp hl
  refine ⟨_, instructions_eq hlive, ?_, fun bytes hbytes calldata storage limit =>
    (aligned_of_assemble hlayout hbytes).run_eq calldata storage limit⟩
  rw [hspans.assemble_iff (fun l hl => (hshows l hl).label_eq)
      (fun l hl => ⟨(hshows l hl).mnemonic_ne, (hshows l hl).exists_encode⟩),
    forall_jumpdest_located (P := (· < addressLimit)) hlayout, hlayout]
  rfl

/-- Code with an unassigned byte, a stop and a push that is cut off. -/
def ragged : Bytes := ⟨#[0x5b, 0x0c, 0x00, 0x61, 0x01]⟩

/-- A disassembly of that code which takes the stop for data. -/
def raggedDisassembly : Disassembly StackState :=
  { Layout.ofCode ragged with contexts := #[.stack [], .bottom, .stack []], options := {} }

theorem run_assemble_instructions_ragged :
    raggedDisassembly.toLayout = Layout.ofCode ragged ∧ raggedDisassembly.isRetired = false ∧
      raggedDisassembly.instructions
        = .ok [.jumpdest 0, .op .invalid, .raw [0x00], .push [0x01, 0x00]] ∧
      assemble [.jumpdest 0, .op .invalid, .raw [0x00], .push [0x01, 0x00]]
        = .ok [0x5b, 0xfe, 0x00, 0x61, 0x01, 0x00] ∧
      ∀ (calldata : Bytes) (storage : Storage) (limit : Int),
        Machine.run (.load (.ofList [0x5b, 0xfe, 0x00, 0x61, 0x01, 0x00]) calldata) storage limit
          = Machine.run (.load ragged calldata) storage limit := by
  have hinstructions : raggedDisassembly.instructions
      = .ok [.jumpdest 0, .op .invalid, .raw [0x00], .push [0x01, 0x00]] := by decide +kernel
  have hassemble : assemble [.jumpdest 0, .op .invalid, .raw [0x00], .push [0x01, 0x00]]
      = .ok [0x5b, 0xfe, 0x00, 0x61, 0x01, 0x00] := rfl
  obtain ⟨is, his, -, hrun⟩ :=
    @run_assemble_instructions StackState _ ragged raggedDisassembly rfl rfl
  obtain rfl := Except.ok.inj (hinstructions.symm.trans his)
  exact ⟨rfl, rfl, hinstructions, hassemble, hrun _ hassemble⟩

end Disassembly

end EvmToolchain
