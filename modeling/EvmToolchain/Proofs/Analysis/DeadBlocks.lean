import EvmToolchain.Proofs.Analysis.Passes
import EvmToolchain.Proofs.Machine.Lockstep

/-!
# EvmToolchain.Proofs.Analysis.DeadBlocks

Unreachable blocks are dead data.

`Disassembly.blanked` overwrites every unreachable block. This changes the
instructions that a linear decoding of the code shows, and with them where jumps
may go, but blocks still start at instruction boundaries
(`Disassembly.walk_blanked_start`). So the reachable blocks show the same
instructions and jump destinations as before. If the analysis knows the target
of every jump in a reachable block, a run never leaves these blocks, and a jump
that fails in one code fails in the other (`Disassembly.lockstep_blanked`).
-/

namespace EvmToolchain

open Instruction StackState Machine

namespace Disassembly

/-! ### Overwriting unreachable blocks -/

section Blanked

variable {σ : Type} [Domain σ]

/-- Whether an offset lies in an unreachable block. -/
def isDead (d : Disassembly σ) (pc : Nat) : Bool :=
  d.blocks.toList.zipIdx.any fun (b, id) => b.encloses pc && !isReachableIn d.contexts id

/-- The byte that takes the place of dead ones: the opcode of `INVALID`. -/
def blank : UInt8 := 0xfe

/-- The code with every byte of every unreachable block overwritten. -/
def blanked (d : Disassembly σ) : Bytes :=
  .ofList (d.code.contents.mapIdx fun pc byte => if d.isDead pc then blank else byte)

@[simp] theorem size_blanked (d : Disassembly σ) : d.blanked.size = d.code.size := by
  rw [blanked, Bytes.size_ofList, List.length_mapIdx, Bytes.length_contents]

theorem byteAt_blanked (d : Disassembly σ) {pc : Nat} (hpc : pc < d.code.size) :
    d.blanked.byteAt pc = if d.isDead pc then blank else d.code.byteAt pc := by
  have hlt : pc < d.code.contents.length := by rwa [Bytes.length_contents]
  rw [blanked, Bytes.byteAt_ofList, Bytes.byteAt_eq_getD, List.getD_eq_getElem?_getD,
    List.getD_eq_getElem?_getD, List.getElem?_mapIdx, List.getElem?_eq_getElem hlt]
  rfl

variable {code : Bytes} {d : Disassembly σ} {id : Nat} {b : Block} {pc : Nat}

/-- An offset is dead if the block in which it lies is unreachable. -/
theorem isDead_eq (hlayout : d.toLayout = Layout.ofCode code)
    (hb : (Layout.ofCode code).blocks[id]? = some b) (hle : b.start ≤ pc) (hlt : pc < b.stop) :
    d.isDead pc = !isReachableIn d.contexts id := by
  rw [Bool.eq_iff_iff, isDead, List.any_eq_true]
  constructor
  · rintro ⟨⟨b', id'⟩, hb', hdead⟩
    -- no other block encloses the offset
    obtain ⟨hencloses, hdead⟩ := Bool.and_eq_true_iff.mp hdead
    obtain ⟨hle', hlt'⟩ := Block.encloses_iff.mp hencloses
    have hindex := Layout.blockIndex_eq ((mem_zipIdx_blocks hlayout).mp hb')
      (Int.ofNat_le.mp hle') (Int.ofNat_lt.mp hlt')
    rw [Layout.blockIndex_eq hb hle hlt] at hindex
    rwa [Except.ok.inj hindex]
  · intro hdead
    refine ⟨(b, id), (mem_zipIdx_blocks hlayout).mpr hb, Bool.and_eq_true_iff.mpr ⟨?_, hdead⟩⟩
    exact Block.encloses_iff.mpr ⟨Int.ofNat_le.mpr hle, Int.ofNat_lt.mpr hlt⟩

end Blanked

/-! ### What the overwritten code shows -/

section Boundaries

variable {σ : Type} [Domain σ] {code : Bytes} {d : Disassembly σ} {id : Nat} {b : Block} {pc : Nat}
  (hlayout : d.toLayout = Layout.ofCode code)

include hlayout

theorem size_blanked_eq : d.blanked.size = code.size := by
  rw [size_blanked, code_eq hlayout]

variable (hb : (Layout.ofCode code).blocks[id]? = some b)

include hb

/-- A byte of a block is kept exactly if the block is reachable. -/
theorem byteAt_blanked_eq (hle : b.start ≤ pc) (hlt : pc < b.stop) :
    d.blanked.byteAt pc = if isReachableIn d.contexts id then code.byteAt pc else blank := by
  have hpc : pc < code.size := Nat.lt_of_lt_of_le hlt (Layout.isBasic hb).stop_le
  rw [byteAt_blanked d (code_eq hlayout ▸ hpc), isDead_eq hlayout hb hle hlt, code_eq hlayout]
  cases isReachableIn d.contexts id <;> rfl

/-- The instructions of a reachable block are still there. -/
theorem decodeAt_blanked (hreach : isReachableIn d.contexts id = true)
    (hpc : Walk code b.start pc) (hlt : pc < b.stop) :
    decodeAt d.blanked pc = decodeAt code pc := by
  refine (Layout.isBasic hb).decodeAt_congr hpc hlt (fun i hle hi => ?_)
    fun _ => size_blanked_eq hlayout
  rw [byteAt_blanked_eq hlayout hb hle hi, if_pos hreach]

/-- An unreachable block has become a sequence of single bytes. -/
theorem walk_blanked_dead (hdead : isReachableIn d.contexts id = false) {n : Nat}
    (hn : b.start + n ≤ b.stop) : Walk d.blanked b.start (b.start + n) := by
  induction n with
  | zero => exact .refl _
  | succ n ih =>
      have hbyte : d.blanked.byteAt (b.start + n) = Opcode.invalid.toByte := by
        rw [byteAt_blanked_eq hlayout hb (by omega) (by omega), hdead]
        rfl
      have hwalk := (ih (by omega)).snoc
      rwa [decodeAt_op hbyte] at hwalk

/-- A block ends at an instruction boundary as before, if the code goes on. -/
theorem walk_blanked_block (hstop : b.stop < code.size) : Walk d.blanked b.start b.stop := by
  cases hreach : isReachableIn d.contexts id with
  | true =>
      rcases (Layout.isBasic hb).boundary with hend | hwalk
      · omega
      · exact hwalk.congr fun pc hpc hlt => decodeAt_blanked hlayout hb hreach hpc hlt
  | false =>
      have hlt := b.start_lt_stop
      have hwalk := walk_blanked_dead hlayout hb hreach (n := b.stop - b.start) (by omega)
      rwa [Nat.add_sub_cancel' (Nat.le_of_lt hlt)] at hwalk

/-- All blocks start at an instruction boundary of the overwritten code. -/
theorem walk_blanked_start : Walk d.blanked 0 b.start := by
  induction id generalizing b with
  | zero =>
      rw [Layout.getElem?_blocks] at hb
      rw [(Block.ofCode_tiles code).start_head hb]
      exact .refl 0
  | succ id ih =>
      obtain ⟨hid, -⟩ := Array.getElem?_eq_some_iff.mp hb
      have hprevious := Array.getElem?_eq_getElem (Nat.lt_of_succ_lt hid)
      have hlt := b.start_lt_stop
      have hle := (Layout.isBasic hb).stop_le
      rw [Layout.start_next hprevious hb] at hlt ⊢
      exact (ih hprevious).trans (walk_blanked_block hlayout hprevious (by omega))

/-- The overwritten code has the same jump destinations in reachable blocks. -/
theorem isJumpdest_blanked (hreach : isReachableIn d.contexts id = true) (hle : b.start ≤ pc)
    (hlt : pc < b.stop) (calldata : Bytes) :
    (Program.load d.blanked calldata).isJumpdest pc
      = (Program.load code calldata).isJumpdest pc := by
  have hfrom : ∀ {c : Bytes}, Walk c 0 b.start → (Walk c 0 pc ↔ Walk c b.start pc) :=
    fun hstart => ⟨fun hpc => hstart.tail_of_le hpc hle, hstart.trans⟩
  have hwalk : Walk d.blanked b.start pc ↔ Walk code b.start pc :=
    Walk.congr_iff (fun q hq hq' => decodeAt_blanked hlayout hb hreach hq hq') (Nat.le_of_lt hlt)
  rw [Bool.eq_iff_iff, Program.isJumpdest_iff, Program.isJumpdest_iff, size_blanked_eq hlayout,
    hfrom (walk_blanked_start hlayout hb), hfrom (Layout.isBasic hb).walk, hwalk,
    and_congr_right_iff]
  intro hpc
  rw [IsJumpdestAt, IsJumpdestAt, decodeAt_blanked hlayout hb hreach hpc hlt]

end Boundaries

/-! ### Runs -/

/-- The state before each jump of a reachable block has a known value at the
top. -/
def KnowsJumps (d : Disassembly StackState) : Prop :=
  ∀ (id : Nat) (b : Block), d.blocks[id]? = some b → d.isBlockReachable id = .ok true →
    ∀ i ∈ sweep d.code b.start b.stop, i.instruction.canBranch = true →
      ∃ state v, d.stateAt i.offset = .ok state ∧ Domain.peek? state 0 = some (.known v)

variable {code : Bytes} {d : Disassembly StackState}

/-- The target of a jump that the machine may take is known. -/
theorem exists_top_of_knowsJumps (hlayout : d.toLayout = Layout.ofCode code)
    (hlive : d.isRetired = false) (hpost : Layout.PostFixed code d.contexts)
    (hknows : d.KnowsJumps) {s : State} {id : Nat} {b : Block} {context : StackState}
    (hcovers : Layout.Covers code d.contexts s id b context) {dest : Nat} {rest : List Nat}
    (htakes : Takes (decodeAt code s.pc) s.stack dest rest) :
    ∃ v, Domain.top (Layout.stateBefore code b context s.pc) = .known v := by
  have hreach := (isBlockReachable_iff_ne_bottom hlayout hpost hcovers.block_eq
    hcovers.context_eq).mpr hcovers.context_ne_bottom
  have hmem : ⟨s.pc, decodeAt code s.pc⟩ ∈ sweep d.code b.start b.stop := by
    rw [hlayout]
    exact mem_sweep.mpr ⟨hcovers.walk_block, hcovers.lt_stop, rfl⟩
  obtain ⟨state, v, hstate, hpeek⟩ :=
    hknows id b (hlayout ▸ hcovers.block_eq) hreach _ hmem htakes.canBranch
  rw [stateAt_eq hlayout hlive hcovers.block_eq hcovers.context_eq hcovers.start_le
    hcovers.lt_stop] at hstate
  obtain rfl := Except.ok.inj hstate
  exact ⟨v, by rw [Domain.top, hpeek]; rfl⟩

/-- Runs stay in reachable blocks, in which the overwritten code is the same. -/
theorem lockstep_blanked (hlayout : d.toLayout = Layout.ofCode code) (hlive : d.isRetired = false)
    (hpost : Layout.PostFixed code d.contexts) (hknows : d.KnowsJumps) (calldata : Bytes) :
    Lockstep (.load code calldata) (.load d.blanked calldata) fun s => AllWords s.stack ∧
      (s.pc < code.size → ∃ id b context, Layout.Covers code d.contexts s id b context) where
  ends_iff := by
    intro s _
    show d.blanked.size ≤ s.pc ↔ code.size ≤ s.pc
    rw [size_blanked_eq hlayout]
  step_eq := by
    rintro s ⟨-, hcovers⟩ hpc
    obtain ⟨id, b, context, hcovers⟩ := hcovers hpc
    have hsize := size_blanked_eq hlayout
    have hreach := Layout.isReachableIn_of_ne_bottom hcovers.context_eq hcovers.context_ne_bottom
    refine step_congr hpc (hsize.symm ▸ hpc)
      (decodeAt_blanked hlayout hcovers.block_eq hreach hcovers.walk_block hcovers.lt_stop) rfl ?_
    intro dest rest htakes
    by_cases hdest : dest < code.size
    · -- the jump leads into a reachable block, though maybe not to a jump destination
      obtain ⟨v, hv⟩ := exists_top_of_knowsJumps hlayout hlive hpost hknows hcovers htakes
      obtain ⟨id', b', context', hb', hcontext', hle, hlt, hstack⟩ :=
        hcovers.enters hpost htakes hdest hv
      have hne : context' ≠ bottom := by
        rintro rfl
        exact not_stack_le_bottom _ hstack
      exact isJumpdest_blanked hlayout hb' (Layout.isReachableIn_of_ne_bottom hcontext' hne) hle hlt
        calldata
    · -- neither code has anything there
      rw [Bool.eq_iff_iff, Program.isJumpdest_iff, Program.isJumpdest_iff, hsize]
      exact ⟨fun hjump => absurd hjump.2.1 hdest, fun hjump => absurd hjump.2.1 hdest⟩
  keeps := by
    rintro s t ⟨hwords, hcovers⟩ hpc hstep
    obtain ⟨id, b, context, hcovers⟩ := hcovers hpc
    exact hcovers.step hpost hwords hstep fun htakes =>
      exists_top_of_knowsJumps hlayout hlive hpost hknows hcovers htakes

/-- Unreachable blocks are dead: if the analysis of some code, refined to the
states that track constants, knows the target of every jump in a reachable
block, then overwriting all unreachable blocks changes no run. Runs have the same
ending, data, final state and number of steps, or both exceed the limit. -/
theorem run_blanked (code : Bytes) {options : AnalysisOptions}
    (hlimit : options.maxPasses = none) :
    ∃ d, (ofCode code options : Disassembly Unit).refine (Lift.lift : Unit → StackState) = .ok d ∧
      (∃ passes, d.build.passes = .ok passes) ∧
      (d.build.disassembly.KnowsJumps →
        ∀ (calldata : Bytes) (storage : Storage) (limit : Int),
          Machine.run (.load d.build.disassembly.blanked calldata) storage limit
            = Machine.run (.load code calldata) storage limit) := by
  obtain ⟨d, hrefine, -, -, hsettled, hpost⟩ :=
    @build_refineAt Unit _ code options hlimit (fun _ => Lift.lift) fun _ _ => trivial
  refine ⟨d, (refine_eq_refineAt _ _).trans hrefine, hsettled.passes, ?_⟩
  intro hknows calldata storage limit
  refine (lockstep_blanked hsettled.layout hsettled.live hpost hknows calldata).run_eq
    ⟨allWords_nil, fun hcode => ?_⟩ limit
  exact Layout.Covers.initial hpost (Nat.lt_of_le_of_lt (Nat.zero_le _) hcode) storage

/-- A jump over the push of two bytes that look like jump destinations. -/
def overjump : Bytes := ⟨#[0x60, 0x06, 0x56, 0x61, 0x5b, 0x5b, 0x5b, 0x00]⟩

theorem run_blanked_overjump :
    ({} : AnalysisOptions).maxPasses = none ∧
      ∃ d, (ofCode overjump {} : Disassembly Unit).refine (Lift.lift : Unit → StackState) = .ok d ∧
        d.build.disassembly.KnowsJumps ∧
        d.build.disassembly.blanked
          = (⟨#[0x60, 0x06, 0x56, 0xfe, 0xfe, 0xfe, 0x5b, 0x00]⟩ : Bytes) ∧
        ∀ (calldata : Bytes) (storage : Storage) (limit : Int),
          Machine.run (.load d.build.disassembly.blanked calldata) storage limit
            = Machine.run (.load overjump calldata) storage limit := by
  obtain ⟨d, hrefine, -, hrun⟩ := @run_blanked overjump {} rfl
  obtain rfl := Except.ok.inj (hrefine.symm.trans (refine_lift_ofCode overjump {}))
  refine ⟨rfl, _, hrefine, ?_⟩
  -- the only jump is the one over the dead block
  have hjumps : ∀ b ∈ (@ofCode StackState _ overjump {}).build.disassembly.blocks.toList,
      ∀ i ∈ sweep (@ofCode StackState _ overjump {}).build.disassembly.code b.start b.stop,
        i.instruction.canBranch = true →
          (ofCode overjump {}).build.disassembly.stateAt i.offset
            = Except.ok (stack [.known 6]) := by
    decide +kernel
  have hknows : (ofCode overjump {}).build.disassembly.KnowsJumps := by
    intro id b hb _ i hi hbranch
    have hmem := Array.mem_toList_iff.mpr (Array.mem_of_getElem? hb)
    exact ⟨_, 6, hjumps b hmem i hi hbranch, rfl⟩
  exact ⟨hknows, by decide +kernel, hrun hknows⟩

end Disassembly

end EvmToolchain
