import EvmToolchain.Proofs.Analysis.Soundness
import Mathlib.Logic.Relation

/-!
# EvmToolchain.Proofs.Analysis.Resolved

The analysis of code in which every jump comes right after the push of its
target.

Push and jump stand in the same block, so the target is known whatever the
state at the entry of the block (`FedJump.top_eq`). Then an edge of the control
flow graph that the code shows (`Layout.Edge`) never disappears when states
rise, and the blocks that the analysis reaches are those with a path from the
first block.
-/

namespace EvmToolchain

open Instruction StackState

/-- A jump comes right after the push of a two-byte address, and a jump
destination is at that address. -/
structure FedJump (code : Bytes) (pc push : Nat) (data : List UInt8) : Prop where
  walk : Walk code 0 push
  push_eq : decodeAt code push = .push data
  length_eq : data.length = labelWidth
  next_eq : push + 3 = pc
  target_walk : Walk code 0 (BigEndian.toNat data)
  target_lt : BigEndian.toNat data < code.size
  target_jumpdest : IsJumpdestAt code (BigEndian.toNat data)

/-- Every jump of the code is fed. -/
def FeedsJumps (code : Bytes) : Prop :=
  ∀ pc, Walk code 0 pc → pc < code.size → (decodeAt code pc).canBranch = true →
    ∃ push data, FedJump code pc push data

namespace Layout

variable {code : Bytes} {id : Nat} {b : Block} {context : StackState}

/-! ### States within a block -/

/-- Within a block that is entered every instruction is reached. -/
theorem stateBefore_ne_bottom (hb : b.IsBasic code) (hne : context ≠ bottom) {pc : Nat}
    (hpc : Walk code b.start pc) (hlt : pc < b.stop) :
    stateBefore code b context pc ≠ bottom := by
  refine afterAll_ne_bottom (fun _ hi => readable_of_mem_sweep hi) (fun i hi => ?_) hne
  obtain ⟨hwalk, hbefore, hinsn⟩ := mem_sweep.mp hi
  cases hterm : i.instruction.isTerminator with
  | false => rfl
  | true =>
      -- a terminator is the last instruction of its block
      have hstop := hb.terminator_last hwalk (Nat.lt_trans hbefore hlt) (hinsn ▸ hterm)
      have hnext := hwalk.next_le_of_lt hpc hbefore
      omega

/-- The last instruction of a block. -/
theorem exists_getLast? (code : Bytes) (b : Block) :
    ∃ front last, sweep code b.start b.stop = front ++ [last] := by
  have hne : sweep code b.start b.stop ≠ [] := by
    rw [sweep_of_lt b.start_lt_stop]
    exact List.cons_ne_nil _ _
  exact ⟨_, _, (List.dropLast_concat_getLast hne).symm⟩

/-- The end of a block that is entered is reached unless its last instruction
never falls through. -/
theorem stateBefore_stop_ne_bottom_iff (hb : b.IsBasic code) {front : List Located} {last : Located}
    (hlast : sweep code b.start b.stop = front ++ [last]) :
    stateBefore code b context b.stop ≠ bottom ↔
      context ≠ bottom ∧ last.instruction.isTerminator = false := by
  obtain ⟨hwalk, hlt, hinsn, hfront, -⟩ := sweep_split hlast
  have hstop : stateBefore code b context b.stop
      = after last.instruction (stateBefore code b context last.offset) := by
    rw [stateBefore, hlast, afterAll_append, hfront]
    rfl
  have hreadable : last.instruction.Readable := hinsn ▸ readable_decodeAt code last.offset
  rw [hstop]
  constructor
  · intro h
    refine ⟨fun hbot => h ?_, ?_⟩
    · rw [hbot, stateBefore_bottom, after_bottom]
    · cases hterm : last.instruction.isTerminator with
      | false => rfl
      | true => exact absurd (after_of_isTerminator hreadable hterm _) h
  · rintro ⟨hne, hterm⟩
    exact after_ne_bottom hreadable hterm (stateBefore_ne_bottom hb hne hwalk hlt)

/-- Right after a push its value is known at the top. -/
theorem top_stateBefore_push (hb : b.IsBasic code) (hne : context ≠ bottom) {push : Nat}
    (hwalk : Walk code b.start push) (hlt : push < b.stop) {data : List UInt8}
    (hpush : decodeAt code push = .push data) :
    Domain.top (stateBefore code b context (push + (decodeAt code push).length))
      = .known (BigEndian.toNat data) := by
  rw [stateBefore_next hwalk, hpush]
  cases hs : stateBefore code b context push with
  | bottom => exact absurd hs (stateBefore_ne_bottom hb hne hwalk hlt)
  | stack slots => rfl

/-! ### The control flow graph -/

/-- An edge of the control flow graph: to the next block unless the last
instruction never falls through, and to the block that starts at the two-byte
immediate of a push right before a jump. -/
inductive Edge (code : Bytes) : Nat → Nat → Prop
  | next {id : Nat} {b next : Block} {last : Located} :
      (ofCode code).blocks[id]? = some b → (ofCode code).blocks[id + 1]? = some next →
      (sweep code b.start b.stop).getLast? = some last →
      last.instruction.isTerminator = false → Edge code id (id + 1)
  | jump {id target : Nat} {b b' : Block} {before rest : List Located} {push jump : Located}
      {data : List UInt8} :
      (ofCode code).blocks[id]? = some b →
      sweep code b.start b.stop = before ++ push :: jump :: rest →
      push.instruction = .push data → data.length = labelWidth →
      jump.instruction.canBranch = true →
      (ofCode code).blocks[target]? = some b' → b'.start = BigEndian.toNat data →
      Edge code id target

end Layout

namespace FedJump

variable {code : Bytes} {pc push : Nat} {data : List UInt8} {b : Block}

theorem length_decodeAt (h : FedJump code pc push data) : (decodeAt code push).length = 3 := by
  have hlen := h.length_eq
  rw [h.push_eq]
  show 1 + data.length = 3
  rw [hlen]
  rfl

/-- The push that feeds a jump stands in the block of the jump. -/
theorem start_le (h : FedJump code pc push data) (hb : b.IsBasic code) (hle : b.start ≤ pc)
    (hbranch : (decodeAt code pc).canBranch = true) : b.start ≤ push := by
  have hlen := h.length_decodeAt
  have hnext := h.next_eq
  by_contra hlt
  have hstart : b.start = pc := by
    have := h.walk.next_le_of_lt hb.walk (Nat.not_le.mp hlt)
    omega
  -- otherwise a block starts at the jump, for which there is no reason
  rcases hb.mayStart with hzero | hjump | ⟨before, hwalk, hterm, hbefore⟩
  · omega
  · rw [hstart, IsJumpdestAt] at hjump
    simp [canBranch, hjump] at hbranch
  · -- what comes right before the jump is the push, which falls through
    have heq : before = push := by
      rcases Nat.lt_trichotomy before push with hcase | hcase | hcase
      · have := hwalk.next_le_of_lt h.walk hcase
        omega
      · exact hcase
      · have := h.walk.next_le_of_lt hwalk hcase
        have := length_decodeAt_pos code before
        omega
    rw [heq, h.push_eq] at hterm
    cases hterm

/-- The target of a fed jump is known, whatever state its block is entered in. -/
theorem top_eq (h : FedJump code pc push data) (hb : b.IsBasic code) (hle : b.start ≤ pc)
    (hlt : pc < b.stop) (hbranch : (decodeAt code pc).canBranch = true) {context : StackState}
    (hne : context ≠ bottom) :
    Domain.top (Layout.stateBefore code b context pc) = .known (BigEndian.toNat data) := by
  have hnext := h.next_eq
  have hwalk := hb.walk.tail_of_le h.walk (h.start_le hb hle hbranch)
  have htop := Layout.top_stateBefore_push hb hne hwalk (by omega) h.push_eq
  rwa [h.length_decodeAt, hnext] at htop

/-- A block starts where a fed jump goes. -/
theorem exists_target (h : FedJump code pc push data) :
    ∃ target b', (Layout.ofCode code).blockIndex (BigEndian.toNat data) = .ok target ∧
      (Layout.ofCode code).blocks[target]? = some b' ∧ b'.start = BigEndian.toNat data := by
  obtain ⟨target, b', hindex, hb', hle, hlt⟩ := Layout.exists_blockIndex h.target_lt
  exact ⟨target, b', hindex, hb', (Layout.eq_start_of_jumpdest (Layout.isBasic hb')
    h.target_walk hle hlt h.target_jumpdest).symm⟩

/-- A fed jump is an edge of the control flow graph. -/
theorem edge (h : FedJump code pc push data) {id target : Nat} {b' : Block}
    (hb : (Layout.ofCode code).blocks[id]? = some b) (hle : b.start ≤ pc) (hlt : pc < b.stop)
    (hbranch : (decodeAt code pc).canBranch = true)
    (hb' : (Layout.ofCode code).blocks[target]? = some b')
    (hstart : b'.start = BigEndian.toNat data) : Layout.Edge code id target := by
  have hbasic := Layout.isBasic hb
  have hnext := h.next_eq
  have hlen := h.length_decodeAt
  have hwalk := hbasic.walk.tail_of_le h.walk (h.start_le hbasic hle hbranch)
  have hsplit : sweep code b.start b.stop = sweep code b.start push ++ ⟨push, decodeAt code push⟩ ::
      ⟨pc, decodeAt code pc⟩ :: sweep code (pc + (decodeAt code pc).length) b.stop := by
    rw [sweep_eq_cons hwalk (by omega), hlen, hnext, sweep_of_lt hlt]
  exact .jump hb hsplit h.push_eq h.length_eq hbranch hb' hstart

end FedJump

namespace Layout

variable {code : Bytes} {contexts : Array StackState}

/-! ### Reached blocks have a path -/

/-- The first block and those with a path from it in the control flow graph. -/
def HasPath (code : Bytes) (id : Nat) : Prop := Relation.ReflTransGen (Edge code) 0 id

/-- Visits only reach blocks with a path. -/
theorem keeps_hasPath (hfeeds : FeedsJumps code) :
    (ofCode code).Keeps fun id (s : StackState) =>
      s.Knows (0 ≤ ·) ∧ (s ≠ bottom → HasPath code id) := by
  refine keeps_of_flows (fun v hv => hv.1) (fun _ => id) ?_ ?_
  · intro id s t hs ht hne
    by_cases hbot : s = bottom
    · rw [hbot, bottom_sup] at hne
      exact ht hne
    · exact hs hbot
  · intro id b s hb hpath _
    have hbasic := isBasic hb
    constructor
    · rintro pc f hpc hlt ⟨hbranch, v, htop, -, hblock, -⟩ -
      have hne : s ≠ bottom := by
        rintro rfl
        rw [stateBefore_bottom] at htop
        cases htop
      obtain ⟨push, data, hfed⟩ := hfeeds pc (hbasic.walk.trans hpc)
        (Nat.lt_of_lt_of_le hlt hbasic.stop_le) hbranch
      obtain rfl := Slot.known.inj
        (htop.symm.trans (hfed.top_eq hbasic hpc.le hlt hbranch hne))
      obtain ⟨target, b', hindex, hb', hstart⟩ := hfed.exists_target
      obtain rfl : target = f.block := Except.ok.inj (hindex.symm.trans hblock)
      exact (hpath hne).tail (hfed.edge hb hpc.le hlt hbranch hb' hstart)
    · intro hid hne
      obtain ⟨front, last, hlast⟩ := exists_getLast? code b
      obtain ⟨hs, hterm⟩ := (stateBefore_stop_ne_bottom_iff hbasic hlast).mp hne
      have hnext := Array.getElem?_eq_getElem hid
      exact (hpath hs).tail (.next hb hnext (by rw [hlast, List.getLast?_concat]) hterm)

/-! ### Blocks with a path are reached -/

/-- Closed states reach all that an edge leads to. -/
theorem ne_bottom_of_edge (hpost : PostFixed code contexts) {id target : Nat}
    (hedge : Edge code id target) {context : StackState} (hcontext : contexts[id]? = some context)
    (hne : context ≠ bottom) : ∃ s, contexts[target]? = some s ∧ s ≠ bottom := by
  cases hedge with
  | next hb hnext hlast hterm =>
      obtain ⟨front, heq⟩ := List.getLast?_eq_some_iff.mp hlast
      obtain ⟨t, ht⟩ := exists_context hpost hnext
      have hstop := (stateBefore_stop_ne_bottom_iff (isBasic hb) heq).mpr ⟨hne, hterm⟩
      exact ⟨t, ht, ne_bottom_of_le (hpost.next_le hb hcontext hne ht) hstop⟩
  | @jump _ b b' before rest push jump data hb hsplit hpush _ hbranch hb' hstart =>
      have hbasic := isBasic hb
      obtain ⟨hwalk, hlt, hinsn, -, -⟩ := sweep_split hsplit
      have hoffset : jump.offset = push.offset + (decodeAt code push.offset).length := by
        rw [offset_eq_next hsplit, Located.next, hinsn]
      have hsplit' : sweep code b.start b.stop = (before ++ [push]) ++ jump :: rest := by
        rw [hsplit]
        simp
      obtain ⟨hwalk', hlt', hinsn', -, -⟩ := sweep_split hsplit'
      -- the pushed target is known at the jump, so its state flows there
      have htop := top_stateBefore_push hbasic hne hwalk hlt (hinsn.symm.trans hpush)
      rw [← hoffset] at htop
      have hlive := stateBefore_ne_bottom hbasic hne hwalk' hlt'
      have htarget : b'.start < code.size :=
        Nat.lt_of_lt_of_le b'.start_lt_stop (isBasic hb').stop_le
      obtain ⟨t, ht⟩ := exists_context hpost hb'
      have hflow : (ofCode code).JumpFlow (stateBefore code b context jump.offset)
          (decodeAt code jump.offset)
          ⟨target, branched (decodeAt code jump.offset)
            (stateBefore code b context jump.offset)⟩ := by
        refine ⟨hinsn' ▸ hbranch, _, htop, ?_, ?_, rfl⟩
        · rw [← hstart]
          exact Int.ofNat_lt.mpr htarget
        · rw [← hstart]
          exact blockIndex_eq hb' (Nat.le_refl _) b'.start_lt_stop
      have hbelow := hpost.jump_le hb hcontext hne hwalk' hlt' hflow ht
      exact ⟨t, ht, ne_bottom_of_le hbelow (branched_ne_bottom (readable_decodeAt code _) hlive)⟩

/-- Closed states reach every block with a path. -/
theorem ne_bottom_of_hasPath (hpost : PostFixed code contexts) {id : Nat}
    (hsize : 0 < contexts.size) (hpath : HasPath code id) :
    ∃ s, contexts[id]? = some s ∧ s ≠ bottom := by
  induction hpath with
  | refl =>
      have hs := Array.getElem?_eq_getElem hsize
      refine ⟨_, hs, ?_⟩
      obtain ⟨slots, hslots⟩ := exists_of_stack_le (hpost.entry hs)
      rw [hslots]
      exact StackState.noConfusion
  | tail _ hedge ih =>
      obtain ⟨s, hs, hne⟩ := ih
      exact ne_bottom_of_edge hpost hedge hs hne

end Layout

/-! ### Resolved code -/

namespace Disassembly

variable {code : Bytes}

/-- The analysis of some code has resolved all of it. -/
structure Resolves (code : Bytes) (d : Disassembly StackState) : Prop where
  layout : d.toLayout = Layout.ofCode code
  /-- Every jump of a reachable block has a known target, and a block starts
  there with a jump destination. -/
  jump_known : ∀ {id : Nat} {b : Block} {i : Located}, d.blocks[id]? = some b →
    d.isBlockReachable id = .ok true → i ∈ sweep code b.start b.stop →
    i.instruction.canBranch = true →
    ∃ (state : StackState) (target : Nat) (b' : Block), d.stateAt i.offset = .ok state ∧
      Domain.peek? state 0 = some (.known b'.start) ∧ d.blocks[target]? = some b' ∧
      IsJumpdestAt code b'.start
  /-- The reachable blocks are those with a path from the first block. -/
  reachable_iff : ∀ {id : Nat}, id < d.blocks.size →
    (d.isBlockReachable id = .ok true ↔ Relation.ReflTransGen (Layout.Edge code) 0 id)
  /-- Runs of the machine stay in reachable blocks. -/
  visited : ∀ {calldata : Bytes} {storage : Storage} {n : Nat} {s : Machine.State},
    Machine.Steps (.load code calldata) n (Machine.initial storage) s → s.pc < code.size →
    ∃ id, d.blockIndex s.pc = .ok id ∧ d.isBlockReachable id = .ok true

/-- What is known at the top is what the slot at the top holds. -/
theorem peek?_of_top {s : StackState} {v : Int} (h : Domain.top s = .known v) :
    Domain.peek? s 0 = some (.known v) := by
  rw [Domain.top] at h
  cases hpeek : Domain.peek? s 0 with
  | none =>
      rw [hpeek] at h
      cases h
  | some slot =>
      rw [hpeek] at h
      exact congrArg some h

variable {d : Disassembly StackState}

/-- A jump of a reachable block that is fed has a known target. -/
theorem exists_target_of_feedsJumps (hfeeds : FeedsJumps code)
    (hlayout : d.toLayout = Layout.ofCode code) (hlive : d.isRetired = false)
    (hpost : Layout.PostFixed code d.contexts) {id : Nat} {b : Block} {i : Located}
    (hb : (Layout.ofCode code).blocks[id]? = some b) (hreach : d.isBlockReachable id = .ok true)
    (hi : i ∈ sweep code b.start b.stop) (hbranch : i.instruction.canBranch = true) :
    ∃ (state : StackState) (target : Nat) (b' : Block), d.stateAt i.offset = .ok state ∧
      Domain.peek? state 0 = some (.known b'.start) ∧
      (Layout.ofCode code).blocks[target]? = some b' ∧ IsJumpdestAt code b'.start := by
  obtain ⟨context, hcontext⟩ := Layout.exists_context hpost hb
  have hne := (isBlockReachable_iff_ne_bottom hlayout hpost hb hcontext).mp hreach
  have hbasic := Layout.isBasic hb
  obtain ⟨hwalk, hlt, hinsn⟩ := mem_sweep.mp hi
  rw [hinsn] at hbranch
  obtain ⟨push, data, hfed⟩ := hfeeds i.offset (hbasic.walk.trans hwalk)
    (Nat.lt_of_lt_of_le hlt hbasic.stop_le) hbranch
  obtain ⟨target, b', -, hb', hstart⟩ := hfed.exists_target
  refine ⟨_, target, b', stateAt_eq hlayout hlive hb hcontext hwalk.le hlt, ?_, hb', ?_⟩
  · rw [hstart]
    exact peek?_of_top (hfed.top_eq hbasic hwalk.le hlt hbranch hne)
  · rw [hstart]
    exact hfed.target_jumpdest

/-- Every run is covered by closed states, since all its jumps are fed. -/
theorem covers_of_feedsJumps (hfeeds : FeedsJumps code)
    (hpost : Layout.PostFixed code d.contexts) {calldata : Bytes} {storage : Storage} {n : Nat}
    {s : Machine.State} (hsteps : Machine.Steps (.load code calldata) n (Machine.initial storage) s)
    (hpc : s.pc < code.size) : ∃ id b context, Layout.Covers code d.contexts s id b context := by
  obtain ⟨-, hcovers⟩ := Layout.Covers.run hpost hsteps (by
    intro k t id b context dest rest _ _ hcovers htakes
    have hbasic := Layout.isBasic hcovers.block_eq
    have hlt := Nat.lt_of_lt_of_le hcovers.lt_stop hbasic.stop_le
    obtain ⟨push, data, hfed⟩ := hfeeds t.pc hcovers.walk hlt htakes.canBranch
    exact ⟨_, hfed.top_eq hbasic hcovers.start_le hcovers.lt_stop htakes.canBranch
      hcovers.context_ne_bottom⟩)
  exact hcovers hpc

/-- Closed states in which only blocks with a path are reached resolve code in
which every jump is fed. -/
theorem resolves_of_postFixed (hfeeds : FeedsJumps code)
    (hlayout : d.toLayout = Layout.ofCode code) (hlive : d.isRetired = false)
    (hpost : Layout.PostFixed code d.contexts)
    (hpaths : AllStates (fun id (s : StackState) => s ≠ bottom → Layout.HasPath code id)
      d.contexts) : d.Resolves code where
  layout := hlayout
  jump_known := by
    intro id b i hb hreach hi hbranch
    rw [hlayout] at hb ⊢
    exact exists_target_of_feedsJumps hfeeds hlayout hlive hpost hb hreach hi hbranch
  reachable_iff := by
    intro id hid
    rw [hlayout] at hid
    have hb := Array.getElem?_eq_getElem hid
    obtain ⟨context, hcontext⟩ := Layout.exists_context hpost hb
    rw [isBlockReachable_iff_ne_bottom hlayout hpost hb hcontext]
    refine ⟨hpaths id context hcontext, fun hpath => ?_⟩
    obtain ⟨s, hs, hne⟩ := Layout.ne_bottom_of_hasPath hpost
      (hpost.size_eq ▸ Nat.lt_of_le_of_lt (Nat.zero_le _) hid) hpath
    rwa [Option.some.inj (hcontext.symm.trans hs)]
  visited := by
    intro calldata storage n s hsteps hpc
    obtain ⟨id, b, context, hcovers⟩ := covers_of_feedsJumps hfeeds hpost hsteps hpc
    refine ⟨id, ?_, ?_⟩
    · rw [hlayout]
      exact Layout.blockIndex_eq hcovers.block_eq hcovers.start_le hcovers.lt_stop
    · exact (isBlockReachable_iff_ne_bottom hlayout hpost hcovers.block_eq
        hcovers.context_eq).mpr hcovers.context_ne_bottom

/-- The analysis resolves all of the code if every jump is fed. -/
theorem resolves_of_feedsJumps (hfeeds : FeedsJumps code) {options : AnalysisOptions}
    (hlimit : options.maxPasses = none) :
    ∃ d, (ofCode code options : Disassembly Unit).refine (Lift.lift : Unit → StackState) = .ok d ∧
      (∃ passes, d.build.passes = .ok passes) ∧ d.build.disassembly.Resolves code := by
  obtain ⟨d, hrefine, hready, hstates, hsettled, hpost⟩ :=
    @build_refineAt Unit _ code options hlimit (fun _ => Lift.lift) (fun _ _ => trivial)
  -- at the start only the first block is reached
  have hstart : AllStates (fun id (s : StackState) =>
      s.Knows (0 ≤ ·) ∧ (s ≠ bottom → Layout.HasPath code id)) d.contexts := by
    intro id s hs
    refine ⟨hready.nonneg id s hs, fun hne => ?_⟩
    obtain ⟨c, rfl⟩ := hstates id s hs
    by_cases hid : id = 0
    · rw [hid]
      exact Relation.ReflTransGen.refl
    · rw [if_neg hid] at hne
      exact absurd rfl hne
  have hpaths := hsettled.evolves.allStates (Layout.keeps_hasPath hfeeds) hstart
  refine ⟨d, by rw [refine_eq_refineAt, hrefine], hsettled.passes, ?_⟩
  exact resolves_of_postFixed hfeeds hsettled.layout hsettled.live hpost
    fun id s hs => (hpaths id s hs).2

end Disassembly

end EvmToolchain
