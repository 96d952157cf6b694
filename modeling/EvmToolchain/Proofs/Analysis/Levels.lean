import EvmToolchain.Proofs.Analysis.Resolved
import EvmToolchain.Proofs.Machine.Accounting
import EvmToolchain.Proofs.Machine.Safety

/-!
# EvmToolchain.Proofs.Analysis.Levels

Code in which every instruction has one stack height.

Levels assign a height to each offset so that no instruction lacks operands or room,
the next instruction has the height that is counted for it, and so has the target of
a jump (`Leveled`). Then all that can flow into a block has the height of its start,
and a merge has nothing to cut off (`Layout.keeps_hasHeight`). The stack of the
machine keeps to the levels too (`Machine.Steps.length_eq_level`), so the analysis
tracks it exactly, and no run halts for its stack or for a jump
(`Disassembly.tracksHeights_of_leveled`).
-/

namespace EvmToolchain

open Instruction StackState

/-- Each offset of the code has a stack height at which its instruction finds its
operands and room for its results. The height of the next instruction is counted
from it, also behind one that does not fall through, and a fed jump leads to where
that height is the same. -/
structure Leveled (code : Bytes) (level : Nat → Nat) : Prop where
  start : level 0 = 0
  supported : ∀ {pc}, Walk code 0 pc → pc < code.size → (decodeAt code pc).isSupported = true
  fits : ∀ {pc effect}, Walk code 0 pc → pc < code.size →
    (decodeAt code pc).stackEffect = .ok effect → effect.Fits (level pc)
  next : ∀ {pc effect}, Walk code 0 pc → pc < code.size →
    (decodeAt code pc).stackEffect = .ok effect →
    level (pc + (decodeAt code pc).length) = level pc - effect.pops + effect.pushes
  jump : ∀ {pc}, Walk code 0 pc → pc < code.size → (decodeAt code pc).canBranch = true →
    ∃ push data, FedJump code pc push data ∧
      level (BigEndian.toNat data) = level (pc + (decodeAt code pc).length)

theorem Leveled.feedsJumps {code : Bytes} {level : Nat → Nat} (h : Leveled code level) :
    FeedsJumps code := by
  intro pc hwalk hlt hbranch
  obtain ⟨push, data, hfed, -⟩ := h.jump hwalk hlt hbranch
  exact ⟨push, data, hfed⟩

/-! ### Heights of states -/

/-- An action that finds its operands changes the number of slots as the table
says. -/
theorem StackAction.length_result {i : Instruction} (hi : i.Readable) {action : StackAction}
    (haction : ofInstruction i = .ok action) {effect : StackEffect}
    (heffect : i.stackEffect = .ok effect) {slots : List Slot} (hpops : effect.pops ≤ slots.length) :
    (action.result slots).length = slots.length - effect.pops + effect.pushes := by
  have hreplace : ∀ effect : StackEffect, ((StackAction.replace effect).result slots).length
      = slots.length - effect.pops + effect.pushes := by
    intro effect
    rw [result, List.length_append, List.length_replicate, List.length_drop, Nat.add_comm]
  cases hi with
  | push | push0 =>
      obtain rfl := Except.ok.inj haction
      obtain rfl := Except.ok.inj heffect
      rfl
  | jumpdest label =>
      obtain rfl := Except.ok.inj haction
      obtain rfl := Except.ok.inj heffect
      exact hreplace _
  | op o =>
      cases o with
      | dup n =>
          obtain rfl := Except.ok.inj haction
          obtain rfl := Except.ok.inj heffect
          have hpops : n.val + 1 ≤ slots.length := hpops
          show slots.length + 1 = slots.length - (n.val + 1) + (n.val + 2)
          omega
      | swap n =>
          obtain rfl := Except.ok.inj haction
          obtain rfl := Except.ok.inj heffect
          have hpops : n.val + 2 ≤ slots.length := hpops
          show (exchangeTop _ (pad _ slots)).length = slots.length - (n.val + 2) + (n.val + 2)
          rw [exchangeTop, List.length_set, List.length_set, pad, List.length_append,
            List.length_replicate]
          omega
      | _ =>
          obtain rfl := Except.ok.inj haction
          obtain rfl := Except.ok.inj heffect
          exact hreplace _

/-- A jump only consumes. -/
theorem Instruction.pushes_of_canBranch {i : Instruction} (h : i.canBranch = true)
    {effect : StackEffect} (heffect : i.stackEffect = .ok effect) : effect.pushes = 0 := by
  unfold canBranch at h
  split at h
  · next hm =>
    simp only [stackEffect, hm] at heffect
    obtain rfl := Except.ok.inj heffect
    rfl
  · next hm =>
    simp only [stackEffect, hm] at heffect
    obtain rfl := Except.ok.inj heffect
    rfl
  · cases h

namespace StackState

/-- The state has so many slots, unless nothing reaches it. -/
def HasHeight (height : Nat) : StackState → Prop
  | bottom => True
  | stack slots => slots.length = height

variable {height : Nat} {s t : StackState} {i : Instruction} {effect : StackEffect}

/-- Merging states of one height cuts nothing off. -/
theorem HasHeight.sup (hs : s.HasHeight height) (ht : t.HasHeight height) :
    (s ⊔ t).HasHeight height := by
  cases s with
  | bottom => rwa [bottom_sup]
  | stack a =>
      cases t with
      | bottom => exact hs
      | stack b =>
          rw [sup_stack, HasHeight, List.length_zipWith, show a.length = height from hs,
            show b.length = height from ht]
          exact Nat.min_self height

theorem HasHeight.after (hs : s.HasHeight height) (hi : i.Readable)
    (heffect : i.stackEffect = .ok effect) (hfits : effect.Fits height) :
    (after i s).HasHeight (height - effect.pops + effect.pushes) := by
  cases s with
  | bottom => trivial
  | stack slots =>
      obtain rfl : slots.length = height := hs
      obtain ⟨action, haction, -, hafter⟩ := after_stack hi slots
      have hlen := StackAction.length_result hi haction heffect hfits.operands
      rw [hafter]
      split
      · trivial
      · rw [List.take_of_length_le (hlen.trans_le hfits.room)]
        exact hlen

theorem HasHeight.branched (hs : s.HasHeight height) (hi : i.canBranch = true)
    (heffect : i.stackEffect = .ok effect) :
    (branched i s).HasHeight (height - effect.pops + effect.pushes) := by
  cases s with
  | bottom => trivial
  | stack slots =>
      obtain rfl : slots.length = height := hs
      rw [branch_stack heffect, pushes_of_canBranch hi heffect]
      exact List.length_drop

end StackState

/-! ### Heights at block entries -/

namespace Layout

variable {code : Bytes} {level : Nat → Nat}

/-- From one offset to another the height of a state follows the levels. -/
theorem hasHeight_afterAll (h : Leveled code level) {a pc : Nat} (hwalk : Walk code a pc)
    (hstart : Walk code 0 a) (hpc : pc ≤ code.size) {s : StackState}
    (hs : s.HasHeight (level a)) : (afterAll s (sweep code a pc)).HasHeight (level pc) := by
  induction hwalk generalizing s with
  | refl => rwa [sweep_self]
  | @step a pc rest ih =>
      have hlt : a < pc := Nat.lt_of_lt_of_le
        (Nat.lt_add_of_pos_right (length_decodeAt_pos code a)) rest.le
      have hsize : a < code.size := Nat.lt_of_lt_of_le hlt hpc
      obtain ⟨effect, heffect⟩ := stackEffect_readable (readable_decodeAt code a)
      have hafter := hs.after (readable_decodeAt code a) heffect (h.fits hstart hsize heffect)
      rw [← h.next hstart hsize heffect] at hafter
      rw [sweep_of_lt hlt]
      exact ih hstart.snoc hpc hafter

theorem hasHeight_stateBefore (h : Leveled code level) {b : Block} (hb : b.IsBasic code) {pc : Nat}
    (hwalk : Walk code b.start pc) (hle : pc ≤ b.stop) {s : StackState}
    (hs : s.HasHeight (level b.start)) : (stateBefore code b s pc).HasHeight (level pc) :=
  hasHeight_afterAll h hwalk hb.walk (Nat.le_trans hle hb.stop_le) hs

/-- The state has the height of the start of its block. -/
def StartsLevel (code : Bytes) (level : Nat → Nat) (id : Nat) (s : StackState) : Prop :=
  ∀ b, (ofCode code).blocks[id]? = some b → s.HasHeight (level b.start)

/-- All that flows into a block has the height of its start. -/
theorem keeps_hasHeight (h : Leveled code level) :
    (ofCode code).Keeps fun id (s : StackState) =>
      s.Knows (0 ≤ ·) ∧ StartsLevel code level id s := by
  refine keeps_of_flows (fun v hv => hv.1) (fun _ => id) ?_ ?_
  · exact fun hs ht b hb => (hs b hb).sup (ht b hb)
  · intro id b s hb hs _
    have hbasic := isBasic hb
    have hheight := hs b hb
    constructor
    · rintro pc f hpc hlt ⟨hbranch, v, htop, -, hblock, hstate⟩ b' hb'
      have hne : s ≠ bottom := by
        rintro rfl
        rw [stateBefore_bottom] at htop
        cases htop
      have hwalk := hbasic.walk.trans hpc
      have hsize := Nat.lt_of_lt_of_le hlt hbasic.stop_le
      obtain ⟨push, data, hfed, hjump⟩ := h.jump hwalk hsize hbranch
      -- the known target is the one that the jump is fed
      obtain rfl := Slot.known.inj (htop.symm.trans (hfed.top_eq hbasic hpc.le hlt hbranch hne))
      obtain ⟨target, block, hindex, hblock', hstart⟩ := hfed.exists_target
      obtain rfl : target = f.block := Except.ok.inj (hindex.symm.trans hblock)
      obtain rfl : block = b' := Option.some.inj (hblock'.symm.trans hb')
      obtain ⟨effect, heffect⟩ := stackEffect_readable (readable_decodeAt code pc)
      rw [hstate, hstart, hjump, h.next hwalk hsize heffect]
      exact (hasHeight_stateBefore h hbasic hpc hlt.le hheight).branched hbranch heffect
    · intro _ b' hb'
      -- the block ends where the next one starts
      have hnext := start_next hb hb'
      have hwalk := (isBasic hb').walk
      rw [hnext] at hwalk ⊢
      exact hasHeight_stateBefore h hbasic
        (hbasic.walk.tail_of_le hwalk (Nat.le_of_lt b.start_lt_stop)) (Nat.le_refl _) hheight

end Layout

/-! ### Heights along a run -/

namespace Layout.Covers

variable {code calldata : Bytes} {contexts : Array StackState} {level : Nat → Nat}
  {s t : Machine.State} {id : Nat} {b : Block} {context : StackState}

/-- A jump that is taken goes to where it is fed to go. -/
theorem exists_fedJump (h : Covers code contexts s id b context) (hlevel : Leveled code level)
    {dest : Nat} {rest : List Nat}
    (htakes : Machine.Takes (decodeAt code s.pc) s.stack dest rest) :
    ∃ push data, FedJump code s.pc push data ∧ BigEndian.toNat data = dest ∧
      level dest = level (s.pc + (decodeAt code s.pc).length) := by
  have hbasic := isBasic h.block_eq
  have hpc := Nat.lt_of_lt_of_le h.lt_stop hbasic.stop_le
  obtain ⟨push, data, hfed, hjump⟩ := hlevel.jump h.walk hpc htakes.canBranch
  have hdest := Int.ofNat.inj (h.dest_eq htakes
    (hfed.top_eq hbasic h.start_le h.lt_stop htakes.canBranch h.context_ne_bottom))
  exact ⟨push, data, hfed, hdest, hdest ▸ hjump⟩

/-- On a stack at its level, an instruction finds its operands and room for its
results, and keeps the accounts of the table. -/
theorem accounts (h : Covers code contexts s id b context) (hlevel : Leveled code level)
    (calldata : Bytes) {start : Storage} (hsafe : s.Safe code start) (hlen : s.stack.length = level s.pc)
    {effect : StackEffect} (heffect : (decodeAt code s.pc).stackEffect = .ok effect) :
    effect.Fits s.stack.length ∧
      (Machine.step (.load code calldata) s).Accounts
        (fun dest => (∃ rest, Machine.Takes (decodeAt code s.pc) s.stack dest rest) ∧
          (Machine.Program.load code calldata).isJumpdest dest = false) effect s.stack := by
  have hpc := Nat.lt_of_lt_of_le h.lt_stop (isBasic h.block_eq).stop_le
  have hwords : Machine.AllWords s.stack := fun v hv => Semantics.modulus_eq ▸ hsafe.words v hv
  refine ⟨hlen ▸ hlevel.fits h.walk hpc heffect, ?_⟩
  exact Machine.State.step_accounts (p := .load code calldata) hpc hwords hsafe.stack_le
    (hlevel.supported h.walk hpc) heffect

/-- A step from a stack at its level leads to a stack at its level. -/
theorem level_step (h : Covers code contexts s id b context) (hlevel : Leveled code level)
    {start : Storage} (hsafe : s.Safe code start) (hlen : s.stack.length = level s.pc)
    (hstep : Machine.step (.load code calldata) s = .next t) : t.stack.length = level t.pc := by
  have hinsn := readable_decodeAt code s.pc
  have hpc := Nat.lt_of_lt_of_le h.lt_stop (isBasic h.block_eq).stop_le
  obtain ⟨effect, heffect⟩ := stackEffect_readable hinsn
  obtain ⟨-, haccounts⟩ := h.accounts hlevel calldata hsafe hlen heffect
  rw [hstep] at haccounts
  obtain ⟨-, results, hresults, hstack⟩ := haccounts
  have hcount : t.stack.length = level (s.pc + (decodeAt code s.pc).length) := by
    rw [hstack, List.length_append, hresults, List.length_drop, Nat.add_comm, hlen,
      hlevel.next h.walk hpc heffect]
  -- the level is the same where a jump goes
  rw [Machine.step_of_lt hpc] at hstep
  have hwords : Machine.AllWords s.stack := fun v hv => Semantics.modulus_eq ▸ hsafe.words v hv
  cases Machine.execute_next (s := { s with steps := s.steps + 1 }) hinsn hwords hstep with
  | falls _ hnext => rwa [hnext]
  | jumps htakes =>
      obtain ⟨-, -, -, -, hjump⟩ := h.exists_fedJump hlevel htakes
      rwa [hjump]

/-- A step from a stack at its level only halts exceptionally at an invalid
instruction or for an access to memory past the bound. -/
theorem fault_of_halt (h : Covers code contexts s id b context) (hlevel : Leveled code level)
    {start : Storage} (hsafe : s.Safe code start) (hlen : s.stack.length = level s.pc)
    {f : Machine.Fault} (hstep : Machine.step (.load code calldata) s = .halt (.faulted f) t) :
    f = .invalidInstruction ∨ f = .memoryBound := by
  obtain ⟨effect, heffect⟩ := stackEffect_readable (readable_decodeAt code s.pc)
  obtain ⟨hfits, haccounts⟩ := h.accounts hlevel calldata hsafe hlen heffect
  rw [hstep] at haccounts
  cases f with
  | invalidInstruction => exact Or.inl rfl
  | memoryBound => exact Or.inr rfl
  | unsupported name => exact False.elim haccounts
  | stackUnderflow => exact absurd hfits.operands (Nat.not_le.mpr haccounts)
  | stackOverflow => exact absurd hfits.room (Nat.not_le.mpr haccounts.2)
  | invalidJump dest =>
      obtain ⟨-, ⟨rest, htakes⟩, hrefused⟩ := haccounts
      obtain ⟨push, data, hfed, rfl, -⟩ := h.exists_fedJump hlevel htakes
      -- a jump is fed the address of a jump destination
      have hdest : (Machine.Program.load code calldata).isJumpdest (BigEndian.toNat data) = true :=
        Machine.Program.isJumpdest_iff.mpr
          ⟨hfed.target_walk, hfed.target_lt, hfed.target_jumpdest⟩
      rw [hdest] at hrefused
      cases hrefused

end Layout.Covers

namespace Disassembly

variable {code : Bytes} {level : Nat → Nat}

/-- All along a run the stack is at its level. -/
theorem length_eq_level {d : Disassembly StackState} (hlevel : Leveled code level)
    (hpost : Layout.PostFixed code d.contexts) {calldata : Bytes} {storage : Storage} {n : Nat}
    {s : Machine.State}
    (hsteps : Machine.Steps (.load code calldata) n (Machine.initial storage) s) :
    s.stack.length = level s.pc := by
  induction n generalizing s with
  | zero =>
      cases hsteps
      exact hlevel.start.symm
  | succ n ih =>
      obtain ⟨t, hsteps', hpc, hstep⟩ := hsteps.exists_last
      obtain ⟨id, b, context, hcovers⟩ :=
        covers_of_feedsJumps hlevel.feedsJumps hpost hsteps' hpc
      have hsafe := (Machine.State.Safe.initial code storage).steps hsteps'
      exact hcovers.level_step hlevel hsafe (ih hsteps') hstep

/-- The analysis of some code tracks the exact height of the stack. -/
structure TracksHeights (code : Bytes) (level : Nat → Nat) (d : Disassembly StackState) : Prop where
  /-- An instruction is always executed at one stack height, which is that of the
  state before it. -/
  height_eq : ∀ {calldata : Bytes} {storage : Storage} {n : Nat} {s : Machine.State},
    Machine.Steps (.load code calldata) n (Machine.initial storage) s → s.pc < code.size →
    s.stack.length = level s.pc ∧
      ∃ slots, d.stateAt s.pc = .ok (stack slots) ∧ slots.length = s.stack.length
  /-- Runs do not halt for their stack, for a jump or for want of support. -/
  fault_of_run : ∀ {calldata : Bytes} {storage : Storage} {limit : Int} {o : Machine.Outcome}
    {f : Machine.Fault}, Machine.run (.load code calldata) storage limit = .ok o →
    o.ending = .faulted f → f = .invalidInstruction ∨ f = .memoryBound

/-- Closed states whose heights are the levels of their blocks track the height. -/
theorem tracksHeights_of_postFixed {d : Disassembly StackState} (hlevel : Leveled code level)
    (hlayout : d.toLayout = Layout.ofCode code) (hlive : d.isRetired = false)
    (hpost : Layout.PostFixed code d.contexts)
    (hheights : AllStates (Layout.StartsLevel code level) d.contexts) :
    d.TracksHeights code level where
  height_eq := by
    intro calldata storage n s hsteps hpc
    obtain ⟨id, b, context, hcovers⟩ := covers_of_feedsJumps hlevel.feedsJumps hpost hsteps hpc
    have hlen := length_eq_level hlevel hpost hsteps
    obtain ⟨slots, hslots⟩ := exists_of_stack_le hcovers.describes
    have hheight := Layout.hasHeight_stateBefore hlevel (Layout.isBasic hcovers.block_eq)
      hcovers.walk_block hcovers.lt_stop.le
      (hheights id context hcovers.context_eq b hcovers.block_eq)
    rw [hslots] at hheight
    refine ⟨hlen, slots, ?_, hheight.trans hlen.symm⟩
    rw [stateAt_eq hlayout hlive hcovers.block_eq hcovers.context_eq hcovers.start_le
      hcovers.lt_stop, hslots]
  fault_of_run := by
    intro calldata storage limit o f hrun hfault
    obtain ⟨n, s, hsteps, ⟨-, rfl⟩ | ⟨hpc, hhalt⟩⟩ := Machine.exists_steps_of_runFrom hrun
    · cases hfault
    · obtain ⟨id, b, context, hcovers⟩ := covers_of_feedsJumps hlevel.feedsJumps hpost hsteps hpc
      rw [hfault] at hhalt
      exact hcovers.fault_of_halt hlevel ((Machine.State.Safe.initial code storage).steps hsteps)
        (length_eq_level hlevel hpost hsteps) hhalt

/-- The analysis tracks the exact height of the stack in code that has levels. -/
theorem tracksHeights_of_leveled (hlevel : Leveled code level) {options : AnalysisOptions}
    (hlimit : options.maxPasses = none) :
    ∃ d, (ofCode code options : Disassembly Unit).refine (Lift.lift : Unit → StackState) = .ok d ∧
      (∃ passes, d.build.passes = .ok passes) ∧ d.build.disassembly.TracksHeights code level := by
  obtain ⟨d, hrefine, hready, hstates, hsettled, hpost⟩ :=
    @build_refineAt Unit _ code options hlimit (fun _ => Lift.lift) (fun _ _ => trivial)
  -- at the start only the first block has a state, the empty stack
  have hstart : AllStates (fun id (s : StackState) =>
      s.Knows (0 ≤ ·) ∧ Layout.StartsLevel code level id s) d.contexts := by
    intro id s hs
    refine ⟨hready.nonneg id s hs, fun b hb => ?_⟩
    obtain ⟨c, rfl⟩ := hstates id s hs
    by_cases hid : id = 0
    · subst hid
      have hcode : 0 < code.size := Nat.lt_of_lt_of_le
        (Nat.lt_of_le_of_lt (Nat.zero_le _) b.start_lt_stop) (Layout.isBasic hb).stop_le
      obtain ⟨b', hb', hzero⟩ := Layout.exists_first hcode
      obtain rfl := Option.some.inj (hb'.symm.trans hb)
      rw [hzero, hlevel.start]
      rfl
    · rw [if_neg hid]
      trivial
  have hheights := hsettled.evolves.allStates (Layout.keeps_hasHeight hlevel) hstart
  refine ⟨d, by rw [refine_eq_refineAt, hrefine], hsettled.passes, ?_⟩
  exact tracksHeights_of_postFixed hlevel hsettled.layout hsettled.live hpost
    fun id s hs => (hheights id s hs).2

end Disassembly

end EvmToolchain
