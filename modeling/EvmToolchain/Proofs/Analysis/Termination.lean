import EvmToolchain.Proofs.Analysis.Effect
import EvmToolchain.Proofs.Analysis.Engine
import EvmToolchain.Proofs.Code.Blocks

/-!
# EvmToolchain.Proofs.Analysis.Termination

The constant-stack analysis of any bytes ends without an error.

Replaying a block of decoded code never fails as long as no state knows a
negative value: every instruction then has an effect, and a known jump target
that is less than the size of the code lies in a block
(`Layout.blockReplay_spec`). What a block entry can still lose, its slots and
the values in them, is counted by `StackState.rank`; a merge that changes a
state lowers it. Since `Disassembly.passBound` exceeds the rank of all states
together, an analysis without a limit ends in a stable assignment
(`Disassembly.build_spec`).
-/

namespace EvmToolchain

open Instruction StackState

/-! ### What flows out of a block -/

namespace Layout

/-- What flows along a jump instruction that is taken at a state: the branch
state, to the block of the target, if that is known and lies in the code. -/
def JumpFlow (l : Layout) (s : StackState) (i : Instruction) (f : Flow StackState) : Prop :=
  i.canBranch = true ∧ ∃ v, Domain.top s = .known v ∧ v < l.code.size ∧
    l.blockIndex v = .ok f.block ∧ f.state = branched i s

/-- What a state knows at the top has the property that all that it knows has. -/
theorem known_top {P : Int → Prop} {s : StackState} (hs : s.Knows P) {v : Int}
    (htop : Domain.top s = .known v) : P v := by
  cases s with
  | bottom => cases htop
  | stack slots =>
      refine hs v (known_mem_of_getD (n := 0) ?_)
      rw [← htop]
      rfl

variable {code : Bytes}

/-- A jump does not fail at a state that knows no negative value. -/
theorem jumpEffects_spec (code : Bytes) {s : StackState} (hs : s.Knows (0 ≤ ·)) {i : Located}
    (hi : i.instruction.Readable) :
    ∃ effects, (ofCode code).jumpEffects s i = .ok effects ∧
      ∀ f, f ∈ Effect.flows effects ↔ (ofCode code).JumpFlow s i.instruction f := by
  rw [jumpEffects]
  cases hbranch : i.instruction.canBranch with
  | false => exact ⟨[], rfl, fun f => by simp [Effect.flows, JumpFlow, hbranch]⟩
  | true =>
      cases htop : Domain.top s with
      | unknown => exact ⟨[], rfl, fun f => by simp [Effect.flows, JumpFlow, htop]⟩
      | known v =>
          have hv : 0 ≤ v := known_top hs htop
          by_cases hlt : v < (ofCode code).code.size
          · -- a target that is not negative lies in a block
            obtain ⟨pc, rfl⟩ := Int.eq_ofNat_of_zero_le hv
            obtain ⟨id, -, hid, -⟩ := exists_blockIndex (show pc < code.size from Int.ofNat_lt.mp hlt)
            have hstate : Domain.branch i.instruction s = .ok (branched i.instruction s) :=
              StackState.branch_eq hi s
            refine ⟨[.flow ⟨id, branched i.instruction s⟩], ?_, fun f => ?_⟩
            · simp only [if_true, if_pos hlt, hstate]
              rw [hid]
            · rw [Effect.mem_flows, List.mem_singleton, Effect.flow.injEq, JumpFlow]
              constructor
              · rintro rfl
                exact ⟨hbranch, _, htop, hlt, hid, rfl⟩
              · rintro ⟨-, v, hv', -, hblock, hstate'⟩
                obtain rfl := Slot.known.inj (htop.symm.trans hv')
                obtain rfl : id = f.block := Except.ok.inj (hid.symm.trans hblock)
                rw [← hstate']
          · -- a target outside of the code is reported, and nothing flows there
            refine ⟨_, by rw [if_pos rfl]; exact if_neg hlt, fun f => ?_⟩
            rw [Effect.mem_flows, JumpFlow]
            constructor
            · intro h
              simp at h
            · rintro ⟨-, w, hw, hlt', -⟩
              obtain rfl := Slot.known.inj (htop.symm.trans hw)
              exact absurd hlt' hlt

/-- The replay of instructions does not fail, and lets flow what flows along
their jumps. -/
theorem replay_spec (code : Bytes) {insns : List Located} (hinsns : ∀ i ∈ insns, i.instruction.Readable)
    {s : StackState} (hs : s.Knows (0 ≤ ·)) :
    ((ofCode code).replay s insns).final = .ok (afterAll s insns) ∧
      ∀ f, f ∈ Effect.flows ((ofCode code).replay s insns).effects ↔
        ∃ pre i post, insns = pre ++ i :: post ∧
          (ofCode code).JumpFlow (afterAll s pre) i.instruction f := by
  induction insns generalizing s with
  | nil => exact ⟨rfl, fun f => by simp [replay, Effect.flows]⟩
  | cons i rest ih =>
      have hi := hinsns i List.mem_cons_self
      obtain ⟨effects, heffects, hflows⟩ := jumpEffects_spec code hs hi
      have hafter : Domain.transfer i.instruction s = .ok (after i.instruction s) :=
        transfer_eq hi s
      obtain ⟨hfinal, hrest⟩ := ih (fun j hj => hinsns j (List.mem_cons_of_mem _ hj))
        (knows_after (fun v hv => hv.1) hi hs)
      have hreplay : (ofCode code).replay s (i :: rest)
          = { (ofCode code).replay (after i.instruction s) rest with
              effects := effects ++ ((ofCode code).replay (after i.instruction s) rest).effects } := by
        rw [replay, heffects]
        dsimp only
        rw [hafter]
      rw [hreplay]
      refine ⟨hfinal, fun f => ?_⟩
      rw [Effect.flows, List.filterMap_append, List.mem_append]
      show f ∈ Effect.flows effects ∨ f ∈ Effect.flows _ ↔ _
      rw [hflows, hrest]
      constructor
      · rintro (hjump | ⟨pre, j, post, rfl, hjump⟩)
        · exact ⟨[], i, rest, rfl, hjump⟩
        · exact ⟨i :: pre, j, post, rfl, hjump⟩
      · rintro ⟨pre, j, post, heq, hjump⟩
        cases pre with
        | nil =>
            obtain ⟨rfl, rfl⟩ := List.cons.inj heq
            exact Or.inl hjump
        | cons first pre =>
            obtain ⟨rfl, rfl⟩ := List.cons.inj heq
            exact Or.inr ⟨pre, j, post, rfl, hjump⟩

/-- The state before the instruction at an offset, when its block is entered
in the given state. -/
def stateBefore (code : Bytes) (b : Block) (s : StackState) (pc : Nat) : StackState :=
  afterAll s (sweep code b.start pc)

/-- Replaying a block does not fail. What flows out of it flows along its jumps,
and from its end into the next block. -/
theorem blockReplay_spec (id : Nat) (b : Block) {s : StackState} (hs : s.Knows (0 ≤ ·)) :
    ((ofCode code).blockReplay id b s).final = .ok (stateBefore code b s b.stop) ∧
      ∀ f, f ∈ (ofCode code).outflow id b s ↔
        (∃ pc, Walk code b.start pc ∧ pc < b.stop ∧
          (ofCode code).JumpFlow (stateBefore code b s pc) (decodeAt code pc) f) ∨
        (id + 1 < (ofCode code).blocks.size ∧ f = ⟨id + 1, stateBefore code b s b.stop⟩) := by
  obtain ⟨hfinal, hflows⟩ := replay_spec code
    (fun i (hi : i ∈ sweep code b.start b.stop) => readable_of_mem_sweep hi) hs
  -- a split of the sweep of a block is an instruction boundary in the block
  have hjumps : ∀ f, (∃ pre i post, sweep code b.start b.stop = pre ++ i :: post ∧
      (ofCode code).JumpFlow (afterAll s pre) i.instruction f) ↔
      ∃ pc, Walk code b.start pc ∧ pc < b.stop ∧
        (ofCode code).JumpFlow (stateBefore code b s pc) (decodeAt code pc) f := by
    intro f
    constructor
    · rintro ⟨pre, i, post, hsplit, hjump⟩
      obtain ⟨hwalk, hlt, hinsn, rfl, -⟩ := sweep_split hsplit
      exact ⟨i.offset, hwalk, hlt, hinsn ▸ hjump⟩
    · rintro ⟨pc, hwalk, hlt, hjump⟩
      exact ⟨_, _, _, sweep_eq_cons hwalk hlt, hjump⟩
  have hcode : sweep (ofCode code).code b.start b.stop = sweep code b.start b.stop := rfl
  rw [outflow, blockReplay, hcode, hfinal]
  dsimp only
  split
  · next hlt =>
    refine ⟨rfl, fun f => ?_⟩
    rw [Effect.flows, List.filterMap_append, List.mem_append]
    show f ∈ Effect.flows _ ∨ _ ↔ _
    rw [hflows, hjumps]
    simp [stateBefore, hlt]
  · next hlt =>
    refine ⟨hfinal, fun f => ?_⟩
    rw [hflows, hjumps]
    simp [hlt]

theorem knows_stateBefore {P : Int → Prop} (hP : ∀ v, IsWord v → P v) {b : Block}
    {s : StackState} (hs : s.Knows P) (pc : Nat) : (stateBefore code b s pc).Knows P :=
  knows_afterAll hP (fun _ hi => readable_of_mem_sweep hi) hs

theorem height_stateBefore_le {b : Block} {s : StackState} {bound : Nat}
    (hbound : maxStack ≤ bound) (hs : s.height ≤ bound) (pc : Nat) :
    (stateBefore code b s pc).height ≤ bound :=
  height_afterAll_le (fun _ hi => readable_of_mem_sweep hi) hbound hs

end Layout

/-! ### What a block entry can lose -/

namespace StackState

/-- The number of slots and of known values of a stack. -/
def detail (slots : List Slot) : Nat := slots.length + slots.countP Slot.isKnown

/-- How often a state can change, if no stack is higher than the bound. -/
def rank (bound : Nat) : StackState → Nat
  | bottom => 2 * bound + 1
  | stack slots => detail slots

theorem detail_le (slots : List Slot) : detail slots ≤ 2 * slots.length := by
  have := List.countP_le_length (p := Slot.isKnown) (l := slots)
  rw [detail]
  omega

/-- A join has less detail than what is joined, unless it is the same. -/
theorem detail_zipWith_join (a b : List Slot) :
    List.zipWith Slot.join a b = a ∨ detail (List.zipWith Slot.join a b) < detail a := by
  induction a generalizing b with
  | nil => exact Or.inl rfl
  | cons x xs ih =>
      cases b with
      | nil => exact Or.inr (Nat.add_pos_left (Nat.succ_pos _) _)
      | cons y ys =>
          have hslot : x.join y = x ∨ (x.join y).isKnown = false ∧ x.isKnown = true := by
            cases x <;> cases y <;> grind [Slot.join, Slot.isKnown]
          rw [List.zipWith_cons_cons]
          simp only [detail, List.length_cons, List.countP_cons] at ih ⊢
          rcases hslot with hsame | ⟨hforgot, hknown⟩
          · rw [hsame]
            rcases ih ys with heq | hlt
            · exact Or.inl (by rw [heq])
            · exact Or.inr (by omega)
          · rw [hforgot, hknown]
            refine Or.inr ?_
            rcases ih ys with heq | hlt
            · rw [heq]
              simp
            · simp only [Bool.false_eq_true, if_false, if_true]
              omega

/-- The state is no higher than the bound, and all that it knows has the property. -/
def Within (P : Int → Prop) (bound : Nat) (s : StackState) : Prop :=
  s.Knows P ∧ s.height ≤ bound

/-- Every merge that changes a state lowers its rank. -/
theorem rank_drops {P : Int → Prop} (bound : Nat) :
    Drops (fun _ s => Within P bound s) (rank bound) := by
  intro _ s t ⟨_, hs⟩ ⟨_, ht⟩ hle
  cases t with
  | bottom => exact absurd (bottom_le s) hle
  | stack b =>
      cases s with
      | bottom =>
          have hb := detail_le b
          rw [height] at ht
          rw [bottom_sup, rank, rank]
          omega
      | stack a =>
          rw [sup_stack, rank, rank]
          rcases detail_zipWith_join a b with heq | hlt
          · exact absurd (by rw [← sup_eq_left, sup_stack, heq]) hle
          · exact hlt

theorem rank_le {bound : Nat} {s : StackState} (h : s.height ≤ bound) :
    s.rank bound ≤ 2 * bound + 1 := by
  cases s with
  | bottom => exact Nat.le_refl _
  | stack slots =>
      have := detail_le slots
      rw [height] at h
      rw [rank]
      omega

end StackState

/-! ### What visits keep -/

/-- Visits keep what is known within the values of words. They keep a further
property of block entries if merges do, if it passes along every jump whose
target is known, and if it passes from the end of a block to the next one. -/
theorem Layout.keeps_of_flows {code : Bytes} {P : Int → Prop} (hword : ∀ v, IsWord v → P v)
    (hnonneg : ∀ v, P v → 0 ≤ v) {Inv : Nat → StackState → Prop}
    (hsup : ∀ {id s t}, Inv id s → Inv id t → Inv id (s ⊔ t))
    (hflow : ∀ {id b s}, (Layout.ofCode code).blocks[id]? = some b → Inv id s →
      id = 0 ∨ Domain.isReachable s = true →
      (∀ {pc f}, Walk code b.start pc → pc < b.stop →
        (Layout.ofCode code).JumpFlow (stateBefore code b s pc) (decodeAt code pc) f →
        Inv f.block f.state) ∧
      (id + 1 < (Layout.ofCode code).blocks.size → Inv (id + 1) (stateBefore code b s b.stop))) :
    (Layout.ofCode code).Keeps fun id s => s.Knows P ∧ Inv id s where
  sup := fun hs ht => ⟨knows_sup hs.1 ht.1, hsup hs.2 ht.2⟩
  final := fun _ hs _ => ⟨_, (blockReplay_spec _ _ (hs.1.mono hnonneg)).1⟩
  outflow := by
    intro id b s hb ⟨hknows, hs⟩ hreach f hf
    obtain ⟨hjump, hnext⟩ := hflow hb hs hreach
    rcases ((blockReplay_spec id b (hknows.mono hnonneg)).2 f).mp hf with
      ⟨pc, hpc, hlt, hflows⟩ | ⟨hid, rfl⟩
    · have hkept := hjump hpc hlt hflows
      obtain ⟨-, v, -, -, -, hstate⟩ := hflows
      refine ⟨?_, hkept⟩
      rw [hstate]
      exact knows_branched (readable_decodeAt code pc) (knows_stateBefore hword hknows pc)
    · exact ⟨knows_stateBefore hword hknows _, hnext hid⟩

/-- The replay of blocks keeps what is known within the values of words, and
the heights within a bound. -/
theorem Layout.keeps_knows (code : Bytes) {P : Int → Prop} (hword : ∀ v, IsWord v → P v)
    (hnonneg : ∀ v, P v → 0 ≤ v) {bound : Nat} (hbound : maxStack ≤ bound) :
    (Layout.ofCode code).Keeps fun _ s => Within P bound s := by
  refine keeps_of_flows hword hnonneg ?_ ?_
  · intro _ s t hs ht
    cases s with
    | bottom => rwa [bottom_sup]
    | stack a =>
        cases t with
        | bottom => exact hs
        | stack b =>
            refine Nat.le_trans ?_ hs
            simp only [sup_stack, StackState.height, List.length_zipWith]
            exact Nat.min_le_left _ _
  · intro id b s _ hs _
    refine ⟨?_, fun _ => height_stateBefore_le hbound hs _⟩
    rintro pc f - - ⟨-, v, -, -, -, hstate⟩
    rw [hstate]
    exact Nat.le_trans (height_branched_le (readable_decodeAt code pc) _)
      (height_stateBefore_le hbound hs pc)

/-! ### The outcome of an analysis -/

namespace Disassembly

theorem foldl_max_height (states : List StackState) (n : Nat) :
    n ≤ states.foldl (fun n s => max n (Domain.height s)) n ∧
      ∀ s ∈ states, s.height ≤ states.foldl (fun n s => max n (Domain.height s)) n := by
  induction states generalizing n with
  | nil => exact ⟨Nat.le_refl n, by simp⟩
  | cons first rest ih =>
      obtain ⟨hstart, hrest⟩ := ih (max n (Domain.height first))
      rw [List.foldl_cons]
      refine ⟨Nat.le_trans (Nat.le_max_left _ _) hstart, fun s hs => ?_⟩
      rcases List.mem_cons.mp hs with rfl | hs
      · exact Nat.le_trans (Nat.le_max_right _ _) hstart
      · exact hrest s hs

theorem maxStack_le_heightBound (contexts : Array StackState) :
    maxStack ≤ heightBound contexts := by
  rw [heightBound, ← Array.foldl_toList]
  exact (foldl_max_height _ _).1

theorem height_le_heightBound {contexts : Array StackState} {id : Nat} {s : StackState}
    (hs : contexts[id]? = some s) : s.height ≤ heightBound contexts := by
  rw [heightBound, ← Array.foldl_toList]
  exact (foldl_max_height _ _).2 s (List.mem_of_getElem? (by rw [Array.getElem?_toList]; exact hs))

/-- No state can change so often that the bound on passes is reached. -/
theorem totalRank_lt_passBound (contexts : Array StackState) :
    totalRank (rank (heightBound contexts)) contexts < passBound contexts := by
  have hsum : ∀ states : List StackState, (∀ s ∈ states, s.height ≤ heightBound contexts) →
      (states.map (rank (heightBound contexts))).sum
        ≤ states.length * (2 * heightBound contexts + 1) := by
    intro states hstates
    induction states with
    | nil => simp
    | cons s rest ih =>
        have hfirst := rank_le (hstates s List.mem_cons_self)
        have hrest := ih fun t ht => hstates t (List.mem_cons_of_mem _ ht)
        rw [List.map_cons, List.sum_cons, List.length_cons, Nat.succ_mul]
        omega
  have htotal := hsum contexts.toList (by
    intro s hs
    obtain ⟨id, hid⟩ := List.mem_iff_getElem?.mp hs
    exact height_le_heightBound (by rwa [Array.getElem?_toList] at hid))
  rw [Array.length_toList] at htotal
  rw [totalRank, passBound]
  omega

/-- An analysis of the code can start: there is a state for each block, and no
state knows a negative value. -/
structure Ready (code : Bytes) (d : Disassembly StackState) : Prop where
  layout : d.toLayout = Layout.ofCode code
  live : d.isRetired = false
  size_eq : d.contexts.size = (Layout.ofCode code).blocks.size
  nonneg : AllStates (fun _ s => s.Knows (0 ≤ ·)) d.contexts

/-- The outcome of an analysis that has come to rest: a disassembly of the same
code, whose states have evolved from those at the start and are stable. -/
structure Settled (code : Bytes) (d : Disassembly StackState) (b : Built StackState) : Prop where
  passes : ∃ n, b.passes = .ok n
  layout : b.disassembly.toLayout = Layout.ofCode code
  live : b.disassembly.isRetired = false
  evolves : (Layout.ofCode code).Evolves d.contexts b.disassembly.contexts
  stable : (Layout.ofCode code).Stable b.disassembly.contexts

/-- An analysis without a limit comes to rest. -/
theorem build_spec {code : Bytes} {d : Disassembly StackState} (hd : d.Ready code)
    (hlimit : d.options.maxPasses = none) : d.Settled code d.build := by
  have hbudget : budget d.options d.contexts = passBound d.contexts := by rw [budget, hlimit]
  have hkeeps := Layout.keeps_knows code (P := (0 ≤ ·)) (fun v hv => hv.1)
    (fun _ => id) (maxStack_le_heightBound d.contexts)
  have hstart : AllStates (fun _ s => Within (0 ≤ ·) (heightBound d.contexts) s) d.contexts :=
    fun id s hs => ⟨hd.nonneg id s hs, height_le_heightBound hs⟩
  obtain ⟨after, n, hrun, hevolves, hstable⟩ := Progress.run_spec hkeeps (rank_drops _)
    d.options.trace (p := { contexts := d.contexts }) 0 hstart hd.size_eq
    (totalRank_lt_passBound d.contexts)
  have hbuild : d.build = ⟨{ d with contexts := after.contexts },
      after.events.toList ++ [.settled n (reachableCount { d with contexts := after.contexts })
        d.blocks.size], .ok n⟩ := by
    rw [build, hd.live, hbudget, hd.layout]
    simp only [Bool.false_eq_true, if_false, hrun]
  rw [hbuild]
  exact ⟨⟨n, rfl⟩, hd.layout, hd.live, hevolves, hstable⟩

end Disassembly

end EvmToolchain
