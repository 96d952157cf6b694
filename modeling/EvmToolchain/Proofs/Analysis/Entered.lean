import EvmToolchain.Proofs.Analysis.Interrupted
import EvmToolchain.Proofs.Analysis.Resolved

/-!
# EvmToolchain.Proofs.Analysis.Entered

Why a block is reported reachable.

A block other than the first becomes reachable when a visit lets something flow
into it: from the block before it, if that falls through, or along a jump of the
visited block whose target is known and lies anywhere in the block
(`Layout.Entered`). One visit at a time this is carried along the evolution of
the states (`Layout.entered_of_evolves`), and once the states have come to rest
all that is entered is reachable (`Layout.isReachableIn_of_followsOpen`,
`Layout.isReachableIn_of_resolves`).

The visits are part of the reason and not only the last states: a target that
was known may be forgotten later, while what flowed there stays.

The analysis does not ask whether a jump may go to its target. If it may, then
the target is the start of the block, and a `JUMPDEST`. If the machine would
refuse the jump, the block is reported reachable all the same, also where it
neither begins with a `JUMPDEST` nor can be fallen into (as in the code
`Disassembly.stray`).
-/

namespace EvmToolchain

open Instruction StackState

/-- What flows into a block has been taken up afterwards. -/
theorem Flow.settled_absorbed {σ : Type} [SemilatticeSup σ] {contexts : Array σ}
    {fs : List (Flow σ)} {f : Flow σ} (hf : f ∈ fs) : f.Settled (absorbed contexts fs) := by
  induction fs generalizing contexts with
  | nil => exact absurd hf List.not_mem_nil
  | cons g rest ih =>
      rcases List.mem_cons.mp hf with rfl | hf
      · intro t ht
        have hinto : ∀ s, (f.into contexts)[f.block]? = some s → f.state ≤ s := by
          intro s hs
          rw [Flow.getElem?_into, if_pos rfl] at hs
          obtain ⟨s', -, rfl⟩ := Option.map_eq_some_iff.mp hs
          exact le_sup_right
        obtain ⟨hlt, -⟩ := Array.getElem?_eq_some_iff.mp ht
        rw [absorbed_cons, size_absorbed] at hlt
        have hs := Array.getElem?_eq_getElem hlt
        obtain ⟨t', ht', hle⟩ := grows_absorbed (f.into contexts) rest _ _ hs
        obtain rfl := Option.some.inj (ht'.symm.trans ht)
        exact (hinto _ hs).trans hle
      · exact ih hf

namespace Layout

variable {code : Bytes} {start contexts after : Array StackState} {id dest : Nat} {b : Block}

/-- The last instruction of a block may fall through. -/
def EndsOpen (code : Bytes) (b : Block) : Prop :=
  ∃ last, (sweep code b.start b.stop).getLast? = some last ∧
    last.instruction.isTerminator = false

/-- The block follows one that counts as reachable and may fall through. -/
def FollowsOpen (code : Bytes) (contexts : Array StackState) (id : Nat) : Prop :=
  ∃ before b, id = before + 1 ∧ (ofCode code).blocks[before]? = some b ∧
    Disassembly.isReachableIn contexts before = true ∧ EndsOpen code b

/-- On the way from some states to others, a visit to a reachable block comes to
a jump that is known to go to the address. -/
inductive Resolves (code : Bytes) (start after : Array StackState) (dest : Nat) : Prop
  | visit {contexts : Array StackState} {id : Nat} {b : Block} {s : StackState} {pc : Nat} :
      (ofCode code).Evolves start contexts → (ofCode code).blocks[id]? = some b →
      contexts[id]? = some s → Disassembly.isReachableIn contexts id = true →
      Walk code b.start pc → pc < b.stop → (decodeAt code pc).canBranch = true →
      Domain.top (stateBefore code b s pc) = .known dest →
      (ofCode code).Evolves (absorbed contexts ((ofCode code).outflow id b s)) after →
      Resolves code start after dest

/-- What can make a block reachable: it is the first one, or it can be fallen
into, or a jump has been known to go to an address in it. -/
def Entered (code : Bytes) (start after : Array StackState) (id : Nat) : Prop :=
  id = 0 ∨ FollowsOpen code after id ∨
    ∃ b dest, (ofCode code).blocks[id]? = some b ∧ b.start ≤ dest ∧ dest < b.stop ∧
      Resolves code start after dest

/-! ### Reachable blocks are entered -/

theorem FollowsOpen.grows (h : FollowsOpen code contexts id) (hgrows : Grows contexts after) :
    FollowsOpen code after id := by
  obtain ⟨before, b, hid, hb, hreach, hopen⟩ := h
  exact ⟨before, b, hid, hb, Disassembly.isReachableIn_of_grows hgrows hreach, hopen⟩

theorem Resolves.evolves (h : Resolves code start contexts dest)
    (hevolves : (ofCode code).Evolves contexts after) : Resolves code start after dest := by
  obtain ⟨hstart, hb, hs, hreach, hpc, hlt, hbranch, htop, hrest⟩ := h
  exact .visit hstart hb hs hreach hpc hlt hbranch htop (hrest.trans hevolves)

theorem Entered.evolves (h : Entered code start contexts id)
    (hevolves : (ofCode code).Evolves contexts after) : Entered code start after id := by
  rcases h with hzero | hopen | ⟨b, dest, hb, hle, hlt, hresolves⟩
  · exact Or.inl hzero
  · exact Or.inr (Or.inl (hopen.grows hevolves.grows))
  · exact Or.inr (Or.inr ⟨b, dest, hb, hle, hlt, hresolves.evolves hevolves⟩)

/-- A visit enters the blocks that something flows into. -/
theorem entered_of_outflow (hevolves : (ofCode code).Evolves start contexts)
    (hb : (ofCode code).blocks[id]? = some b) {s : StackState} (hs : contexts[id]? = some s)
    (hreach : Disassembly.isReachableIn contexts id = true) (hknows : s.Knows (0 ≤ ·))
    {f : Flow StackState} (hf : f ∈ (ofCode code).outflow id b s) (hne : f.state ≠ bottom) :
    Entered code start (absorbed contexts ((ofCode code).outflow id b s)) f.block := by
  rcases ((blockReplay_spec id b hknows).2 f).mp hf with
    ⟨pc, hpc, hlt, hbranch, v, htop, hv, hindex, -⟩ | ⟨-, rfl⟩
  · -- a target that is known is not negative, so it is an address
    obtain ⟨dest, rfl⟩ := Int.eq_ofNat_of_zero_le
      (known_top (knows_stateBefore (fun v hv => hv.1) hknows pc) htop)
    obtain ⟨target, b', hindex', hb', hle', hlt'⟩ := exists_blockIndex (Int.ofNat_lt.mp hv)
    obtain rfl : target = f.block := Except.ok.inj (hindex'.symm.trans hindex)
    exact Or.inr (Or.inr ⟨b', dest, hb', hle', hlt',
      .visit hevolves hb hs hreach hpc hlt hbranch htop .refl⟩)
  · obtain ⟨front, last, hlast⟩ := exists_getLast? code b
    obtain ⟨-, hterm⟩ := (stateBefore_stop_ne_bottom_iff (isBasic hb) hlast).mp hne
    exact Or.inr (Or.inl ⟨id, b, rfl, hb,
      Disassembly.isReachableIn_of_grows (grows_absorbed _ _) hreach,
      last, by rw [hlast, List.getLast?_concat], hterm⟩)

/-- From states of which only the first holds a stack, visits make no block
reachable that is not entered. -/
theorem entered_of_evolves {d : Disassembly StackState} (hd : d.Ready code)
    (hstart : AllStates (fun id s => s ≠ bottom → id = 0) d.contexts)
    (h : (ofCode code).Evolves d.contexts contexts) :
    AllStates (fun id s => s ≠ bottom → Entered code d.contexts contexts id) contexts := by
  induction h with
  | refl => exact fun id s hs hne => Or.inl (hstart id s hs hne)
  | visit hprev hb hs hreach ih =>
      refine AllStates.absorbed ?_ ?_ ?_
      · intro id s t hs ht hne
        by_cases hbot : s = bottom
        · rw [hbot, bottom_sup] at hne
          exact ht hne
        · exact hs hbot
      · exact fun id s hs' hne => (ih id s hs' hne).evolves (.visit .refl hb hs hreach)
      · intro f hf hne
        exact entered_of_outflow hprev hb hs hreach (hd.nonneg_of_evolves hprev _ _ hs) hf hne

/-! ### Entered blocks are reachable -/

/-- A reachable block is entered in a stack, the first one too. -/
theorem ne_bottom_of_isReachableIn (hentry : ∀ s, contexts[0]? = some s → stack [] ≤ s)
    {s : StackState} (hs : contexts[id]? = some s)
    (hreach : Disassembly.isReachableIn contexts id = true) : s ≠ bottom := by
  rcases (isReachableIn_iff hs).mp hreach with rfl | hreach
  · obtain ⟨slots, rfl⟩ := exists_of_stack_le (hentry s hs)
    exact StackState.noConfusion
  · exact isReachable_iff.mp hreach

/-- Closed states reach the blocks that can be fallen into. -/
theorem isReachableIn_of_followsOpen (hpost : PostFixed code contexts)
    (hb : (ofCode code).blocks[id]? = some b) (h : FollowsOpen code contexts id) :
    Disassembly.isReachableIn contexts id = true := by
  obtain ⟨before, b', rfl, hb', hreach, last, hlast, hterm⟩ := h
  obtain ⟨s, hs⟩ := exists_context hpost hb'
  obtain ⟨t, ht, hne⟩ := ne_bottom_of_edge hpost (.next hb' hb hlast hterm) hs
    (ne_bottom_of_isReachableIn (fun _ => hpost.entry) hs hreach)
  exact isReachableIn_of_ne_bottom ht hne

/-- A jump that is known to go to an address lets its state flow into the block
there. -/
theorem mem_outflow_of_top (source : Nat) {b' : Block} {s : StackState} (hknows : s.Knows (0 ≤ ·))
    {pc : Nat} (hpc : Walk code b'.start pc) (hpclt : pc < b'.stop)
    (hbranch : (decodeAt code pc).canBranch = true)
    (htop : Domain.top (stateBefore code b' s pc) = .known dest)
    (hb : (ofCode code).blocks[id]? = some b) (hle : b.start ≤ dest) (hlt : dest < b.stop) :
    ⟨id, branched (decodeAt code pc) (stateBefore code b' s pc)⟩
      ∈ (ofCode code).outflow source b' s := by
  have hsize : dest < code.size := Nat.lt_of_lt_of_le hlt (isBasic hb).stop_le
  exact ((blockReplay_spec source b' hknows).2 _).mpr (Or.inl ⟨pc, hpc, hpclt, hbranch, dest, htop,
    Int.ofNat_lt.mpr hsize, blockIndex_eq hb hle hlt, rfl⟩)

/-- A visit reaches the block in which the known target of a jump lies. -/
theorem isReachableIn_of_resolves {d : Disassembly StackState} (hd : d.Ready code)
    (hentry : ∀ s, d.contexts[0]? = some s → stack [] ≤ s)
    (hb : (ofCode code).blocks[id]? = some b) (hle : b.start ≤ dest) (hlt : dest < b.stop)
    (h : Resolves code d.contexts after dest) :
    Disassembly.isReachableIn after id = true := by
  cases h with
  | @visit contexts source b' s pc hstart hb' hs hreach hpc hpclt hbranch htop hrest =>
      have hne : s ≠ bottom := by
        refine ne_bottom_of_isReachableIn (fun t ht => ?_) hs hreach
        obtain ⟨t₀, ht₀, hle₀⟩ := hstart.exists_le ht
        exact (hentry t₀ ht₀).trans hle₀
      -- the jump lets a stack flow into the block of its target, and there it stays
      have hflow := mem_outflow_of_top source (hd.nonneg_of_evolves hstart _ _ hs)
        hpc hpclt hbranch htop hb hle hlt
      have hlive := branched_ne_bottom (readable_decodeAt code pc)
        (stateBefore_ne_bottom (isBasic hb') hne hpc hpclt)
      have hid : id < (absorbed contexts ((ofCode code).outflow source b' s)).size := by
        rw [size_absorbed, hstart.size_eq, hd.size_eq]
        exact (Array.getElem?_eq_some_iff.mp hb).1
      have ht := Array.getElem?_eq_getElem hid
      exact Disassembly.isReachableIn_of_grows hrest.grows
        (isReachableIn_of_ne_bottom ht (ne_bottom_of_le (Flow.settled_absorbed hflow _ ht) hlive))

end Layout

namespace Disassembly

variable {code : Bytes} {d : Disassembly StackState}

/-- Only the first block is entered at the start of an analysis, and in a stack. -/
structure Fresh (d : Disassembly StackState) : Prop where
  entry : ∀ s, d.contexts[0]? = some s → stack [] ≤ s
  only : AllStates (fun id s => s ≠ bottom → id = 0) d.contexts

theorem fresh_ofCode (code : Bytes) (options : AnalysisOptions) : (ofCode code options).Fresh where
  entry := by
    intro s hs
    rw [(getElem?_contexts_ofCode hs).2, if_pos rfl]
    exact le_refl _
  only := by
    intro id s hs hne
    by_contra hid
    rw [(getElem?_contexts_ofCode hs).2, if_neg hid] at hne
    exact hne rfl

/-- After an analysis that has come to rest, the blocks other than the first are
reported reachable exactly if they have been entered. -/
theorem isBlockReachable_iff_entered (hd : d.Ready code) (hfresh : d.Fresh)
    (hsettled : d.Settled code d.build) {id : Nat} {b : Block}
    (hb : (Layout.ofCode code).blocks[id]? = some b) (hid : id ≠ 0) :
    d.build.disassembly.isBlockReachable id = .ok true ↔
      Layout.FollowsOpen code d.build.disassembly.contexts id ∨
        ∃ dest, b.start ≤ dest ∧ dest < b.stop ∧
          Layout.Resolves code d.contexts d.build.disassembly.contexts dest := by
  have hpost := Layout.postFixed_of_settled hd hfresh.entry hsettled
  obtain ⟨s, hs⟩ := Layout.exists_context hpost hb
  have hreach : d.build.disassembly.isBlockReachable id = .ok true ↔
      isReachableIn d.build.disassembly.contexts id = true := by
    rw [isBlockReachable_iff hsettled.layout hb hs, isReachableIn_iff hs, isReachable_iff]
  rw [hreach]
  constructor
  · intro hin
    have hne := isReachable_iff.mp (((isReachableIn_iff hs).mp hin).resolve_left hid)
    rcases Layout.entered_of_evolves hd hfresh.only hsettled.evolves id s hs hne with
      hzero | hopen | ⟨b', dest, hb', hle, hlt, hresolves⟩
    · exact absurd hzero hid
    · exact Or.inl hopen
    · obtain rfl := Option.some.inj (hb'.symm.trans hb)
      exact Or.inr ⟨dest, hle, hlt, hresolves⟩
  · rintro (hopen | ⟨dest, hle, hlt, hresolves⟩)
    · exact Layout.isReachableIn_of_followsOpen hpost hb hopen
    · exact Layout.isReachableIn_of_resolves hd hfresh.entry hb hle hlt hresolves

/-- A block other than the first is reported reachable exactly if the block before
it is reported reachable and may fall through, or if the analysis has come to a
jump that it knew to go to an address in the block. So a reachable block begins
with a `JUMPDEST`, or follows a reachable one that may fall through, or else the
analysis has let a jump enter it that the machine would refuse. -/
theorem reachable_or_stray (code : Bytes) {options : AnalysisOptions}
    (hlimit : options.maxPasses = none) :
    ∃ d, (ofCode code options : Disassembly Unit).refine (Lift.lift : Unit → StackState) = .ok d ∧
      (∃ passes, d.build.passes = .ok passes) ∧
      ∀ (id : Nat) (b : Block), d.blocks[id]? = some b → id ≠ 0 →
        (d.build.disassembly.isBlockReachable id = .ok true ↔
          Layout.FollowsOpen code d.build.disassembly.contexts id ∨
            ∃ dest, b.start ≤ dest ∧ dest < b.stop ∧
              Layout.Resolves code d.contexts d.build.disassembly.contexts dest) ∧
        (d.build.disassembly.isBlockReachable id = .ok true →
          IsJumpdestAt code b.start ∨
            Layout.FollowsOpen code d.build.disassembly.contexts id ∨
            ∃ dest, b.start ≤ dest ∧ dest < b.stop ∧
              Layout.Resolves code d.contexts d.build.disassembly.contexts dest ∧
              ∀ calldata, (Machine.Program.load code calldata).isJumpdest dest = false) := by
  have hready := ready_ofCode code options
  have hsettled := build_spec hready hlimit
  refine ⟨_, refine_lift_ofCode code options, hsettled.passes, fun id b hb hid => ?_⟩
  have hiff := isBlockReachable_iff_entered hready (fresh_ofCode code options) hsettled hb hid
  refine ⟨hiff, fun h => ?_⟩
  rcases hiff.mp h with hopen | ⟨dest, hle, hlt, hresolves⟩
  · exact Or.inr (Or.inl hopen)
  · cases hdest : (Machine.Program.load code ⟨#[]⟩).isJumpdest dest with
    | false => exact Or.inr (Or.inr ⟨dest, hle, hlt, hresolves, fun _ => hdest⟩)
    | true =>
        -- a block starts at every jump destination
        obtain ⟨hwalk, -, hjump⟩ := Machine.Program.isJumpdest_iff.mp hdest
        obtain rfl := Layout.eq_start_of_jumpdest (Layout.isBasic hb) hwalk hle hlt hjump
        exact Or.inl hjump

/-- A jump to an instruction that is no jump destination. -/
def stray : Bytes := ⟨#[0x60, 0x03, 0x56, 0x00]⟩

theorem blocks_stray :
    (Layout.ofCode stray).blocks = #[⟨0, 3, by decide⟩, ⟨3, 4, by decide⟩] := by
  decide +kernel

theorem sweep_stray : sweep stray 0 3 = [⟨0, .push [3]⟩, ⟨2, .op .jump⟩] := by decide +kernel

theorem not_isJumpdestAt_stray : ¬ IsJumpdestAt stray 3 := by
  unfold IsJumpdestAt
  decide +kernel

theorem not_followsOpen_stray (contexts : Array StackState) :
    ¬ Layout.FollowsOpen stray contexts 1 := by
  rintro ⟨before, b, hid, hb, -, last, hlast, hterm⟩
  obtain rfl : before = 0 := by omega
  rw [blocks_stray] at hb
  obtain rfl : ⟨0, 3, by decide⟩ = b := Option.some.inj hb
  obtain rfl := Option.some.inj ((congrArg List.getLast? sweep_stray).symm.trans hlast)
  cases hterm

theorem isBlockReachable_build_stray :
    (ofCode stray {} : Disassembly StackState).build.disassembly.isBlockReachable 1
      = .ok true := by
  decide +kernel

/-- The known target of the jump is the `STOP`, to which the machine lets no jump go. -/
theorem exists_resolves_stray :
    ({} : AnalysisOptions).maxPasses = none ∧
      ∃ d, (ofCode stray {} : Disassembly Unit).refine (Lift.lift : Unit → StackState) = .ok d ∧
        ∃ dest, 3 ≤ dest ∧ dest < 4 ∧
          Layout.Resolves stray d.contexts d.build.disassembly.contexts dest ∧
          ∀ calldata, (Machine.Program.load stray calldata).isJumpdest dest = false := by
  have hlimit : ({} : AnalysisOptions).maxPasses = none := rfl
  obtain ⟨d, hrefine, -, hreach⟩ := reachable_or_stray stray hlimit
  obtain rfl := Except.ok.inj (hrefine.symm.trans (refine_lift_ofCode stray {}))
  have hb : (ofCode stray {} : Disassembly StackState).blocks[1]? = some ⟨3, 4, by decide⟩ := by
    show (Layout.ofCode stray).blocks[1]? = _
    rw [blocks_stray]
    rfl
  refine ⟨hlimit, _, hrefine, ?_⟩
  rcases (hreach 1 _ hb Nat.one_ne_zero).2 isBlockReachable_build_stray with hjump | hopen | hstray
  · exact absurd hjump not_isJumpdestAt_stray
  · exact absurd hopen (not_followsOpen_stray _)
  · exact hstray

/-- The block of the `STOP` is reported reachable, though it does not begin with a
`JUMPDEST`, and no reachable block before it may fall through. -/
theorem isBlockReachable_stray :
    ∃ d, (ofCode stray {} : Disassembly Unit).refine (Lift.lift : Unit → StackState) = .ok d ∧
      d.build.passes = .ok 2 ∧
      ∃ b, d.blocks[1]? = some b ∧
        d.build.disassembly.isBlockReachable 1 = .ok true ∧
        ¬ (IsJumpdestAt stray b.start ∨
          Layout.FollowsOpen stray d.build.disassembly.contexts 1) := by
  refine ⟨_, refine_lift_ofCode stray {}, by decide +kernel, ⟨3, 4, by decide⟩, ?_,
    isBlockReachable_build_stray, ?_⟩
  · show (Layout.ofCode stray).blocks[1]? = _
    rw [blocks_stray]
    rfl
  · rintro (hjump | hopen)
    · exact not_isJumpdestAt_stray hjump
    · exact not_followsOpen_stray _ hopen

end Disassembly

end EvmToolchain
