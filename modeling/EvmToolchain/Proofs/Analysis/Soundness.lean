import EvmToolchain.Proofs.Analysis.Termination
import EvmToolchain.Proofs.Machine.StackEffect

/-!
# EvmToolchain.Proofs.Analysis.Soundness

The constant-stack analysis describes every run of the machine that only takes
jumps which it has resolved.

What an instruction does to a concrete stack is described by its effect on the
states (`StackState.ofStack_le_after`, `StackState.ofStack_branched`). Stable
states are closed under these effects (`Layout.PostFixed`), so each step of a
run leads from a state that is described to another one (`Layout.Covers.step`).
Blocks start at all jump destinations, which is why a jump enters its target's
block where that block's state holds.
-/

namespace EvmToolchain

open Instruction StackState

namespace StackState

/-! ### Concrete stacks as states -/

/-- The slot of a word. -/
def slotOf (v : Nat) : Slot := .known v

/-- The state that knows all of a stack. -/
def ofStack (items : List Nat) : StackState := stack (items.map slotOf)

/-- A state above that of a stack tracks no more slots, and knows no other values. -/
theorem ofStack_le_iff {items : List Nat} {slots : List Slot} :
    ofStack items ≤ stack slots ↔
      slots.length ≤ items.length ∧
        ∀ (n : Nat) (slot : Slot), slots[n]? = some slot →
          slot = .unknown ∨ ∃ v, items[n]? = some v ∧ slotOf v = slot := by
  rw [ofStack, stack_le_iff, List.length_map]
  simp only [List.getElem?_map, Option.map_eq_some_iff]

theorem known_of_ofStack_le {items : List Nat} {slots : List Slot}
    (h : ofStack items ≤ stack slots) {n : Nat} {v : Int} (hn : slots[n]? = some (.known v)) :
    ∃ w, items[n]? = some w ∧ (w : Int) = v := by
  rcases (ofStack_le_iff.mp h).2 n _ hn with hslot | ⟨w, hw, hslot⟩
  · cases hslot
  · exact ⟨w, hw, Slot.known.inj hslot⟩

/-- Tracking fewer slots is knowing less. -/
theorem stack_le_take (slots : List Slot) (n : Nat) : stack slots ≤ stack (slots.take n) := by
  refine stack_le_iff.mpr ⟨List.length_take_le' _ _, fun k slot hk => Or.inr ?_⟩
  rw [List.getElem?_take] at hk
  split at hk
  · exact hk
  · cases hk

/-- Forgetting the topmost slots is knowing less. -/
theorem append_le_replicate {a b : List Slot} :
    stack (a ++ b) ≤ stack (List.replicate a.length .unknown ++ b) := by
  refine stack_le_iff.mpr ⟨by simp, fun k slot hk => ?_⟩
  rw [List.getElem?_append, List.length_replicate] at hk
  split at hk
  · next hlt =>
    rw [List.getElem?_replicate, if_pos hlt] at hk
    exact Or.inl (Option.some.inj hk).symm
  · next hge =>
    rw [List.getElem?_append, if_neg hge]
    exact Or.inr hk

/-- An action on a concrete stack is described by its result on the slots. -/
theorem ofStack_le_result {action : StackAction} {items items' : List Nat}
    (h : action.Performs items items') :
    ofStack items' ≤ stack (action.result (items.map slotOf)) := by
  have hslot : ∀ {n v : Nat}, items[n]? = some v →
      (items.map slotOf).getD n .unknown = slotOf v := by
    intro n v hv
    rw [List.getD_eq_getElem?_getD, List.getElem?_map, hv]
    rfl
  cases h with
  | push => exact le_refl _
  | @copy n v _ hv =>
      refine le_of_eq (congrArg stack ?_)
      have hn : ((n : Int) + 1 - 1).toNat = n := by omega
      rw [StackAction.result, hn, hslot hv, List.map_cons]
  | @exchange n a b _ ha hb =>
      refine le_of_eq (congrArg stack ?_)
      obtain ⟨hlt, -⟩ := List.getElem?_eq_some_iff.mp hb
      have hn : ((n : Int) + 1).toNat = n + 1 := by omega
      have hpad : StackAction.pad ((n : Int) + 1 + 1).toNat (items.map slotOf)
          = items.map slotOf := by
        have hnone : ((n : Int) + 1 + 1).toNat - (items.map slotOf).length = 0 := by
          rw [List.length_map]
          omega
        rw [StackAction.pad, hnone, List.replicate_zero, List.append_nil]
      rw [StackAction.result, hpad, hn, StackAction.exchangeTop, hslot ha, hslot hb, List.map_set,
        List.map_set]
  | @replace effect taken results rest htaken hresults =>
      have hdrop : ((taken ++ rest).map slotOf).drop effect.pops = rest.map slotOf := by
        rw [← htaken, ← List.map_drop, List.drop_left]
      have hlen : effect.pushes = (results.map slotOf).length := by rw [List.length_map, hresults]
      rw [StackAction.result, hdrop, hlen, ofStack, List.map_append]
      exact append_le_replicate

/-- An instruction that falls through is described by its effect on the state. -/
theorem ofStack_le_after {i : Instruction} (hi : i.Readable) (hterm : i.isTerminator = false)
    {action : StackAction} (haction : StackAction.ofInstruction i = .ok action)
    {items items' : List Nat} (h : action.Performs items items') :
    ofStack items' ≤ after i (ofStack items) := by
  obtain ⟨action', haction', -, hafter⟩ := after_stack hi (items.map slotOf)
  obtain rfl : action = action' := Except.ok.inj (haction.symm.trans haction')
  have hstack : after i (ofStack items)
      = stack ((action.result (items.map slotOf)).take maxStack) := by
    rw [ofStack, hafter, hterm, if_neg (by simp)]
  rw [hstack]
  exact (ofStack_le_result h).trans (stack_le_take _ _)

/-- A jump that is taken is described by the branch state. -/
theorem ofStack_branched {i : Instruction} {items rest : List Nat} {dest : Nat}
    (h : Machine.Takes i items dest rest) : branched i (ofStack items) = ofStack rest := by
  cases h with
  | jump => rfl
  | jumpi => rfl

end StackState

/-! ### Stable states -/

namespace Layout

variable {code : Bytes} {contexts : Array StackState}

/-- The states are closed under what flows from one block to another, and the
first one describes the start of execution. -/
structure PostFixed (code : Bytes) (contexts : Array StackState) : Prop where
  size_eq : contexts.size = (ofCode code).blocks.size
  entry : ∀ {s : StackState}, contexts[0]? = some s → ofStack [] ≤ s
  jump_le : ∀ {id : Nat} {b : Block} {s : StackState}, (ofCode code).blocks[id]? = some b → contexts[id]? = some s →
    s ≠ bottom → ∀ {pc}, Walk code b.start pc → pc < b.stop →
      ∀ {f}, (ofCode code).JumpFlow (stateBefore code b s pc) (decodeAt code pc) f →
        ∀ {t : StackState}, contexts[f.block]? = some t → f.state ≤ t
  next_le : ∀ {id : Nat} {b : Block} {s : StackState}, (ofCode code).blocks[id]? = some b → contexts[id]? = some s →
    s ≠ bottom → ∀ {t : StackState}, contexts[id + 1]? = some t → stateBefore code b s b.stop ≤ t

theorem isReachableIn_of_ne_bottom {id : Nat} {s : StackState} (hs : contexts[id]? = some s)
    (hne : s ≠ bottom) : Disassembly.isReachableIn contexts id = true :=
  (isReachableIn_iff hs).mpr (Or.inr (isReachable_iff.mpr hne))

/-- The states in which an analysis comes to rest are closed. -/
theorem postFixed_of_settled {d : Disassembly StackState} {built : Disassembly.Built StackState}
    (hd : d.Ready code) (hentry : ∀ s, d.contexts[0]? = some s → ofStack [] ≤ s)
    (h : d.Settled code built) : PostFixed code built.disassembly.contexts := by
  have hsize := h.evolves.size_eq.trans hd.size_eq
  -- what flows out of a block is only described for states without negative values
  have hkeeps := keeps_knows code (P := (0 ≤ ·)) (fun v hv => hv.1) (fun _ => id)
    (Disassembly.maxStack_le_heightBound d.contexts)
  have hall := h.evolves.allStates hkeeps fun id s hs =>
    ⟨hd.nonneg id s hs, Disassembly.height_le_heightBound hs⟩
  refine ⟨hsize, ?_, ?_, ?_⟩
  · intro s hs
    obtain ⟨s₀, hs₀, hle⟩ := h.evolves.exists_le hs
    exact (hentry _ hs₀).trans hle
  · intro id b s hb hs hne pc hpc hlt f hf t ht
    have hflow := ((blockReplay_spec id b (hall id s hs).1).2 f).mpr
      (Or.inl ⟨pc, hpc, hlt, hf⟩)
    exact h.stable id b hb s hs (isReachableIn_of_ne_bottom hs hne) f hflow t ht
  · intro id b s hb hs hne t ht
    obtain ⟨hlt, -⟩ := Array.getElem?_eq_some_iff.mp ht
    have hflow := ((blockReplay_spec id b (hall id s hs).1).2
      ⟨id + 1, stateBefore code b s b.stop⟩).mpr (Or.inr ⟨by omega, rfl⟩)
    exact h.stable id b hb s hs (isReachableIn_of_ne_bottom hs hne) _ hflow t ht

theorem stateBefore_bottom (code : Bytes) (b : Block) (pc : Nat) :
    stateBefore code b bottom pc = bottom := by
  rw [stateBefore]
  induction sweep code b.start pc with
  | nil => rfl
  | cons l rest ih => exact ih

theorem stateBefore_start (code : Bytes) (b : Block) (s : StackState) :
    stateBefore code b s b.start = s := by
  rw [stateBefore, sweep_self, afterAll_nil]

/-- The state after the instruction at an offset of a block. -/
theorem stateBefore_next {b : Block} {pc : Nat} (hpc : Walk code b.start pc) (s : StackState) :
    stateBefore code b s (pc + (decodeAt code pc).length)
      = after (decodeAt code pc) (stateBefore code b s pc) := by
  rw [stateBefore, sweep_snoc hpc, afterAll_append]
  rfl

/-! ### Steps of a run -/

/-- The states describe a state of the machine at an instruction of the code. -/
structure Covers (code : Bytes) (contexts : Array StackState) (s : Machine.State) (id : Nat)
    (b : Block) (context : StackState) : Prop where
  walk : Walk code 0 s.pc
  block_eq : (ofCode code).blocks[id]? = some b
  context_eq : contexts[id]? = some context
  start_le : b.start ≤ s.pc
  lt_stop : s.pc < b.stop
  describes : ofStack s.stack ≤ stateBefore code b context s.pc

theorem exists_context (h : PostFixed code contexts) {id : Nat} {b : Block}
    (hb : (ofCode code).blocks[id]? = some b) : ∃ s, contexts[id]? = some s := by
  obtain ⟨hlt, -⟩ := Array.getElem?_eq_some_iff.mp hb
  exact ⟨_, Array.getElem?_eq_getElem (h.size_eq ▸ hlt)⟩

namespace Covers

variable {s t : Machine.State} {id : Nat} {b : Block} {context : StackState}

theorem context_ne_bottom (h : Covers code contexts s id b context) : context ≠ bottom := by
  rintro rfl
  have hle := h.describes
  rw [stateBefore_bottom] at hle
  exact not_stack_le_bottom _ hle

theorem walk_block (h : Covers code contexts s id b context) : Walk code b.start s.pc :=
  (isBasic h.block_eq).walk.tail_of_le h.walk h.start_le

/-- The start of a block is described by the state at its entry. -/
theorem of_start (hb : (ofCode code).blocks[id]? = some b) (hcontext : contexts[id]? = some context)
    (hpc : s.pc = b.start) (hle : ofStack s.stack ≤ context) :
    Covers code contexts s id b context where
  walk := hpc ▸ (isBasic hb).walk
  block_eq := hb
  context_eq := hcontext
  start_le := Nat.le_of_eq hpc.symm
  lt_stop := hpc ▸ b.start_lt_stop
  describes := by
    rw [hpc, stateBefore_start]
    exact hle

/-- The start of a run is described. -/
theorem initial (hpost : PostFixed code contexts) (hcode : 0 < code.size)
    (storage : Storage) :
    ∃ id b context, Covers code contexts (Machine.initial storage) id b context := by
  obtain ⟨b, hb, hstart⟩ := exists_first hcode
  obtain ⟨c, hc⟩ := exists_context hpost hb
  exact ⟨0, b, c, .of_start hb hc hstart.symm (hpost.entry hc)⟩

/-- A step that falls through is described, within the block or in the next one. -/
theorem falls (hpost : PostFixed code contexts) (h : Covers code contexts s id b context)
    (hpc : t.pc = s.pc + (decodeAt code s.pc).length)
    (hle : ofStack t.stack ≤ after (decodeAt code s.pc) (ofStack s.stack))
    (hlt : t.pc < code.size) : ∃ id b context, Covers code contexts t id b context := by
  have hinsn := readable_decodeAt code s.pc
  have hwalk := h.walk_block
  have hdesc : ofStack t.stack ≤ stateBefore code b context t.pc := by
    rw [hpc, stateBefore_next hwalk]
    exact hle.trans (after_mono hinsn h.describes)
  rcases Nat.lt_or_ge t.pc b.stop with hin | hout
  · refine ⟨id, b, context, hpc ▸ h.walk.snoc, h.block_eq, h.context_eq, ?_, hin, hdesc⟩
    have := h.start_le
    omega
  · -- the block ends where its last instruction does, since the code goes on
    have hstop : t.pc = b.stop := by
      rcases next_le_or_eq (isBasic h.block_eq) hwalk h.lt_stop with hnext | hend
      · omega
      · omega
    obtain ⟨b', hb', hstart⟩ := exists_next h.block_eq (by omega)
    obtain ⟨c', hc'⟩ := exists_context hpost hb'
    refine ⟨id + 1, b', c', .of_start hb' hc' (hstop.trans hstart.symm) ?_⟩
    rw [hstop] at hdesc
    exact hdesc.trans (hpost.next_le h.block_eq h.context_eq h.context_ne_bottom hc')

/-- A known target is the one on the stack. -/
theorem dest_eq (h : Covers code contexts s id b context) {dest : Nat} {rest : List Nat}
    (htakes : Machine.Takes (decodeAt code s.pc) s.stack dest rest) {v : Int}
    (htop : Domain.top (stateBefore code b context s.pc) = .known v) : v = dest := by
  have hdesc := h.describes
  cases hst : stateBefore code b context s.pc with
  | bottom =>
      rw [hst] at htop
      cases htop
  | stack slots =>
      rw [hst] at htop hdesc
      cases slots with
      | nil => cases htop
      | cons slot slots =>
          obtain ⟨w, hw, hwv⟩ := known_of_ofStack_le hdesc (n := 0) (congrArg some htop)
          rw [htakes.getElem?_zero] at hw
          rw [← hwv, Option.some.inj hw]

/-- A jump with a known target within the code leads into a block whose state
describes what the jump leaves, whether or not the jump may be taken. -/
theorem enters (hpost : PostFixed code contexts) (h : Covers code contexts s id b context)
    {dest : Nat} {rest : List Nat} (htakes : Machine.Takes (decodeAt code s.pc) s.stack dest rest)
    (hlt : dest < code.size) {v : Int}
    (htop : Domain.top (stateBefore code b context s.pc) = .known v) :
    ∃ (id : Nat) (b : Block) (context : StackState), (ofCode code).blocks[id]? = some b ∧
      contexts[id]? = some context ∧ b.start ≤ dest ∧ dest < b.stop ∧ ofStack rest ≤ context := by
  obtain ⟨id', b', hindex, hb', hle, hlt'⟩ := exists_blockIndex hlt
  obtain ⟨c', hc'⟩ := exists_context hpost hb'
  have hflow : (ofCode code).JumpFlow (stateBefore code b context s.pc) (decodeAt code s.pc)
      ⟨id', branched (decodeAt code s.pc) (stateBefore code b context s.pc)⟩ := by
    obtain rfl := h.dest_eq htakes htop
    exact ⟨htakes.canBranch, _, htop, Int.ofNat_lt.mpr hlt, hindex, rfl⟩
  refine ⟨id', b', c', hb', hc', hle, hlt', ?_⟩
  rw [← ofStack_branched htakes]
  exact (branched_mono (readable_decodeAt code s.pc) h.describes).trans
    (hpost.jump_le h.block_eq h.context_eq h.context_ne_bottom h.walk_block h.lt_stop hflow hc')

/-- A jump that is taken from a state with a known target is described. -/
theorem jumps (hpost : PostFixed code contexts) (h : Covers code contexts s id b context)
    {calldata : Bytes} (htakes : Machine.Takes (decodeAt code s.pc) s.stack t.pc t.stack)
    (hdest : (Machine.Program.load code calldata).isJumpdest t.pc = true) {v : Int}
    (htop : Domain.top (stateBefore code b context s.pc) = .known v) :
    ∃ id b context, Covers code contexts t id b context := by
  obtain ⟨hwalk, hlt, hjump⟩ := Machine.Program.isJumpdest_iff.mp hdest
  obtain ⟨id', b', c', hb', hc', hle, hlt', hstack⟩ := h.enters hpost htakes hlt htop
  -- a block starts at every jump destination, so the run goes on at its entry
  have hstart : t.pc = b'.start := eq_start_of_jumpdest (isBasic hb') hwalk hle hlt' hjump
  exact ⟨id', b', c', .of_start hb' hc' hstart hstack⟩

/-- A step is described, as long as it takes no jump with an unknown target. -/
theorem step (hpost : PostFixed code contexts) {calldata : Bytes}
    (h : Covers code contexts s id b context) (hwords : Machine.AllWords s.stack)
    (hstep : Machine.step (.load code calldata) s = .next t)
    (hknown : ∀ {dest rest}, Machine.Takes (decodeAt code s.pc) s.stack dest rest →
      ∃ v, Domain.top (stateBefore code b context s.pc) = .known v) :
    Machine.AllWords t.stack ∧
      (t.pc < code.size → ∃ id b context, Covers code contexts t id b context) := by
  have hinsn := readable_decodeAt code s.pc
  have hpc : s.pc < code.size := Nat.lt_of_lt_of_le h.lt_stop (isBasic h.block_eq).stop_le
  rw [Machine.step_of_lt hpc] at hstep
  -- the step is counted before it is carried out; the stack is the same
  have hcontinues := Machine.execute_next hinsn
    (s := { s with steps := s.steps + 1 }) hwords hstep
  cases hcontinues with
  | falls hterm hnext haction hperforms hwords' =>
      exact ⟨hwords', h.falls hpost hnext (ofStack_le_after hinsn hterm haction hperforms)⟩
  | jumps htakes hdest hwords' =>
      obtain ⟨v, hv⟩ := hknown htakes
      exact ⟨hwords', fun _ => h.jumps hpost htakes hdest hv⟩

/-- All of a run is described, as long as it takes no jump with an unknown target. -/
theorem run (hpost : PostFixed code contexts) {calldata : Bytes} {storage : Storage} {n : Nat}
    (hsteps : Machine.Steps (.load code calldata) n (Machine.initial storage) s)
    (hknown : ∀ {k t id b context dest rest}, k < n →
      Machine.Steps (.load code calldata) k (Machine.initial storage) t →
      Covers code contexts t id b context →
      Machine.Takes (decodeAt code t.pc) t.stack dest rest →
      ∃ v, Domain.top (stateBefore code b context t.pc) = .known v) :
    Machine.AllWords s.stack ∧
      (s.pc < code.size → ∃ id b context, Covers code contexts s id b context) := by
  induction n generalizing s with
  | zero =>
      cases hsteps
      refine ⟨fun v hv => absurd hv List.not_mem_nil, fun hpc => ?_⟩
      exact initial hpost (Nat.lt_of_le_of_lt (Nat.zero_le _) hpc) storage
  | succ n ih =>
      obtain ⟨t, hsteps', hpc, hstep⟩ := hsteps.exists_last
      -- the last step is the only one that the induction says nothing about
      obtain ⟨hwords, hcovers⟩ := ih hsteps' fun hk => hknown (Nat.lt_succ_of_lt hk)
      obtain ⟨id, b, context, hcovers⟩ := hcovers hpc
      exact hcovers.step hpost hwords hstep (hknown (Nat.lt_succ_self n) hsteps' hcovers)

end Covers

end Layout

/-! ### Refined disassemblies -/

namespace Disassembly

variable {code : Bytes}

/-- The same disassembly in another domain, where the conversion of a state may
also depend on its block. -/
def refineAt {σ τ : Type} [Domain σ] [Domain τ] (d : Disassembly σ) (convert : Nat → σ → τ) :
    Except AnalysisError (Disassembly τ) := do
  d.checkLive
  let contexts ← enter (d.contexts.mapIdx convert)
  return { d with contexts }

theorem refine_eq_refineAt {σ τ : Type} [Domain σ] [Domain τ] (d : Disassembly σ)
    (convert : σ → τ) : d.refine convert = d.refineAt fun _ => convert := by
  have hmap : d.contexts.map convert = d.contexts.mapIdx fun _ => convert :=
    Array.ext_getElem? fun id => by rw [Array.getElem?_map, Array.getElem?_mapIdx]
  rw [refineAt, refine, hmap]

/-- Entering joins the state at the start of execution into the first state. -/
theorem enter_spec (contexts : Array StackState) :
    ∃ entered : Array StackState, enter contexts = .ok entered ∧ entered.size = contexts.size ∧
      ∀ (id : Nat) (s : StackState), entered[id]? = some s → ∃ t, contexts[id]? = some t ∧
        s = if id = 0 then t ⊔ Domain.origin else t := by
  cases hs : contexts[0]? with
  | none =>
      refine ⟨contexts, by rw [enter, hs], rfl, fun id s hid => ⟨s, hid, ?_⟩⟩
      split
      · next h =>
        rw [h, hs] at hid
        cases hid
      · rfl
  | some first =>
      refine ⟨contexts.setIfInBounds 0 (first ⊔ Domain.origin), by rw [enter, hs]; rfl,
        Array.size_setIfInBounds, fun id s hid => ?_⟩
      rw [Array.getElem?_setIfInBounds] at hid
      split at hid
      · next h =>
        subst h
        split at hid
        · exact ⟨first, hs, (Option.some.inj hid).symm⟩
        · cases hid
      · next h => exact ⟨s, hid, by rw [if_neg (Ne.symm h)]⟩

/-- A disassembly refined to states without negative values can be analysed. -/
theorem ready_refineAt {σ : Type} [Domain σ] (code : Bytes) (options : AnalysisOptions)
    {convert : Nat → σ → StackState} (hconvert : ∀ id c, (convert id c).Knows (0 ≤ ·)) :
    ∃ d, (ofCode code options : Disassembly σ).refineAt convert = .ok d ∧ d.Ready code ∧
      d.options = options ∧ ∀ (id : Nat) (s : StackState), d.contexts[id]? = some s →
        ∃ c, s = if id = 0 then convert id c ⊔ Domain.origin else convert id c := by
  obtain ⟨entered, henter, hsize, hentered⟩ :=
    enter_spec ((ofCode code options : Disassembly σ).contexts.mapIdx convert)
  refine ⟨{ Layout.ofCode code with contexts := entered, options }, ?_, ⟨rfl, rfl, ?_, ?_⟩, rfl, ?_⟩
  · show (do let contexts ← enter _; return _) = _
    rw [henter]
    rfl
  · rw [hsize]
    simp [ofCode]
  · intro id s hs
    obtain ⟨t, ht, rfl⟩ := hentered id s hs
    rw [Array.getElem?_mapIdx, Option.map_eq_some_iff] at ht
    obtain ⟨c, -, rfl⟩ := ht
    split
    · exact knows_sup (hconvert _ c) fun v hv => absurd hv List.not_mem_nil
    · exact hconvert id c
  · intro id s hs
    obtain ⟨t, ht, rfl⟩ := hentered id s hs
    rw [Array.getElem?_mapIdx, Option.map_eq_some_iff] at ht
    obtain ⟨c, -, rfl⟩ := ht
    exact ⟨c, rfl⟩

/-- The state just before an offset of a block, from the state at its entry. -/
theorem stateAt_eq {d : Disassembly StackState} (hlayout : d.toLayout = Layout.ofCode code)
    (hlive : d.isRetired = false) {id pc : Nat} {b : Block} {context : StackState}
    (hb : (Layout.ofCode code).blocks[id]? = some b) (hcontext : d.contexts[id]? = some context)
    (hle : b.start ≤ pc) (hlt : pc < b.stop) :
    d.stateAt pc = .ok (Layout.stateBefore code b context pc) := by
  have hindex := Layout.blockIndex_eq hb hle hlt
  have hstate : d.stateAt pc = transferAll context (sweep code b.start pc) := by
    have hcode : (Layout.ofCode code).code = code := rfl
    simp [stateAt, checkLive, hlive, hlayout, hindex, hb, hcontext, hcode, bind, Except.bind]
  rw [hstate]
  exact transferAll_eq (fun _ hi => readable_of_mem_sweep hi) context

/-- A block is reported reachable exactly if it is the first one or its state
is not unreachable. -/
theorem isBlockReachable_iff {d : Disassembly StackState}
    (hlayout : d.toLayout = Layout.ofCode code) {id : Nat} {b : Block} {context : StackState}
    (hb : (Layout.ofCode code).blocks[id]? = some b) (hcontext : d.contexts[id]? = some context) :
    d.isBlockReachable id = .ok true ↔ id = 0 ∨ context ≠ bottom := by
  obtain ⟨hid, -⟩ := Array.getElem?_eq_some_iff.mp hb
  obtain ⟨hlt, -⟩ := Array.getElem?_eq_some_iff.mp hcontext
  rw [isBlockReachable, hlayout, if_pos ⟨Int.natCast_nonneg id, Int.ofNat_lt.mpr hid⟩]
  simp only [Int.toNat_natCast]
  rw [if_pos (Or.inr hlt), Except.ok.injEq, isReachableIn_iff hcontext, isReachable_iff]

/-- Once states are closed, the first block counts as reachable like all others. -/
theorem isBlockReachable_iff_ne_bottom {d : Disassembly StackState}
    (hlayout : d.toLayout = Layout.ofCode code) (hpost : Layout.PostFixed code d.contexts)
    {id : Nat} {b : Block} {context : StackState} (hb : (Layout.ofCode code).blocks[id]? = some b)
    (hcontext : d.contexts[id]? = some context) :
    d.isBlockReachable id = .ok true ↔ context ≠ bottom := by
  rw [isBlockReachable_iff hlayout hb hcontext]
  refine ⟨?_, Or.inr⟩
  rintro (rfl | hne)
  · obtain ⟨slots, rfl⟩ := exists_of_stack_le (hpost.entry hcontext)
    exact StackState.noConfusion
  · exact hne

/-- A refined disassembly comes to rest in closed states. -/
theorem build_refineAt {σ : Type} [Domain σ] (code : Bytes) {options : AnalysisOptions}
    (hlimit : options.maxPasses = none) {convert : Nat → σ → StackState}
    (hconvert : ∀ id c, (convert id c).Knows (0 ≤ ·)) :
    ∃ d, (ofCode code options : Disassembly σ).refineAt convert = .ok d ∧ d.Ready code ∧
      (∀ (id : Nat) (s : StackState), d.contexts[id]? = some s →
        ∃ c, s = if id = 0 then convert id c ⊔ Domain.origin else convert id c) ∧
      d.Settled code d.build ∧ Layout.PostFixed code d.build.disassembly.contexts := by
  obtain ⟨d, hrefine, hready, hoptions, hstates⟩ := ready_refineAt code options hconvert
  have hsettled := build_spec hready (hoptions ▸ hlimit)
  refine ⟨d, hrefine, hready, hstates, hsettled, ?_⟩
  refine Layout.postFixed_of_settled hready (fun s hs => ?_) hsettled
  -- the state of the first block has been joined with the empty stack
  obtain ⟨c, rfl⟩ := hstates 0 s hs
  exact le_sup_right

/-- Soundness of the analysis: the states that it ends in describe every run
that has only taken jumps whose targets they know. The block of the program
counter is reachable, and the state there tracks no more slots than the stack
has and knows only values that are on it. -/
theorem build_sound {σ : Type} [Domain σ] {options : AnalysisOptions}
    (hlimit : options.maxPasses = none) {convert : Nat → σ → StackState}
    (hconvert : ∀ id c, (convert id c).Knows (0 ≤ ·)) :
    ∃ d, (ofCode code options : Disassembly σ).refineAt convert = .ok d ∧
      (∃ passes, d.build.passes = .ok passes) ∧
      ∀ (calldata : Bytes) (storage : Storage) (n : Nat) (s : Machine.State),
        Machine.Steps (.load code calldata) n (Machine.initial storage) s →
        (∀ k < n, ∀ t dest rest,
          Machine.Steps (.load code calldata) k (Machine.initial storage) t →
          Machine.Takes (decodeAt code t.pc) t.stack dest rest →
          ∃ state v, d.build.disassembly.stateAt t.pc = .ok state ∧
            Domain.peek? state 0 = some (.known v)) →
        s.pc < code.size →
        ∃ id slots, d.build.disassembly.blockIndex s.pc = .ok id ∧
          d.build.disassembly.isBlockReachable id = .ok true ∧
          d.build.disassembly.stateAt s.pc = .ok (stack slots) ∧
          slots.length ≤ s.stack.length ∧
          ∀ (depth : Nat) (v : Int), slots[depth]? = some (.known v) →
            ∃ w, s.stack[depth]? = some w ∧ (w : Int) = v := by
  obtain ⟨d, hrefine, -, -, hsettled, hpost⟩ := build_refineAt code hlimit hconvert
  have hlayout := hsettled.layout
  refine ⟨d, hrefine, hsettled.passes, ?_⟩
  intro calldata storage n s hsteps hknown hpc
  -- what the caller knows about the targets is what the states know
  obtain ⟨-, hcovers⟩ := Layout.Covers.run hpost hsteps (by
    intro k t id b context dest rest hk hsteps' hcovers htakes
    obtain ⟨state, v, hstate, hpeek⟩ := hknown k hk t dest rest hsteps' htakes
    rw [stateAt_eq hlayout hsettled.live hcovers.block_eq hcovers.context_eq
      hcovers.start_le hcovers.lt_stop] at hstate
    obtain rfl := Except.ok.inj hstate
    exact ⟨v, by rw [Domain.top, hpeek]; rfl⟩)
  obtain ⟨id, b, context, hcovers⟩ := hcovers hpc
  obtain ⟨slots, hslots⟩ := exists_of_stack_le hcovers.describes
  have hdescribes := hcovers.describes
  rw [hslots] at hdescribes
  refine ⟨id, slots, ?_, ?_, ?_, ?_, ?_⟩
  · rw [hlayout]
    exact Layout.blockIndex_eq hcovers.block_eq hcovers.start_le hcovers.lt_stop
  · exact (isBlockReachable_iff_ne_bottom hlayout hpost hcovers.block_eq hcovers.context_eq).mpr
      hcovers.context_ne_bottom
  · rw [stateAt_eq hlayout hsettled.live hcovers.block_eq hcovers.context_eq
      hcovers.start_le hcovers.lt_stop, hslots]
  · exact (ofStack_le_iff.mp hdescribes).1
  · intro depth v hv
    exact known_of_ofStack_le hdescribes hv

/-- The run of the code with a jump, up to the stop. -/
theorem steps_hop :
    Machine.Steps (.load Layout.hop .empty) 1 (Machine.initial ∅)
        { pc := 2, stack := [3], steps := 1 } ∧
      Machine.Steps (.load Layout.hop .empty) 2 (Machine.initial ∅) { pc := 3, steps := 2 } := by
  obtain ⟨hpush, hjump, hdest, -⟩ := Layout.decodeAt_hop
  have hstart : Machine.step (.load Layout.hop .empty) (Machine.initial ∅)
      = .next { pc := 2, stack := [3], steps := 1 } := by
    rw [Machine.step_of_lt (by decide)]
    show Machine.execute _ (decodeAt Layout.hop 0) _ = _
    rw [hpush]
    rfl
  have hvalid : (Machine.Program.load Layout.hop .empty).isJumpdest 3 = true := by
    refine Machine.Program.isJumpdest_iff.mpr ⟨?_, by decide, ?_⟩
    · have hblock : (Layout.ofCode Layout.hop).blocks[1]? = some ⟨3, 5, by decide⟩ := by
        rw [Layout.blocks_hop]
        rfl
      exact (Layout.isBasic hblock).walk
    · rw [IsJumpdestAt, hdest]
      rfl
  have htaken : Machine.step (.load Layout.hop .empty) { pc := 2, stack := [3], steps := 1 }
      = .next { pc := 3, steps := 2 } := by
    rw [Machine.step_of_lt (by decide)]
    show Machine.execute _ (decodeAt Layout.hop 2) _ = _
    rw [hjump]
    exact if_pos hvalid
  exact ⟨.single (by decide) hstart, .head (by decide) hstart (.single (by decide) htaken)⟩

theorem build_sound_hop :
    ∃ d, (ofCode Layout.hop {} : Disassembly Unit).refineAt (fun _ => Lift.lift) = .ok d ∧
      ∃ id slots, d.build.disassembly.blockIndex 3 = .ok id ∧
        d.build.disassembly.isBlockReachable id = .ok true ∧
        d.build.disassembly.stateAt 3 = .ok (stack slots) ∧ slots.length ≤ 0 := by
  obtain ⟨d, hrefine, -, hsound⟩ :=
    @build_sound Layout.hop Unit _ {} rfl (fun _ => Lift.lift) (fun _ _ => trivial)
  obtain ⟨hone, htwo⟩ := steps_hop
  have hstate : d.build.disassembly.stateAt 2 = .ok (stack [.known 3]) := by
    have heval : ((ofCode Layout.hop {} : Disassembly Unit).refineAt
        fun _ => (Lift.lift : Unit → StackState)).bind (fun d => d.build.disassembly.stateAt 2)
          = Except.ok (stack [.known 3]) := by decide +kernel
    rw [hrefine] at heval
    exact heval
  obtain ⟨id, slots, hindex, hreach, hslots, hlen, -⟩ := hsound .empty ∅ 2 _ htwo (by
    intro k hk t dest rest hsteps htakes
    match k, hk with
    | 0, _ =>
        cases hsteps
        rw [show (Machine.initial ∅).pc = 0 from rfl, Layout.decodeAt_hop.1] at htakes
        cases htakes
    | 1, _ =>
        obtain rfl := hsteps.unique hone
        exact ⟨_, 3, hstate, rfl⟩) (by decide)
  exact ⟨d, hrefine, id, slots, hindex, hreach, hslots, hlen⟩

end Disassembly

end EvmToolchain
