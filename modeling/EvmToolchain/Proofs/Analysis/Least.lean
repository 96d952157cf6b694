import EvmToolchain.Proofs.Analysis.Termination

/-!
# EvmToolchain.Proofs.Analysis.Least

The analysis loses no precision where all jumps can be resolved.

Propagation is not monotone: when a state rises, a jump target may become
unknown, and its edge disappears. But against an assignment of states with
which every jump is resolved consistently (`Layout.Consistent`) a jump target
that is known is the one that the assignment knows, as long as the states are
below it. Visits keep the states below it, in any order.
-/

namespace EvmToolchain

open Instruction StackState

/-- An assignment of states to blocks that resolves all jumps consistently. The
code is entered in the state at the start of execution. Replaying a block from
its state, every jump has a known target, and if that lies in the code, the
state along the jump is below that of the target's block; the state at the end
of the block is below that of the next block. -/
structure Layout.Consistent (l : Layout) (X : Nat → StackState) : Prop where
  origin : X 0 = Domain.origin
  jump : ∀ {id b}, l.blocks[id]? = some b → id = 0 ∨ X id ≠ bottom →
    ∀ {before i rest s}, sweep l.code b.start b.stop = before ++ i :: rest →
      i.instruction.canBranch = true → Disassembly.transferAll (X id) before = .ok s →
      ∃ v, Domain.top s = .known v ∧
        (v < l.code.size → ∀ {target t}, l.blockIndex v = .ok target →
          Domain.branch i.instruction s = .ok t → t ≤ X target)
  next : ∀ {id b}, l.blocks[id]? = some b → id = 0 ∨ X id ≠ bottom → id + 1 < l.blocks.size →
    ∀ {s}, Disassembly.transferAll (X id) (sweep l.code b.start b.stop) = .ok s → s ≤ X (id + 1)

namespace Layout

variable {code : Bytes}

theorem stateBefore_mono (code : Bytes) (b : Block) (pc : Nat) {s t : StackState} (h : s ≤ t) :
    stateBefore code b s pc ≤ stateBefore code b t pc :=
  afterAll_mono (fun _ hi => readable_of_mem_sweep hi) h

/-- A value that is known at the top both below and above is the same. -/
theorem top_eq_of_le {s t : StackState} (h : s ≤ t) {v w : Int} (hs : Domain.top s = .known v)
    (ht : Domain.top t = .known w) : v = w := by
  cases s with
  | bottom => cases hs
  | stack a =>
      obtain ⟨b, rfl⟩ := exists_of_stack_le h
      have htop : ∀ {slots : List Slot} {u : Int}, Domain.top (stack slots) = .known u →
          slots[0]? = some (.known u) := by
        intro slots u hu
        cases slots with
        | nil => cases hu
        | cons slot rest => exact congrArg some hu
      have hw : a[0]? = some (.known w) := getElem?_of_le h (htop ht)
      exact Slot.known.inj (Option.some.inj ((htop hs).symm.trans hw))

/-- Visits keep states below a consistent assignment. -/
theorem Consistent.keeps {X : Nat → StackState} (hX : (Layout.ofCode code).Consistent X) :
    (Layout.ofCode code).Keeps fun id (s : StackState) => s.Knows (0 ≤ ·) ∧ s ≤ X id := by
  refine keeps_of_flows (fun v hv => hv.1) (fun _ => id) (fun hs ht => sup_le hs ht) ?_
  intro id b s hb hle hreach
  have hlive : id = 0 ∨ X id ≠ bottom :=
    hreach.imp_right fun h => ne_bottom_of_le hle (isReachable_iff.mp h)
  constructor
  · rintro pc f hpc hlt ⟨hbranch, v, htop, hv, hblock, hstate⟩
    have hinsn := readable_decodeAt code pc
    have hmono := stateBefore_mono code b pc hle
    obtain ⟨w, hw, hbelow⟩ := hX.jump hb hlive (sweep_eq_cons hpc hlt) hbranch
      (transferAll_eq (fun _ hi => readable_of_mem_sweep hi) _)
    -- the assignment knows the target, so it is the one that is known below it
    obtain rfl : v = w := top_eq_of_le hmono htop hw
    rw [hstate]
    exact (branched_mono hinsn hmono).trans (hbelow hv hblock (branch_eq hinsn _))
  · intro hid
    exact (stateBefore_mono code b _ hle).trans
      (hX.next hb hlive hid (transferAll_eq (fun _ hi => readable_of_mem_sweep hi) _))

end Layout

namespace Disassembly

variable {code : Bytes} {options : AnalysisOptions}

/-- The states of a fresh disassembly. -/
theorem getElem?_contexts_ofCode {id : Nat} {s : StackState}
    (h : (ofCode code options : Disassembly StackState).contexts[id]? = some s) :
    id < (Layout.ofCode code).blocks.size ∧ s = if id = 0 then Domain.origin else bottom := by
  simp only [ofCode, Array.getElem?_setIfInBounds, Array.getElem?_replicate, Array.size_replicate]
    at h
  split at h
  · next hid =>
    subst hid
    split at h
    · next hlt => exact ⟨hlt, (Option.some.inj h).symm⟩
    · cases h
  · next hid =>
    split at h
    · next hlt =>
      rw [if_neg (Ne.symm hid)]
      exact ⟨hlt, (Option.some.inj h).symm⟩
    · cases h

theorem ready_ofCode (code : Bytes) (options : AnalysisOptions) :
    (ofCode code options).Ready code where
  layout := rfl
  live := rfl
  size_eq := by simp [ofCode]
  nonneg := by
    intro id s hs
    rw [(getElem?_contexts_ofCode hs).2]
    split
    · exact fun v hv => absurd hv List.not_mem_nil
    · trivial

/-- Visits to the blocks of fresh code, in any order, keep states below every
consistent assignment. -/
theorem evolves_below {X : Nat → StackState} (hX : (Layout.ofCode code).Consistent X)
    {contexts : Array StackState}
    (h : (Layout.ofCode code).Evolves (ofCode code options).contexts contexts) :
    AllStates (fun id s => s ≤ X id) contexts := by
  have hstart : AllStates (fun id (s : StackState) => s.Knows (0 ≤ ·) ∧ s ≤ X id)
      (ofCode code options).contexts := by
    intro id s hs
    refine ⟨(ready_ofCode code options).nonneg id s hs, ?_⟩
    rw [(getElem?_contexts_ofCode hs).2]
    split
    · next hid => rw [hid, hX.origin]
    · exact bottom_le _
  exact fun id s hs => (h.allStates hX.keeps hstart id s hs).2

/-- The states that an analysis of fresh code ends in are below every
assignment that resolves all jumps consistently, and so are those that visits
in any other order lead to. -/
theorem build_least (hlimit : options.maxPasses = none) {X : Nat → StackState}
    (hX : (Layout.ofCode code).Consistent X) :
    (∃ n, (ofCode code options : Disassembly StackState).build.passes = .ok n) ∧
      (ofCode code options : Disassembly StackState).build.disassembly.contexts.size
        = (Layout.ofCode code).blocks.size ∧
      (∀ id s, (ofCode code options).build.disassembly.contexts[id]? = some s → s ≤ X id) ∧
      ∀ contexts, (Layout.ofCode code).Evolves (ofCode code options).contexts contexts →
        ∀ id s, contexts[id]? = some s → s ≤ X id := by
  have hready := ready_ofCode code options
  have hsettled := build_spec hready hlimit
  refine ⟨hsettled.passes, hsettled.evolves.size_eq.trans hready.size_eq, ?_, ?_⟩
  · exact evolves_below hX hsettled.evolves
  · exact fun contexts h => evolves_below hX h

/-- In the code with a jump both blocks are entered with an empty stack. -/
theorem consistent_hop : (Layout.ofCode Layout.hop).Consistent fun _ => stack [] where
  origin := rfl
  jump := by
    intro id b hb _ before i rest s hsweep hbranch hs
    obtain ⟨hfirst, hsecond⟩ := Layout.sweep_hop
    rw [Layout.blocks_hop] at hb
    match id, hb with
    | 0, hb =>
        obtain rfl := Option.some.inj hb
        replace hsweep := hfirst.symm.trans hsweep
        match before, hsweep with
        | [], h =>
            obtain ⟨rfl, -⟩ := List.cons.inj h
            cases hbranch
        | [_], h =>
            obtain ⟨heq, h⟩ := List.cons.inj h
            obtain ⟨rfl, -⟩ := List.cons.inj h
            rw [← heq] at hs
            obtain rfl : stack [.known 3] = s := Except.ok.inj hs
            refine ⟨3, rfl, fun _ target t _ ht => ?_⟩
            obtain rfl : stack [] = t := Except.ok.inj ht
            exact le_refl _
        | _ :: _ :: _, h => simp at h
    | 1, hb =>
        obtain rfl := Option.some.inj hb
        replace hsweep := hsecond.symm.trans hsweep
        match before, hsweep with
        | [], h =>
            obtain ⟨rfl, -⟩ := List.cons.inj h
            cases hbranch
        | [_], h =>
            obtain ⟨-, h⟩ := List.cons.inj h
            obtain ⟨rfl, -⟩ := List.cons.inj h
            cases hbranch
        | _ :: _ :: _, h => simp at h
    | _ + 2, hb => cases hb
  next := by
    intro id b hb _ hid s hs
    rw [Layout.blocks_hop] at hb hid
    obtain rfl : id = 0 := Nat.lt_one_iff.mp (Nat.lt_of_succ_lt_succ hid)
    obtain rfl := Option.some.inj hb
    have hfirst : transferAll (stack []) (sweep Layout.hop 0 3) = .ok bottom := by
      rw [Layout.sweep_hop.1]
      rfl
    obtain rfl : bottom = s := Except.ok.inj (hfirst.symm.trans hs)
    exact bottom_le _

theorem build_least_hop :
    (Layout.ofCode Layout.hop).Consistent (fun _ => stack []) ∧
      ∀ (id : Nat) (s : StackState),
        (ofCode Layout.hop {} : Disassembly StackState).build.disassembly.contexts[id]? = some s →
          s ≤ stack [] :=
  ⟨consistent_hop, (build_least rfl consistent_hop).2.2.1⟩

end Disassembly

end EvmToolchain
