import EvmToolchain.Proofs.Analysis.Least
import EvmToolchain.Proofs.Analysis.Soundness
import Mathlib.Algebra.Group.Int.Defs

/-!
# EvmToolchain.Proofs.Analysis.Passes

The analysis of any bytes is total, and how many passes it makes.

A run under a budget is the beginning of the run without one
(`Progress.run_add`): a run that has ended does not depend on the budget that
it was given (`Progress.run_of_le`). Since a run ends within
`Disassembly.passBound` passes, an analysis without a limit makes some number
of passes under whatever larger budget (`Disassembly.Completes`). States are
never higher than the stack can be if they were not so from the start, which
is what the bound on the passes over fresh code comes from.
-/

namespace EvmToolchain

open Instruction StackState

/-! ### Runs and their budgets -/

namespace Progress

section Budget

variable {σ : Type} [Domain σ] {l : Layout} {trace : Bool} {p after : Progress σ}

/-- One pass of a run, and what is left to do after it. -/
theorem run_succ (l : Layout) (trace : Bool) (p : Progress σ) (done budget : Nat) :
    p.run l trace done (budget + 1) =
      match { p with changed := false }.pass l trace l.blocks.toList.zipIdx with
      | (after, .error e) => (after, .error e)
      | (after, .ok ()) =>
        let reported :=
          { after with events := after.events.push (.passed (done + 1) after.changed) }
        if after.changed then reported.run l trace (done + 1) budget
        else (reported, .ok (some (done + 1))) := rfl

/-- A budget can be spent in two parts: a run that has used up the first one
goes on under the second. -/
theorem run_add (l : Layout) (trace : Bool) (p : Progress σ) (done m k : Nat) :
    p.run l trace done (m + k) =
      match p.run l trace done m with
      | (q, .ok none) => q.run l trace (done + m) k
      | result => result := by
  induction m generalizing p done with
  | zero => rw [Nat.zero_add]; rfl
  | succ m ih =>
      rw [Nat.add_right_comm, run_succ, run_succ]
      split
      · rfl
      · dsimp only
        split
        · rw [ih, Nat.add_right_comm, Nat.add_assoc done m 1]
        · rfl

/-- A run that ends has made at least one pass and no more than its budget. -/
theorem passes_le_of_run {done budget n : Nat}
    (h : p.run l trace done budget = (after, .ok (some n))) : done < n ∧ n ≤ done + budget := by
  induction budget generalizing p done with
  | zero => cases h
  | succ budget ih =>
      rw [run_succ] at h
      split at h
      · cases h
      · dsimp only at h
        split at h
        · have := ih h
          omega
        · obtain ⟨-, h⟩ := Prod.mk.inj h
          obtain rfl := Option.some.inj (Except.ok.inj h)
          omega

/-- A run that ends does so under every budget that allows its passes. -/
theorem run_of_le {done budget n more : Nat}
    (h : p.run l trace done budget = (after, .ok (some n))) (hle : n ≤ done + more) :
    p.run l trace done more = (after, .ok (some n)) := by
  rcases Nat.le_total budget more with hmore | hless
  · obtain ⟨k, rfl⟩ := Nat.exists_eq_add_of_le hmore
    rw [run_add, h]
  · -- under the smaller budget the run cannot have been cut short
    obtain ⟨k, rfl⟩ := Nat.exists_eq_add_of_le hless
    rw [run_add] at h
    split at h
    · have := (passes_le_of_run h).1
      omega
    · exact h

end Budget

/-- A run does not fail under any budget, and only evolves the states. -/
theorem run_evolves {σ : Type} [Domain σ] [SemilatticeSup σ] [LawfulDomain σ] {l : Layout}
    {Inv : Nat → σ → Prop} (hkeeps : l.Keeps Inv) {rank : σ → Nat} (hrank : Drops Inv rank)
    (trace : Bool) {p : Progress σ} (hp : AllStates Inv p.contexts)
    (hsize : p.contexts.size = l.blocks.size) (done budget : Nat) :
    ∃ after result, p.run l trace done budget = (after, .ok result) ∧
      l.Evolves p.contexts after.contexts := by
  induction budget generalizing p done with
  | zero => exact ⟨p, none, rfl, .refl⟩
  | succ budget ih =>
      obtain ⟨middle, hpass, hadvances, -⟩ :=
        pass_spec (p := { p with changed := false }) hkeeps hrank hp hsize trace
          (fun b id h => Layout.mem_zipIdx_blocks.mp h)
      have hevolves : l.Evolves p.contexts middle.contexts := hadvances.evolves
      rw [run_succ, hpass]
      dsimp only
      split
      · obtain ⟨after, result, hrun, hrest⟩ :=
          ih (p := { middle with events := middle.events.push (.passed (done + 1) middle.changed) })
            (hevolves.allStates hkeeps hp) (hevolves.size_eq.trans hsize) (done + 1)
        exact ⟨after, result, hrun, hevolves.trans hrest⟩
      · exact ⟨_, _, rfl, hevolves⟩

end Progress

/-! ### States that the machine could be in -/

namespace StackState

/-- The state is unreached, or a stack that the machine could have. -/
def FitsMachine (s : StackState) : Prop :=
  s = bottom ∨ ∃ slots, s = stack slots ∧ slots.length ≤ 1024 ∧
    ∀ v, Slot.known v ∈ slots → 0 ≤ v ∧ v < 2 ^ 256

theorem fitsMachine_of_within {s : StackState} (h : Within IsWord maxStack s) : s.FitsMachine := by
  obtain ⟨hknows, hheight⟩ := h
  cases s with
  | bottom => exact Or.inl rfl
  | stack slots => exact Or.inr ⟨slots, rfl, hheight, hknows⟩

end StackState

/-! ### The number of passes of an analysis -/

namespace Disassembly

/-- The analysis after at most so many passes: its states, and the number of
passes if the last of them changed nothing. -/
def passes {σ : Type} [Domain σ] (d : Disassembly σ) (budget : Nat) :
    Progress σ × Except AnalysisError (Option Nat) :=
  ({ contexts := d.contexts } : Progress σ).run d.toLayout d.options.trace 0 budget

/-- The analysis ends without an error after so many passes, and has not been
cut short: with more passes allowed it would have come to the same. -/
structure Completes {σ : Type} [Domain σ] (d : Disassembly σ) (n : Nat) : Prop where
  passes_eq : d.build.passes = .ok n
  passes_of_le : ∃ after, d.build.disassembly = { d with contexts := after.contexts } ∧
    ∀ budget, n ≤ budget → d.passes budget = (after, .ok (some n))

variable {code : Bytes} {d : Disassembly StackState}

/-- An analysis without a limit ends within the bound on passes. -/
theorem completes_of_ready (hd : d.Ready code) (hlimit : d.options.maxPasses = none) :
    ∃ n, d.Completes n ∧ n ≤ passBound d.contexts := by
  have hbudget : budget d.options d.contexts = passBound d.contexts := by rw [budget, hlimit]
  have hkeeps := Layout.keeps_knows code (P := (0 ≤ ·)) (fun v hv => hv.1)
    (fun _ => id) (maxStack_le_heightBound d.contexts)
  have hstart : AllStates (fun _ s => Within (0 ≤ ·) (heightBound d.contexts) s) d.contexts :=
    fun id s hs => ⟨hd.nonneg id s hs, height_le_heightBound hs⟩
  obtain ⟨after, n, hrun, -, -⟩ := Progress.run_spec hkeeps (rank_drops _)
    d.options.trace (p := { contexts := d.contexts }) 0 hstart hd.size_eq
    (totalRank_lt_passBound d.contexts)
  rw [← hd.layout] at hrun
  refine ⟨n, ⟨?_, after, ?_, fun budget hle => Progress.run_of_le hrun (by omega)⟩, ?_⟩
  · simp only [build, hd.live, hbudget, hrun, Bool.false_eq_true, if_false]
  · simp only [build, hd.live, hbudget, hrun, Bool.false_eq_true, if_false]
  · have := (Progress.passes_le_of_run hrun).2
    omega

/-- The bound on passes if no state is higher than the stack can be. -/
theorem passBound_eq {contexts : Array StackState}
    (h : ∀ s ∈ contexts, s.height ≤ maxStack) : passBound contexts = 1 + 2049 * contexts.size := by
  have hfold : ∀ states : List StackState, (∀ s ∈ states, s.height ≤ maxStack) →
      states.foldl (fun n s => max n (Domain.height s)) maxStack = maxStack := by
    intro states hstates
    induction states with
    | nil => rfl
    | cons s rest ih =>
        have hs : Domain.height s ≤ maxStack := hstates s List.mem_cons_self
        rw [List.foldl_cons, Nat.max_eq_left hs]
        exact ih fun t ht => hstates t (List.mem_cons_of_mem _ ht)
  have hbound : heightBound contexts = maxStack := by
    rw [heightBound, ← Array.foldl_toList]
    exact hfold _ fun s hs => h s (Array.mem_toList_iff.mp hs)
  rw [passBound, hbound, Nat.mul_comm]
  rfl

/-- A run under whatever budget only evolves the states. -/
theorem evolves_passes (hd : d.Ready code) (budget : Nat) :
    (Layout.ofCode code).Evolves d.contexts (d.passes budget).1.contexts := by
  have hkeeps := Layout.keeps_knows code (P := (0 ≤ ·)) (fun v hv => hv.1)
    (fun _ => id) (maxStack_le_heightBound d.contexts)
  have hstart : AllStates (fun _ s => Within (0 ≤ ·) (heightBound d.contexts) s) d.contexts :=
    fun id s hs => ⟨hd.nonneg id s hs, height_le_heightBound hs⟩
  obtain ⟨after, result, hrun, hevolves⟩ := Progress.run_evolves hkeeps (rank_drops _)
    d.options.trace (p := { contexts := d.contexts }) hstart hd.size_eq 0 budget
  rw [passes, hd.layout, hrun]
  exact hevolves

/-! ### Fresh code -/

/-- Entering states of which none is reached reaches the first one. -/
theorem enter_replicate_bottom (n : Nat) :
    enter (Array.replicate n (bottom : StackState))
      = .ok ((Array.replicate n bottom).setIfInBounds 0 Domain.origin) := by
  cases n with
  | zero => rfl
  | succ n =>
      rw [enter, Array.getElem?_replicate, if_pos (Nat.succ_pos n)]
      rfl

/-- The default refinement of fresh code is fresh code in the other domain. -/
theorem refine_lift_ofCode (code : Bytes) (options : AnalysisOptions) :
    (ofCode code options : Disassembly Unit).refine (Lift.lift : Unit → StackState)
      = .ok (ofCode code options) := by
  have hmap : (ofCode code options : Disassembly Unit).contexts.map (Lift.lift : Unit → StackState)
      = Array.replicate (Layout.ofCode code).blocks.size bottom := by
    refine Array.ext (by simp [ofCode]) fun id _ hid => ?_
    rw [Array.getElem_map]
    exact (Array.getElem_replicate hid).symm
  show (do let contexts ← enter _; return _) = _
  rw [hmap, enter_replicate_bottom]
  rfl

/-- Visits to the blocks of fresh code, in any order, keep every state one that
the machine could have. -/
theorem fitsMachine_of_evolves {options : AnalysisOptions} {contexts : Array StackState}
    (h : (Layout.ofCode code).Evolves (ofCode code options).contexts contexts) :
    ∀ s ∈ contexts, s.FitsMachine := by
  have hkeeps := Layout.keeps_knows code (P := IsWord) (fun _ => id) (fun v hv => hv.1)
    (Nat.le_refl maxStack)
  have hstart : AllStates (fun _ s => Within IsWord maxStack s)
      (ofCode code options : Disassembly StackState).contexts := by
    intro id s hs
    rw [(getElem?_contexts_ofCode hs).2]
    split
    · exact ⟨fun v hv => absurd hv List.not_mem_nil, Nat.zero_le _⟩
    · exact ⟨trivial, Nat.zero_le _⟩
  intro s hs
  obtain ⟨id, hid⟩ := Array.mem_iff_getElem?.mp hs
  exact fitsMachine_of_within (h.allStates hkeeps hstart id s hid)

/-- The analysis of any bytes is total. Every instruction that it replays can be
decoded. Without a limit on passes it ends without an error, from whatever
states that know no negative value. From the states of fresh code, which the
default refinement leads to as well, it makes at most `1 + 2049 * blocks`
passes, and every state stays unreached or a stack of at most 1024 slots that
knows only words: after any number of passes, and after visits to blocks in any
order. -/
theorem build_total (code : Bytes) {options : AnalysisOptions}
    (hlimit : options.maxPasses = none) :
    (∀ (id : Nat) (b : Block), (Layout.ofCode code).blocks[id]? = some b →
      ∀ i ∈ sweep code b.start b.stop, decode code i.offset = .ok i.instruction) ∧
    (∀ contexts : Array StackState, contexts.size = (Layout.ofCode code).blocks.size →
      (∀ s ∈ contexts, s.Knows (0 ≤ ·)) →
        ∃ n, Completes { Layout.ofCode code with contexts, options } n) ∧
    (ofCode code options : Disassembly Unit).refine (Lift.lift : Unit → StackState)
      = .ok (ofCode code options) ∧
    ∃ n, Completes (ofCode code options : Disassembly StackState) n ∧
      n ≤ 1 + 2049 * (Layout.ofCode code).blocks.size ∧
      (∀ budget, ∀ s ∈ ((ofCode code options : Disassembly StackState).passes budget).1.contexts,
        s.FitsMachine) ∧
      ∀ contexts : Array StackState,
        (Layout.ofCode code).Evolves (ofCode code options).contexts contexts →
        ∀ s ∈ contexts, s.FitsMachine := by
  refine ⟨?_, ?_, refine_lift_ofCode code options, ?_⟩
  · intro id b hb i hi
    obtain ⟨-, hlt, hinsn⟩ := mem_sweep.mp hi
    have hstop := (Layout.isBasic hb).stop_le
    rw [decode, if_pos ⟨Int.natCast_nonneg _, by omega⟩, hinsn, Int.toNat_natCast]
  · intro contexts hsize hnonneg
    obtain ⟨n, hcompletes, -⟩ := @completes_of_ready code
      { Layout.ofCode code with contexts, options }
      ⟨rfl, rfl, hsize, fun id s hs => hnonneg s (Array.mem_of_getElem? hs)⟩ hlimit
    exact ⟨n, hcompletes⟩
  · have hready := ready_ofCode code options
    obtain ⟨n, hcompletes, hle⟩ := completes_of_ready hready hlimit
    have hlow : ∀ s ∈ (ofCode code options : Disassembly StackState).contexts,
        s.height ≤ maxStack := by
      intro s hs
      obtain ⟨id, hid⟩ := Array.mem_iff_getElem?.mp hs
      rw [(getElem?_contexts_ofCode hid).2]
      split <;> exact Nat.zero_le _
    rw [passBound_eq hlow, hready.size_eq] at hle
    exact ⟨n, hcompletes, hle, fun budget => fitsMachine_of_evolves (evolves_passes hready budget),
      fun contexts h => fitsMachine_of_evolves h⟩

/-- A loop that pushes a word more each time around. -/
def growingLoop : Bytes := ⟨#[0x5b, 0x60, 0x01, 0x60, 0x00, 0x56]⟩

theorem build_total_growingLoop :
    ({} : AnalysisOptions).maxPasses = none ∧
      (ofCode growingLoop {} : Disassembly Unit).refine (Lift.lift : Unit → StackState)
        = .ok (ofCode growingLoop {}) ∧
      ∃ n, Completes (ofCode growingLoop {} : Disassembly StackState) n ∧
        n ≤ 1 + 2049 * (Layout.ofCode growingLoop).blocks.size := by
  obtain ⟨-, -, hrefine, n, hcompletes, hle, -⟩ := @build_total growingLoop {} rfl
  exact ⟨rfl, hrefine, n, hcompletes, hle⟩

end Disassembly

end EvmToolchain
