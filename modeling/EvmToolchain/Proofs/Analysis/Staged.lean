import EvmToolchain.Proofs.Analysis.Rest

/-!
# EvmToolchain.Proofs.Analysis.Staged

Analyses in stages: a disassembly is built and refined any number of times, in
either domain, before it is analysed in the domain of stacks.

There are only three disassemblies that such a pipeline can come to
(`Staged.Reached`): the fresh one in either domain, and the analysed one. Each
stage leads from one of them to one of them (`Staged.Reached.apply`), so every
pipeline does (`Staged.Reached.applyAll`), and an analysis of the last two ends
in the same states. Two things make this so: the trivial domain learns nothing
from an analysis (`Disassembly.build_unit`), and the state of the first block is
the greatest of all that hold a stack, so neither jumps to it nor another merge
with the state at the origin can change it (`Disassembly.refine_stack`).
-/

namespace EvmToolchain

open StackState

/-! ### The trivial domain -/

namespace Layout

variable {l : Layout}

theorem replay_unit (insns : List Located) :
    l.replay () insns = { effects := [], final := .ok () } := by
  induction insns with
  | nil => rfl
  | cons i rest ih =>
      have hjump : l.jumpEffects () i = .ok [] := ite_self _
      rw [replay, hjump]
      show ({ l.replay () rest with effects := [] ++ (l.replay () rest).effects } : Replay Unit) = _
      rw [ih]
      rfl

/-- Nothing comes of visits in the trivial domain. -/
theorem idle_unit {contexts : Array Unit} (hsize : contexts.size = l.blocks.size) {id : Nat}
    {b : Block} (hb : l.blocks[id]? = some b) : l.Idle contexts id b := by
  obtain ⟨hlt, -⟩ := Array.getElem?_eq_some_iff.mp hb
  refine ⟨_, Array.getElem?_eq_getElem (hsize ▸ hlt), fun _ => ⟨⟨(), ?_⟩, fun f _ _ _ => rfl⟩⟩
  rw [blockReplay, replay_unit]
  dsimp only
  split <;> rfl

end Layout

namespace Disassembly

variable {code : Bytes} {options : AnalysisOptions}

/-- In the trivial domain an analysis learns nothing, in one pass. -/
theorem build_unit {d : Disassembly Unit} (hlive : d.isRetired = false)
    (hsize : d.contexts.size = d.blocks.size) (hlimit : d.options.maxPasses = none) :
    d.build.passes = .ok 1 ∧ d.build.disassembly = d := by
  have hbudget : 0 < budget d.options d.contexts := by
    rw [budget, hlimit]
    exact Nat.add_pos_left Nat.one_pos _
  obtain ⟨after, hrun, hsame⟩ := Progress.run_of_idle (p := { contexts := d.contexts })
    d.options.trace 0 hbudget fun _ _ => Layout.idle_unit hsize
  obtain ⟨layout, contexts, options, isRetired⟩ := d
  obtain rfl : isRetired = false := hlive
  refine ⟨by simp only [build, hrun, Bool.false_eq_true, if_false], ?_⟩
  simp only [build, hrun, Bool.false_eq_true, if_false, hsame]

/-- All disassemblies of the code in the trivial domain are the fresh one. -/
theorem eq_ofCode_unit {d : Disassembly Unit} (hlayout : d.toLayout = Layout.ofCode code)
    (hlive : d.isRetired = false) (hsize : d.contexts.size = (Layout.ofCode code).blocks.size)
    (hoptions : d.options = options) : d = ofCode code options := by
  obtain ⟨layout, contexts, options', isRetired⟩ := d
  obtain rfl : layout = Layout.ofCode code := hlayout
  obtain rfl : isRetired = false := hlive
  obtain rfl : options' = options := hoptions
  have hcontexts : contexts = (ofCode code options' : Disassembly Unit).contexts :=
    Array.ext (hsize.trans (by simp [ofCode])) fun _ _ _ => rfl
  rw [hcontexts]
  rfl

/-- The refinement into the trivial domain forgets all that is known. -/
theorem refine_unit {σ : Type} [Domain σ] {d : Disassembly σ}
    (hlayout : d.toLayout = Layout.ofCode code) (hlive : d.isRetired = false)
    (hsize : d.contexts.size = (Layout.ofCode code).blocks.size)
    (hoptions : d.options = options) :
    d.refine (Lift.lift : σ → Unit) = .ok (ofCode code options) := by
  have henter : ∃ contexts, enter (d.contexts.map (Lift.lift : σ → Unit)) = .ok contexts ∧
      contexts.size = d.contexts.size := by
    unfold enter
    split
    · exact ⟨_, rfl, Array.size_map⟩
    · exact ⟨_, rfl, by rw [Array.size_setIfInBounds, Array.size_map]⟩
  obtain ⟨contexts, henter, hsame⟩ := henter
  rw [refine, checkLive, hlive, henter]
  exact congrArg Except.ok (eq_ofCode_unit hlayout rfl (hsame.trans hsize) hoptions)

/-! ### The domain of stacks -/

/-- The state at the origin tracks nothing, so no stack is described by less. -/
theorem eq_origin_of_le {s : StackState} (h : stack [] ≤ s) : s = stack [] := by
  obtain ⟨slots, rfl⟩ := exists_of_stack_le h
  rw [List.length_eq_zero_iff.mp (Nat.le_zero.mp (stack_le_iff.mp h).1)]

/-- Where the first block is entered with the empty stack, entering it once more
leaves the disassembly as it is. -/
theorem refine_stack {d : Disassembly StackState} (hlive : d.isRetired = false)
    (hentry : ∀ s, d.contexts[0]? = some s → s = stack []) :
    d.refine (Lift.lift : StackState → StackState) = .ok d := by
  have hmap : d.contexts.map (Lift.lift : StackState → StackState) = d.contexts := Array.map_id' _
  have henter : enter d.contexts = .ok d.contexts := by
    cases h0 : d.contexts[0]? with
    | none => rw [enter, h0]
    | some s =>
        obtain rfl := hentry s h0
        have hsame : d.contexts.setIfInBounds 0 (stack []) = d.contexts := by
          refine Array.ext_getElem? fun id => ?_
          rw [Array.getElem?_setIfInBounds]
          split
          · next hid => rw [← hid, h0, if_pos (Array.getElem?_eq_some_iff.mp h0).1]
          · rfl
        rw [enter, h0]
        exact congrArg Except.ok hsame
  obtain ⟨layout, contexts, options, isRetired⟩ := d
  obtain rfl : isRetired = false := hlive
  show (do let contexts ← enter _; return _) = _
  rw [hmap, henter]
  rfl

/-- The first block is entered with the empty stack, also after an analysis. -/
theorem getElem?_zero_build (hlimit : options.maxPasses = none) {s : StackState}
    (h : (ofCode code options : Disassembly StackState).build.disassembly.contexts[0]? = some s) :
    s = stack [] := by
  have hevolves := (build_spec (ready_ofCode code options) hlimit).evolves
  obtain ⟨t, ht, hle⟩ := hevolves.exists_le h
  rw [(getElem?_contexts_ofCode ht).2] at hle
  exact eq_origin_of_le hle

/-- The options stay those that the analysis was started with. -/
theorem options_build {σ : Type} [Domain σ] {d : Disassembly σ} {n : Nat}
    (h : d.build.passes = .ok n) : d.build.disassembly.options = d.options := by
  obtain ⟨-, after, -, hbuild⟩ := build_ok h
  rw [hbuild]

end Disassembly

/-! ### Pipelines -/

/-- A stage of a pipeline: an analysis, or the default refinement into a domain. -/
inductive Stage
  | build
  | refine (k : DomainKind)
  deriving Repr, DecidableEq

/-- A disassembly in either of the domains. -/
inductive Staged
  | unit (d : Disassembly Unit)
  | stack (d : Disassembly StackState)

namespace Staged

/-- The disassembly of some code before any analysis. -/
def ofCode (k : DomainKind) (code : Bytes) (options : AnalysisOptions) : Staged :=
  match k with
  | .unit => unit (.ofCode code options)
  | .stack => stack (.ofCode code options)

/-- The analysis, which fails if it reaches no fixed point. -/
def build : Staged → Except AnalysisError Staged
  | unit d => d.build.passes.map fun _ => unit d.build.disassembly
  | stack d => d.build.passes.map fun _ => stack d.build.disassembly

/-- The default refinement into the trivial domain. -/
def toUnit : Staged → Except AnalysisError (Disassembly Unit)
  | unit d => d.refine (Lift.lift : Unit → Unit)
  | stack d => d.refine (Lift.lift : StackState → Unit)

/-- The default refinement into the domain of stacks. -/
def toStack : Staged → Except AnalysisError (Disassembly StackState)
  | unit d => d.refine (Lift.lift : Unit → StackState)
  | stack d => d.refine (Lift.lift : StackState → StackState)

/-- The disassembly after a stage. -/
def apply (s : Staged) : Stage → Except AnalysisError Staged
  | .build => s.build
  | .refine .unit => s.toUnit.map unit
  | .refine .stack => s.toStack.map stack

/-- The disassembly after some stages. -/
def applyAll (s : Staged) (stages : List Stage) : Except AnalysisError Staged :=
  stages.foldlM apply s

/-- What a pipeline over the code can come to: the fresh disassembly in either
domain, or the analysed one. -/
inductive Reached (code : Bytes) (options : AnalysisOptions) : Staged → Prop
  | unit : Reached code options (unit (.ofCode code options))
  | fresh : Reached code options (stack (.ofCode code options))
  | built : Reached code options
      (stack (Disassembly.ofCode code options : Disassembly StackState).build.disassembly)

namespace Reached

variable {code : Bytes} {options : AnalysisOptions} {s : Staged}

theorem ofCode (k : DomainKind) (code : Bytes) (options : AnalysisOptions) :
    Reached code options (.ofCode k code options) := by
  cases k with
  | unit => exact .unit
  | stack => exact .fresh

/-- The refinement into the trivial domain leads to the fresh disassembly. -/
theorem toUnit (hlimit : options.maxPasses = none) (h : Reached code options s) :
    s.toUnit = .ok (.ofCode code options) := by
  cases h with
  | unit => exact Disassembly.refine_unit rfl rfl (by simp [Disassembly.ofCode]) rfl
  | fresh =>
      exact Disassembly.refine_unit rfl rfl (Disassembly.ready_ofCode code options).size_eq rfl
  | built =>
      have hready := Disassembly.ready_ofCode code options
      have hsettled := Disassembly.build_spec hready hlimit
      obtain ⟨n, hpasses⟩ := hsettled.passes
      exact Disassembly.refine_unit hsettled.layout hsettled.live
        (hsettled.evolves.size_eq.trans hready.size_eq) (Disassembly.options_build hpasses)

/-- The refinement into the domain of stacks leads to the fresh disassembly, or
leaves the analysed one as it is. -/
theorem toStack (hlimit : options.maxPasses = none) (h : Reached code options s) :
    ∃ d, s.toStack = .ok d ∧ Reached code options (.stack d) := by
  cases h with
  | unit => exact ⟨_, Disassembly.refine_lift_ofCode code options, .fresh⟩
  | fresh =>
      refine ⟨_, Disassembly.refine_stack rfl fun s hs => ?_, .fresh⟩
      exact (Disassembly.getElem?_contexts_ofCode hs).2
  | built =>
      have hsettled := Disassembly.build_spec (Disassembly.ready_ofCode code options) hlimit
      exact ⟨_, Disassembly.refine_stack hsettled.live fun _ =>
        Disassembly.getElem?_zero_build hlimit, .built⟩

/-- Whatever has been reached in the domain of stacks, its analysis ends in the
states of the direct one. -/
theorem build_stack (hlimit : options.maxPasses = none) {d : Disassembly StackState}
    (h : Reached code options (.stack d)) : ∃ n, d.build.passes = .ok n ∧
      d.build.disassembly
        = (Disassembly.ofCode code options : Disassembly StackState).build.disassembly := by
  have hsettled := Disassembly.build_spec (Disassembly.ready_ofCode code options) hlimit
  obtain ⟨n, hpasses⟩ := hsettled.passes
  cases h with
  | fresh => exact ⟨n, hpasses, rfl⟩
  | built =>
      have hfixed := Disassembly.isFixedPoint_of_passes hpasses
      exact ⟨1, hfixed.passes_eq, hfixed.disassembly_eq⟩

theorem build (hlimit : options.maxPasses = none) (h : Reached code options s) :
    ∃ t, s.build = .ok t ∧ Reached code options t := by
  cases s with
  | unit d =>
      obtain rfl : d = .ofCode code options := by cases h; rfl
      obtain ⟨hpasses, hsame⟩ := Disassembly.build_unit (d := .ofCode code options) rfl
        (by simp [Disassembly.ofCode]) hlimit
      exact ⟨.unit _, by rw [Staged.build, hpasses]; rfl, by rw [hsame]; exact .unit⟩
  | stack d =>
      obtain ⟨n, hpasses, hsame⟩ := h.build_stack hlimit
      exact ⟨.stack _, by rw [Staged.build, hpasses]; rfl, by rw [hsame]; exact .built⟩

/-- A stage does not fail, and leads to one of the disassemblies again. -/
theorem apply (hlimit : options.maxPasses = none) (h : Reached code options s) (stage : Stage) :
    ∃ t, s.apply stage = .ok t ∧ Reached code options t := by
  match stage with
  | .build => exact h.build hlimit
  | .refine .unit => exact ⟨_, by rw [Staged.apply, h.toUnit hlimit]; rfl, .unit⟩
  | .refine .stack =>
      obtain ⟨d, hd, hreached⟩ := h.toStack hlimit
      exact ⟨_, by rw [Staged.apply, hd]; rfl, hreached⟩

theorem applyAll (hlimit : options.maxPasses = none) (h : Reached code options s)
    (stages : List Stage) : ∃ t, s.applyAll stages = .ok t ∧ Reached code options t := by
  induction stages generalizing s with
  | nil => exact ⟨s, rfl, h⟩
  | cons stage rest ih =>
      obtain ⟨middle, hstage, hmiddle⟩ := h.apply hlimit stage
      obtain ⟨t, hrest, ht⟩ := ih hmiddle
      refine ⟨t, ?_, ht⟩
      rw [Staged.applyAll, List.foldlM_cons, hstage]
      exact hrest

end Reached

/-- Staged pipelines agree. From a fresh disassembly in either domain, any stages
in any order do not fail. What they lead to can be refined into the domain of
stacks and analysed, and that comes to the disassembly that the direct analysis
comes to: with the same blocks and entry states, so the same state at every
address, the same reachable blocks and the same instructions. The first block is
entered with the empty stack. -/
theorem build_toStack_applyAll (code : Bytes) {options : AnalysisOptions}
    (hlimit : options.maxPasses = none) (k : DomainKind) (stages : List Stage) :
    ∃ staged d, (Staged.ofCode k code options).applyAll stages = .ok staged ∧
      staged.toStack = .ok d ∧
      (∃ n, d.build.passes = .ok n) ∧
      (∃ n, (Disassembly.ofCode code options : Disassembly StackState).build.passes = .ok n) ∧
      d.build.disassembly
        = (Disassembly.ofCode code options : Disassembly StackState).build.disassembly ∧
      (0 < code.size → d.build.disassembly.contexts[0]? = some (.stack [])) := by
  obtain ⟨staged, hstaged, hreached⟩ := (Reached.ofCode k code options).applyAll hlimit stages
  obtain ⟨d, hd, hstack⟩ := hreached.toStack hlimit
  obtain ⟨n, hpasses, hsame⟩ := hstack.build_stack hlimit
  have hready := Disassembly.ready_ofCode code options
  have hsettled := Disassembly.build_spec hready hlimit
  refine ⟨staged, d, hstaged, hd, ⟨n, hpasses⟩, hsettled.passes, hsame, fun hcode => ?_⟩
  obtain ⟨b, hb, -⟩ := Layout.exists_first hcode
  obtain ⟨hlt, -⟩ := Array.getElem?_eq_some_iff.mp hb
  rw [← hready.size_eq, ← hsettled.evolves.size_eq] at hlt
  have hfirst := Array.getElem?_eq_getElem hlt
  rw [hsame, hfirst, Disassembly.getElem?_zero_build hlimit hfirst]

/-- The code with a jump, analysed in both domains before the last analysis. -/
theorem build_toStack_applyAll_hop :
    ({} : AnalysisOptions).maxPasses = none ∧ 0 < Layout.hop.size ∧
      ∃ staged d, (Staged.ofCode .unit Layout.hop {}).applyAll
          [.build, .refine .stack, .build, .refine .stack] = .ok staged ∧
        staged.toStack = .ok d ∧
        d.build.disassembly
          = (Disassembly.ofCode Layout.hop {} : Disassembly StackState).build.disassembly ∧
        d.build.disassembly.contexts[0]? = some (.stack []) := by
  have hlimit : ({} : AnalysisOptions).maxPasses = none := rfl
  obtain ⟨staged, d, hstaged, hd, -, -, hsame, hentry⟩ :=
    build_toStack_applyAll Layout.hop hlimit .unit
      [.build, .refine .stack, .build, .refine .stack]
  exact ⟨hlimit, by decide, staged, d, hstaged, hd, hsame, hentry (by decide)⟩

end Staged

end EvmToolchain
