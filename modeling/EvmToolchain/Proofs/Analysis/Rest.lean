import EvmToolchain.Analysis.AnyState
import EvmToolchain.Proofs.Analysis.Passes

/-!
# EvmToolchain.Proofs.Analysis.Rest

An analysis that has ended is at rest: whatever a visit to a reachable block
would merge into the entry of a block is in that entry already.

All that this takes of a domain is that its merges report every change that
they make (`ReportingDomain`), so it holds of any states to start from, states
of several domains among them. For each part of the engine there are two lemmas:
if the part reports no change, then the states are as they were before it and
what it has merged was taken up already (`Progress.idle_of_pass`); and if all
that it merges is taken up, then it changes nothing (`Progress.pass_of_idle`).
What a run reports is what its last pass reports, so the first lemma tells of
the states in which the run has ended, and the second of the next run from
these states.
-/

namespace EvmToolchain

/-- A domain whose merges report every change that they make. -/
class ReportingDomain (σ : Type) [Domain σ] : Prop where
  merge_fst_of_snd {s t : σ} : (Domain.merge s t).2 = false → (Domain.merge s t).1 = s

instance {σ : Type} [Domain σ] [SemilatticeSup σ] [LawfulDomain σ] : ReportingDomain σ where
  merge_fst_of_snd h := by
    rw [LawfulDomain.merge_fst]
    exact sup_eq_left.mpr (LawfulDomain.merge_snd.mp h)

/-- States of several domains: the merges of each domain report their changes,
and others make none. -/
instance (k : DomainKind) : ReportingDomain (StateIn k) where
  merge_fst_of_snd {s t} h := by
    cases s with
    | unit => rfl
    | stack s =>
        cases t with
        | unit => rfl
        | stack t => exact congrArg AnyState.stack (ReportingDomain.merge_fst_of_snd h)

section Definitions

variable {σ : Type} [Domain σ]

/-- The state can be merged into the entry of the block. That reports no change
and makes none. -/
def TakenUp (contexts : Array σ) (id : Nat) (state : σ) : Prop :=
  ∃ s, contexts[id]? = some s ∧ Domain.merge? s state = some (s, false)

/-- A jump instruction in the given state sends nothing new anywhere: if it is
known to go to an address of the code, then the block there has taken the state
after the jump up. -/
def Layout.JumpRests (l : Layout) (contexts : Array σ) (s : σ) (i : Instruction) : Prop :=
  i.canBranch = true → ∀ target, Domain.top s = .known target → target < l.code.size →
    ∃ state id, Domain.branch i s = .ok state ∧ l.blockIndex target = .ok id ∧
      TakenUp contexts id state

/-- A block that is entered in the given state sends nothing new anywhere. -/
structure Layout.BlockRests (l : Layout) (contexts : Array σ) (id : Nat) (b : Block) (s : σ) :
    Prop where
  /-- The block can be replayed, and the next one has taken its final state up. -/
  final : ∃ t, Disassembly.transferAll s (sweep l.code b.start b.stop) = .ok t ∧
    (id + 1 < l.blocks.size → TakenUp contexts (id + 1) t)
  jump : ∀ pre i post, sweep l.code b.start b.stop = pre ++ i :: post →
    ∀ t, Disassembly.transferAll s pre = .ok t → l.JumpRests contexts t i.instruction

/-- Every block has an entry state, and those that are reported reachable send
nothing new anywhere. -/
def Disassembly.AtRest (d : Disassembly σ) : Prop :=
  ∀ (id : Nat) (b : Block), d.blocks[id]? = some b → ∃ s, d.contexts[id]? = some s ∧
    (d.isBlockReachable id = .ok true → d.toLayout.BlockRests d.contexts id b s)

end Definitions

/-! ### The loops of the engine -/

section Loops

variable {σ : Type} [Domain σ]

/-- Nothing comes of merging the flow into its block. -/
def Flow.Idle (contexts : Array σ) (f : Flow σ) : Prop :=
  ∀ s, contexts[f.block]? = some s → Domain.merge? s f.state = some (s, false)

/-- The block has an entry state. If it is reachable, it can be replayed, and
nothing comes of what flows out of it. -/
def Layout.Idle (l : Layout) (contexts : Array σ) (id : Nat) (b : Block) : Prop :=
  ∃ s, contexts[id]? = some s ∧ (Disassembly.isReachableIn contexts id = true →
    (∃ t, (l.blockReplay id b s).final = .ok t) ∧
      ∀ f ∈ Effect.flows (l.blockReplay id b s).effects, f.Idle contexts)

namespace Progress

variable {l : Layout} {trace : Bool} {p after : Progress σ} {f : Flow σ} {id : Nat} {b : Block}

/-- A part of a pass has changed no state, and has not reported that it did. -/
structure Unchanged (p after : Progress σ) : Prop where
  changed_eq : after.changed = p.changed
  contexts_eq : after.contexts = p.contexts

omit [Domain σ] in
theorem Unchanged.refl (p : Progress σ) : Unchanged p p := ⟨rfl, rfl⟩

omit [Domain σ] in
theorem Unchanged.trans {middle : Progress σ} (h : Unchanged p middle)
    (h' : Unchanged middle after) : Unchanged p after :=
  ⟨h'.changed_eq.trans h.changed_eq, h'.contexts_eq.trans h.contexts_eq⟩

/-! ### What is idle changes nothing -/

theorem absorb_of_idle (h : f.Idle p.contexts) :
    ∃ after, p.absorb f = (after, .ok ()) ∧ Unchanged p after := by
  cases hs : p.contexts[f.block]? with
  | none => exact ⟨p, by rw [absorb, hs], .refl p⟩
  | some s =>
      refine ⟨_, by rw [absorb, hs]; dsimp only; rw [h s hs], Bool.or_false _, ?_⟩
      refine Array.ext_getElem? fun id => ?_
      rw [Array.getElem?_setIfInBounds]
      split
      · next hid => rw [← hid, hs, if_pos (Array.getElem?_eq_some_iff.mp hs).1]
      · rfl

theorem perform_of_idle {effects : List (Effect σ)}
    (h : ∀ f ∈ Effect.flows effects, f.Idle p.contexts) :
    ∃ after, p.perform effects = (after, .ok ()) ∧ Unchanged p after := by
  induction effects generalizing p with
  | nil => exact ⟨p, rfl, .refl p⟩
  | cons e rest ih =>
      cases e with
      | report event =>
          obtain ⟨after, hrest, hsame⟩ := ih (p := { p with events := p.events.push event }) h
          exact ⟨after, hrest, hsame.changed_eq, hsame.contexts_eq⟩
      | flow f =>
          obtain ⟨hf, hflows⟩ := List.forall_mem_cons.mp h
          obtain ⟨middle, habsorb, hmiddle⟩ := absorb_of_idle hf
          obtain ⟨after, hrest, hsame⟩ := ih (p := middle) (hmiddle.contexts_eq ▸ hflows)
          exact ⟨after, by rw [perform, habsorb]; exact hrest, hmiddle.trans hsame⟩

theorem visit_of_idle (trace : Bool) (h : l.Idle p.contexts id b) :
    ∃ after, p.visit l trace id b = (after, .ok ()) ∧ Unchanged p after := by
  obtain ⟨s, hs, hidle⟩ := h
  rw [visit, hs]
  dsimp only
  split
  · next hreach =>
    obtain ⟨⟨t, ht⟩, hflows⟩ := hidle hreach
    obtain ⟨after, hperform, hsame⟩ := perform_of_idle
      (p := { p with events := p.events ++
        (if trace then [AnalysisEvent.visited id b (Domain.text s)] else []) }) hflows
    refine ⟨after, ?_, hsame.changed_eq, hsame.contexts_eq⟩
    rw [hperform, ht]
    rfl
  · exact ⟨p, rfl, .refl p⟩

theorem pass_of_idle (trace : Bool) {blocks : List (Block × Nat)}
    (h : ∀ b id, (b, id) ∈ blocks → l.Idle p.contexts id b) :
    ∃ after, p.pass l trace blocks = (after, .ok ()) ∧ Unchanged p after := by
  induction blocks generalizing p with
  | nil => exact ⟨p, rfl, .refl p⟩
  | cons first rest ih =>
      obtain ⟨b, id⟩ := first
      obtain ⟨middle, hvisit, hmiddle⟩ := visit_of_idle trace (h b id List.mem_cons_self)
      obtain ⟨after, hrest, hsame⟩ := ih (p := middle) fun b id hmem =>
        hmiddle.contexts_eq ▸ h b id (List.mem_cons_of_mem _ hmem)
      exact ⟨after, by rw [pass, hvisit]; exact hrest, hmiddle.trans hsame⟩

/-- A run from states in which all blocks are idle ends after one pass. -/
theorem run_of_idle (trace : Bool) (done : Nat) {budget : Nat} (hbudget : 0 < budget)
    (h : ∀ (id : Nat) (b : Block), l.blocks[id]? = some b → l.Idle p.contexts id b) :
    ∃ after, p.run l trace done budget = (after, .ok (some (done + 1))) ∧
      after.contexts = p.contexts := by
  obtain ⟨more, rfl⟩ := Nat.exists_eq_add_of_lt hbudget
  obtain ⟨after, hpass, hsame⟩ := pass_of_idle (p := { p with changed := false }) trace
    fun b id hmem => h id b (Layout.mem_zipIdx_blocks.mp hmem)
  have hchanged : after.changed = false := hsame.changed_eq
  rw [Nat.zero_add, run_succ, hpass]
  dsimp only
  rw [hchanged]
  exact ⟨_, rfl, hsame.contexts_eq⟩

/-! ### What reports no change is idle -/

variable [ReportingDomain σ]

theorem idle_of_absorb (h : p.absorb f = (after, .ok ())) (hchanged : after.changed = false) :
    Unchanged p after ∧ f.Idle p.contexts := by
  have hidle : f.Idle p.contexts := by
    intro s hs
    rw [absorb, hs] at h
    dsimp only at h
    cases hmerge : Domain.merge? s f.state with
    | none =>
        rw [hmerge] at h
        cases h
    | some result =>
        obtain ⟨merged, reported⟩ := result
        rw [hmerge] at h
        obtain ⟨rfl, -⟩ := Prod.mk.inj h
        obtain ⟨-, rfl⟩ := Bool.or_eq_false_iff.mp hchanged
        -- the merge has reported no change, so it has made none
        unfold Domain.merge? at hmerge
        split at hmerge
        · have hfst := congrArg Prod.fst (Option.some.inj hmerge)
          have hsnd := congrArg Prod.snd (Option.some.inj hmerge)
          rw [← hfst.symm.trans (ReportingDomain.merge_fst_of_snd hsnd)]
        · cases hmerge
  obtain ⟨_, habsorb, hsame⟩ := absorb_of_idle hidle
  obtain ⟨rfl, -⟩ := Prod.mk.inj (h.symm.trans habsorb)
  exact ⟨hsame, hidle⟩

theorem idle_of_perform {effects : List (Effect σ)} (h : p.perform effects = (after, .ok ()))
    (hchanged : after.changed = false) :
    Unchanged p after ∧ ∀ f ∈ Effect.flows effects, f.Idle p.contexts := by
  induction effects generalizing p with
  | nil =>
      obtain ⟨rfl, -⟩ := Prod.mk.inj h
      exact ⟨.refl p, List.forall_mem_nil _⟩
  | cons e rest ih =>
      cases e with
      | report event =>
          obtain ⟨hsame, hflows⟩ := ih h
          exact ⟨⟨hsame.changed_eq, hsame.contexts_eq⟩, hflows⟩
      | flow f =>
          rw [perform] at h
          split at h
          · cases h
          · next middle habsorb =>
            obtain ⟨hsame, hflows⟩ := ih h
            obtain ⟨hmiddle, hf⟩ := idle_of_absorb habsorb (hsame.changed_eq ▸ hchanged)
            exact ⟨hmiddle.trans hsame,
              List.forall_mem_cons.mpr ⟨hf, hmiddle.contexts_eq ▸ hflows⟩⟩

theorem idle_of_visit (h : p.visit l trace id b = (after, .ok ()))
    (hchanged : after.changed = false) : Unchanged p after ∧ l.Idle p.contexts id b := by
  unfold visit at h
  split at h
  · cases h
  · next s hs =>
    split at h
    · dsimp only at h
      split at h
      · cases h
      · next middle hperform =>
        obtain ⟨rfl, hfinal⟩ := Prod.mk.inj h
        obtain ⟨hsame, hflows⟩ := idle_of_perform hperform hchanged
        refine ⟨⟨hsame.changed_eq, hsame.contexts_eq⟩, s, hs, fun _ => ⟨?_, hflows⟩⟩
        cases ht : (l.blockReplay id b s).final with
        | ok t => exact ⟨t, rfl⟩
        | error e =>
            rw [ht] at hfinal
            cases hfinal
    · next hreach =>
      obtain ⟨rfl, -⟩ := Prod.mk.inj h
      exact ⟨.refl p, s, hs, fun h => absurd h hreach⟩

theorem idle_of_pass {blocks : List (Block × Nat)} (h : p.pass l trace blocks = (after, .ok ()))
    (hchanged : after.changed = false) :
    Unchanged p after ∧ ∀ b id, (b, id) ∈ blocks → l.Idle p.contexts id b := by
  induction blocks generalizing p with
  | nil =>
      obtain ⟨rfl, -⟩ := Prod.mk.inj h
      exact ⟨.refl p, fun _ _ hmem => absurd hmem List.not_mem_nil⟩
  | cons first rest ih =>
      obtain ⟨b, id⟩ := first
      rw [pass] at h
      split at h
      · cases h
      · next middle hvisit =>
        obtain ⟨hsame, hrest⟩ := ih h
        obtain ⟨hmiddle, hfirst⟩ := idle_of_visit hvisit (hsame.changed_eq ▸ hchanged)
        refine ⟨hmiddle.trans hsame, fun b' id' hmem => ?_⟩
        rcases List.mem_cons.mp hmem with heq | hmem
        · obtain ⟨rfl, rfl⟩ := Prod.mk.inj heq
          exact hfirst
        · exact hmiddle.contexts_eq ▸ hrest b' id' hmem

/-- All blocks are idle in the states in which a run has ended. -/
theorem idle_of_run {done budget n : Nat} (h : p.run l trace done budget = (after, .ok (some n)))
    (hb : l.blocks[id]? = some b) : l.Idle after.contexts id b := by
  induction budget generalizing p done with
  | zero => cases h
  | succ budget ih =>
      rw [run_succ] at h
      split at h
      · cases h
      · next last hpass =>
        dsimp only at h
        split at h
        · exact ih h
        · next hchanged =>
          obtain ⟨rfl, -⟩ := Prod.mk.inj h
          obtain ⟨hsame, hidle⟩ := idle_of_pass hpass (Bool.eq_false_iff.mpr hchanged)
          exact hsame.contexts_eq ▸ hidle b id (Layout.mem_zipIdx_blocks.mpr hb)

end Progress

end Loops

/-! ### What a block sends out -/

namespace Layout

variable {σ : Type} [Domain σ] {l : Layout} {contexts : Array σ} {s t : σ} {id : Nat} {b : Block}

theorem lt_size_of_blockIndex {pc : Int} (h : l.blockIndex pc = .ok id) : id < l.blocks.size := by
  unfold blockIndex at h
  split at h
  · next hfind =>
    obtain rfl := Except.ok.inj h
    exact (Array.findIdx?_eq_some_iff_getElem.mp hfind).1
  · cases h

theorem takenUp_of_idle {f : Flow σ} (h : f.Idle contexts) (hblock : f.block < contexts.size) :
    TakenUp contexts f.block f.state :=
  ⟨_, Array.getElem?_eq_getElem hblock, h _ (Array.getElem?_eq_getElem hblock)⟩

theorem jumpRests_of_idle {i : Located} {effects : List (Effect σ)}
    (hsize : l.blocks.size ≤ contexts.size) (h : l.jumpEffects s i = .ok effects)
    (hidle : ∀ f ∈ Effect.flows effects, f.Idle contexts) :
    l.JumpRests contexts s i.instruction := by
  intro hbranch target htop hlt
  rw [jumpEffects, if_pos hbranch, htop] at h
  dsimp only at h
  rw [if_pos hlt] at h
  split at h
  · cases h
  · next state hstate =>
    split at h
    · cases h
    · next block hblock =>
      obtain rfl := Except.ok.inj h
      refine ⟨state, block, hstate, hblock, ?_⟩
      have hflow := hidle ⟨block, state⟩ (Effect.mem_flows.mpr (List.mem_singleton_self _))
      exact takenUp_of_idle hflow (Nat.lt_of_lt_of_le (lt_size_of_blockIndex hblock) hsize)

/-- A replay that comes to a final state replays the effects of every jump that
it meets. -/
theorem replay_ok {insns : List Located} (h : (l.replay s insns).final = .ok t) :
    Disassembly.transferAll s insns = .ok t ∧
      ∀ pre i post, insns = pre ++ i :: post → ∀ u, Disassembly.transferAll s pre = .ok u →
        ∃ effects, l.jumpEffects u i = .ok effects ∧ effects ⊆ (l.replay s insns).effects := by
  induction insns generalizing s with
  | nil => exact ⟨h, fun pre i post hsplit => by simp at hsplit⟩
  | cons i rest ih =>
      cases hjump : l.jumpEffects s i with
      | error e =>
          rw [replay, hjump] at h
          cases h
      | ok effects =>
          cases hafter : Domain.transfer i.instruction s with
          | error e =>
              rw [replay, hjump] at h
              dsimp only at h
              rw [hafter] at h
              cases h
          | ok after =>
              have hreplay : l.replay s (i :: rest) = { l.replay after rest with
                  effects := effects ++ (l.replay after rest).effects } := by
                rw [replay, hjump]
                dsimp only
                rw [hafter]
              rw [hreplay] at h ⊢
              obtain ⟨hfinal, hrest⟩ := ih h
              refine ⟨by rw [Disassembly.transferAll, hafter]; exact hfinal, ?_⟩
              intro pre j post hsplit u hu
              cases pre with
              | nil =>
                  obtain ⟨rfl, -⟩ := List.cons.inj hsplit
                  obtain rfl := Except.ok.inj hu
                  exact ⟨effects, hjump, List.subset_append_left _ _⟩
              | cons first pre =>
                  obtain ⟨rfl, htail⟩ := List.cons.inj hsplit
                  rw [Disassembly.transferAll, hafter] at hu
                  obtain ⟨later, hlater, hsubset⟩ := hrest pre j post htail u hu
                  exact ⟨later, hlater, List.subset_append_of_subset_right _ hsubset⟩

/-- A reachable block that is idle sends nothing new anywhere. -/
theorem blockRests_of_idle (hsize : l.blocks.size ≤ contexts.size)
    (hfinal : (l.blockReplay id b s).final = .ok t)
    (hidle : ∀ f ∈ Effect.flows (l.blockReplay id b s).effects, f.Idle contexts) :
    l.BlockRests contexts id b s := by
  -- the replay of the instructions comes to a final state, which flows on with the jumps
  obtain ⟨hreplay, hnext, hsubset⟩ : (l.replay s (sweep l.code b.start b.stop)).final = .ok t ∧
      (id + 1 < l.blocks.size → Effect.flow ⟨id + 1, t⟩ ∈ (l.blockReplay id b s).effects) ∧
      (l.replay s (sweep l.code b.start b.stop)).effects ⊆ (l.blockReplay id b s).effects := by
    unfold blockReplay at hfinal ⊢
    dsimp only at hfinal ⊢
    split at hfinal
    · next herror =>
      rw [herror] at hfinal
      cases hfinal
    · next last hlast =>
      split at hfinal <;> obtain rfl := Except.ok.inj (hlast.symm.trans hfinal)
      · next hlt =>
        rw [if_pos hlt]
        exact ⟨hlast, fun _ => by simp, List.subset_append_left _ _⟩
      · next hlt =>
        rw [if_neg hlt]
        exact ⟨hlast, fun h => absurd h hlt, List.Subset.refl _⟩
  obtain ⟨htransfer, hjumps⟩ := replay_ok hreplay
  refine ⟨⟨t, htransfer, fun hlt => ?_⟩, fun pre i post hsplit u hu => ?_⟩
  · exact takenUp_of_idle (hidle _ (Effect.mem_flows.mpr (hnext hlt)))
      (Nat.lt_of_lt_of_le hlt hsize)
  · obtain ⟨effects, heffects, hsub⟩ := hjumps pre i post hsplit u hu
    refine jumpRests_of_idle hsize heffects fun f hf => hidle f ?_
    exact Effect.mem_flows.mpr (hsubset (hsub (Effect.mem_flows.mp hf)))

end Layout

/-! ### Analyses that have ended -/

namespace Disassembly

variable {σ : Type} [Domain σ] {d : Disassembly σ} {n : Nat}

/-- An analysis that ends is one run of the engine from the given states. -/
theorem build_ok (h : d.build.passes = .ok n) : d.isRetired = false ∧
    ∃ after, d.passes (budget d.options d.contexts) = (after, .ok (some n)) ∧
      d.build.disassembly = { d with contexts := after.contexts } := by
  unfold build at h ⊢
  split at h
  · cases h
  · next hlive =>
    refine ⟨Bool.eq_false_iff.mpr hlive, ?_⟩
    rw [if_neg hlive]
    generalize hrun : d.passes (budget d.options d.contexts) = result
    unfold passes at hrun
    simp only [hrun] at h ⊢
    obtain ⟨after, outcome⟩ := result
    match outcome with
    | .error e => cases h
    | .ok none => cases h
    | .ok (some m) =>
        obtain rfl := Except.ok.inj h
        exact ⟨after, rfl, rfl⟩

/-- Whether any pass is allowed does not depend on the states. -/
theorem budget_pos {options : AnalysisOptions} {contexts : Array σ}
    (h : 0 < budget options contexts) (contexts' : Array σ) : 0 < budget options contexts' := by
  have hbound : 0 < passBound contexts' := by
    unfold passBound
    omega
  unfold budget at h ⊢
  split
  · next limit hlimit =>
    rw [hlimit] at h
    dsimp only at h
    cases hfloor : limit.floor? with
    | none => exact hbound
    | some k =>
        rw [hfloor] at h
        exact h
  · exact hbound

/-- A finished analysis is at rest, and another one from its states ends after
one pass and leaves the disassembly as it is. -/
structure Built.IsFixedPoint (r : Built σ) : Prop where
  atRest : r.disassembly.AtRest
  passes_eq : r.disassembly.build.passes = .ok 1
  disassembly_eq : r.disassembly.build.disassembly = r.disassembly

theorem isFixedPoint_of_passes [ReportingDomain σ] (h : d.build.passes = .ok n) :
    d.build.IsFixedPoint := by
  obtain ⟨hlive, after, hrun, hbuild⟩ := build_ok h
  have hidle : ∀ (id : Nat) (b : Block), d.blocks[id]? = some b →
      d.toLayout.Idle after.contexts id b := fun id b hb => Progress.idle_of_run hrun hb
  have hsize : d.blocks.size ≤ after.contexts.size := by
    by_contra hlt
    obtain ⟨s, hs, -⟩ := hidle after.contexts.size _
      (Array.getElem?_eq_getElem (Nat.lt_of_not_le hlt))
    simp at hs
  have hbudget : 0 < budget d.options after.contexts :=
    budget_pos (Nat.lt_of_lt_of_le (Progress.passes_le_of_run hrun).1
      (Nat.le_trans (Progress.passes_le_of_run hrun).2 (Nat.le_of_eq (Nat.zero_add _)))) _
  obtain ⟨again, hagain, hsame⟩ := Progress.run_of_idle
    (p := { contexts := after.contexts }) d.options.trace 0 hbudget hidle
  constructor <;> rw [hbuild]
  case atRest =>
    intro id b hb
    obtain ⟨s, hs, hreplay⟩ := hidle id b hb
    refine ⟨s, hs, fun hreach => ?_⟩
    have hreachIn : isReachableIn after.contexts id = true := by
      unfold isBlockReachable at hreach
      split at hreach
      · split at hreach
        · exact Except.ok.inj hreach
        · cases hreach
      · cases hreach
    obtain ⟨⟨t, ht⟩, hflows⟩ := hreplay hreachIn
    exact Layout.blockRests_of_idle hsize ht hflows
  case passes_eq =>
    simp only [build, hlive, hagain, Bool.false_eq_true, if_false]
  case disassembly_eq =>
    simp only [build, hlive, hagain, Bool.false_eq_true, if_false]
    rw [hsame]

/-- An analysis that returns has reached a fixed point, in every domain, also
where it has been given states of the other one, and whatever states it has
started from. -/
theorem build_isFixedPoint :
    (∀ (d : Disassembly Unit) (n : Nat), d.build.passes = .ok n → d.build.IsFixedPoint) ∧
    (∀ (d : Disassembly StackState) (n : Nat), d.build.passes = .ok n → d.build.IsFixedPoint) ∧
    ∀ (k : DomainKind) (d : Disassembly (StateIn k)) (n : Nat),
      d.build.passes = .ok n → d.build.IsFixedPoint :=
  ⟨fun _ _ => isFixedPoint_of_passes, fun _ _ => isFixedPoint_of_passes,
    fun _ _ _ => isFixedPoint_of_passes⟩

/-- In the trivial domain the first pass changes nothing. In the domain of stacks
the jump reaches the second block in the first pass. -/
theorem build_isFixedPoint_hop :
    ((ofCode Layout.hop {} : Disassembly Unit).build.passes = .ok 1 ∧
      (ofCode Layout.hop {} : Disassembly Unit).build.IsFixedPoint) ∧
    ((ofCode Layout.hop {} : Disassembly StackState).build.passes = .ok 2 ∧
      (ofCode Layout.hop {} : Disassembly StackState).build.IsFixedPoint) ∧
    ((ofCode Layout.hop {} : Disassembly (StateIn .stack)).build.passes = .ok 2 ∧
      (ofCode Layout.hop {} : Disassembly (StateIn .stack)).build.IsFixedPoint) := by
  have hunit : (ofCode Layout.hop {} : Disassembly Unit).build.passes = .ok 1 := by decide +kernel
  have hstack : (ofCode Layout.hop {} : Disassembly StackState).build.passes = .ok 2 := by
    decide +kernel
  have hany : (ofCode Layout.hop {} : Disassembly (StateIn .stack)).build.passes = .ok 2 := by
    decide +kernel
  obtain ⟨ofUnit, ofStack, ofAny⟩ := build_isFixedPoint
  exact ⟨⟨hunit, ofUnit _ _ hunit⟩, ⟨hstack, ofStack _ _ hstack⟩, hany, ofAny _ _ _ hany⟩

end Disassembly

end EvmToolchain
