import EvmToolchain.Analysis.FixedPoint
import EvmToolchain.Proofs.Analysis.Order
import Mathlib.Algebra.GroupWithZero.Nat

/-!
# EvmToolchain.Proofs.Analysis.Engine

How the states at block entries evolve during an analysis, for any lawful
domain.

The states only change when a reachable block is visited: what flows out of it
is joined into the entries of the blocks that it flows into (`absorbed`).
`Layout.Evolves` is the closure of this one move, in whatever order blocks are
visited. Properties of an analysis are proved of it by induction; the loops of
the engine are only related to it once:

* passes evolve the states, and a pass that reports no change has found every
  reachable block quiet (`Progress.pass_spec`);
* a run under a large enough budget ends in states in which all blocks are quiet
  (`Progress.run_spec`).

A property of states that the replay of blocks keeps (`Layout.Keeps`) is what
guarantees that no step of the engine fails.
-/

namespace EvmToolchain

/-- The flows among some effects. -/
def Effect.flows {σ : Type} (effects : List (Effect σ)) : List (Flow σ) :=
  effects.filterMap fun
    | .flow f => some f
    | .report _ => none

theorem Effect.mem_flows {σ : Type} {effects : List (Effect σ)} {f : Flow σ} :
    f ∈ flows effects ↔ Effect.flow f ∈ effects := by
  rw [flows, List.mem_filterMap]
  constructor
  · rintro ⟨e, he, hf⟩
    cases e with
    | flow g =>
        obtain rfl : g = f := by simpa using hf
        exact he
    | report _ => simp at hf
  · exact fun h => ⟨_, h, rfl⟩

/-- Changing one entry of a list to one of a lower rank lowers the sum of ranks. -/
theorem sum_map_modify_lt {σ : Type} {rank : σ → Nat} {g : σ → σ} {l : List σ} {i : Nat} {s : σ}
    (hs : l[i]? = some s) (hlt : rank (g s) < rank s) :
    ((l.modify i g).map rank).sum < (l.map rank).sum := by
  induction l generalizing i with
  | nil => simp at hs
  | cons x xs ih =>
      cases i with
      | zero =>
          obtain rfl : x = s := by simpa using hs
          simpa using hlt
      | succ i =>
          have := ih (i := i) (by simpa using hs)
          simpa using this

section Absorb

variable {σ : Type} [SemilatticeSup σ]

/-- The states after a flow has been joined into its block. -/
def Flow.into (f : Flow σ) (contexts : Array σ) : Array σ :=
  contexts.modify f.block (· ⊔ f.state)

/-- The states after some flows have been joined into their blocks. -/
def absorbed (contexts : Array σ) (fs : List (Flow σ)) : Array σ :=
  fs.foldl (fun contexts f => f.into contexts) contexts

/-- The block of the flow has taken it up already. -/
def Flow.Settled (contexts : Array σ) (f : Flow σ) : Prop :=
  ∀ s, contexts[f.block]? = some s → f.state ≤ s

@[simp] theorem absorbed_cons (contexts : Array σ) (f : Flow σ) (fs : List (Flow σ)) :
    absorbed contexts (f :: fs) = absorbed (f.into contexts) fs := rfl

@[simp] theorem Flow.size_into (f : Flow σ) (contexts : Array σ) :
    (f.into contexts).size = contexts.size := Array.size_modify

@[simp] theorem size_absorbed (contexts : Array σ) (fs : List (Flow σ)) :
    (absorbed contexts fs).size = contexts.size := by
  induction fs generalizing contexts with
  | nil => rfl
  | cons f fs ih => rw [absorbed_cons, ih, Flow.size_into]

theorem Flow.getElem?_into (f : Flow σ) (contexts : Array σ) (id : Nat) :
    (f.into contexts)[id]? =
      if f.block = id then contexts[id]?.map (· ⊔ f.state) else contexts[id]? := by
  rw [into, Array.getElem?_modify]

/-- Joining a settled flow changes nothing. -/
theorem Flow.into_of_settled {f : Flow σ} {contexts : Array σ} (h : f.Settled contexts) :
    f.into contexts = contexts := by
  refine Array.ext_getElem? fun id => ?_
  rw [getElem?_into]
  split
  · next hid =>
    cases hs : contexts[id]? with
    | none => rfl
    | some s =>
        rw [Option.map_some, sup_eq_left.mpr (h s (hid ▸ hs))]
  · rfl

theorem absorbed_of_settled {contexts : Array σ} {fs : List (Flow σ)}
    (h : ∀ f ∈ fs, f.Settled contexts) : absorbed contexts fs = contexts := by
  induction fs with
  | nil => rfl
  | cons f fs ih =>
      rw [absorbed_cons, Flow.into_of_settled (h f List.mem_cons_self)]
      exact ih fun g hg => h g (List.mem_cons_of_mem _ hg)

/-! ### States only grow -/

/-- Each state is still there, or has been replaced by one above it. -/
def Grows (before after : Array σ) : Prop :=
  ∀ (id : Nat) (s : σ), before[id]? = some s → ∃ t, after[id]? = some t ∧ s ≤ t

theorem Grows.refl (contexts : Array σ) : Grows contexts contexts :=
  fun _ s h => ⟨s, h, le_refl s⟩

theorem Grows.trans {a b c : Array σ} (hab : Grows a b) (hbc : Grows b c) : Grows a c := by
  intro id s hs
  obtain ⟨t, ht, hst⟩ := hab id s hs
  obtain ⟨u, hu, htu⟩ := hbc id t ht
  exact ⟨u, hu, hst.trans htu⟩

theorem Flow.grows_into (f : Flow σ) (contexts : Array σ) : Grows contexts (f.into contexts) := by
  intro id s hs
  rw [getElem?_into]
  split
  · exact ⟨s ⊔ f.state, by rw [hs]; rfl, le_sup_left⟩
  · exact ⟨s, hs, le_refl s⟩

theorem grows_absorbed (contexts : Array σ) (fs : List (Flow σ)) :
    Grows contexts (absorbed contexts fs) := by
  induction fs generalizing contexts with
  | nil => exact Grows.refl _
  | cons f fs ih => exact (f.grows_into contexts).trans (ih _)

/-! ### Properties of states that joins keep -/

/-- Every state has the property that goes with its block. -/
def AllStates (Inv : Nat → σ → Prop) (contexts : Array σ) : Prop :=
  ∀ (id : Nat) (s : σ), contexts[id]? = some s → Inv id s

theorem AllStates.absorbed {Inv : Nat → σ → Prop}
    (hsup : ∀ {id s t}, Inv id s → Inv id t → Inv id (s ⊔ t)) {contexts : Array σ}
    {fs : List (Flow σ)} (hcontexts : AllStates Inv contexts)
    (hfs : ∀ f ∈ fs, Inv f.block f.state) : AllStates Inv (absorbed contexts fs) := by
  induction fs generalizing contexts with
  | nil => exact hcontexts
  | cons f fs ih =>
      refine ih ?_ fun g hg => hfs g (List.mem_cons_of_mem _ hg)
      intro id s hs
      rw [Flow.getElem?_into] at hs
      split at hs
      · next hid =>
        obtain ⟨s', hs', rfl⟩ := Option.map_eq_some_iff.mp hs
        exact hsup (hcontexts id s' hs') (hid ▸ hfs f List.mem_cons_self)
      · exact hcontexts id s hs

/-! ### A measure of what the states can still lose -/

/-- A rank that every change lowers. -/
def Drops (Inv : Nat → σ → Prop) (rank : σ → Nat) : Prop :=
  ∀ id s t, Inv id s → Inv id t → ¬ t ≤ s → rank (s ⊔ t) < rank s

/-- The sum of a rank over all states. -/
def totalRank (rank : σ → Nat) (contexts : Array σ) : Nat :=
  (contexts.toList.map rank).sum

theorem Flow.totalRank_into_lt {rank : σ → Nat} {f : Flow σ} {contexts : Array σ} {s : σ}
    (hs : contexts[f.block]? = some s) (hlt : rank (s ⊔ f.state) < rank s) :
    totalRank rank (f.into contexts) < totalRank rank contexts := by
  rw [totalRank, totalRank, into, Array.toList_modify]
  exact sum_map_modify_lt (by rw [Array.getElem?_toList]; exact hs) hlt

/-- Flows into states with a property never raise the total rank, and lower it
unless they are all settled. -/
theorem totalRank_absorbed {Inv : Nat → σ → Prop}
    (hsup : ∀ {id s t}, Inv id s → Inv id t → Inv id (s ⊔ t)) {rank : σ → Nat}
    (hrank : Drops Inv rank) {contexts : Array σ} {fs : List (Flow σ)} (hcontexts : AllStates Inv contexts)
    (hfs : ∀ f ∈ fs, Inv f.block f.state) :
    (∀ f ∈ fs, f.Settled contexts) ∨
      totalRank rank (absorbed contexts fs) < totalRank rank contexts := by
  induction fs generalizing contexts with
  | nil => exact Or.inl (by simp)
  | cons f fs ih =>
      have hf := hfs f List.mem_cons_self
      have hrest : ∀ g ∈ fs, Inv g.block g.state := fun g hg => hfs g (List.mem_cons_of_mem _ hg)
      by_cases hset : f.Settled contexts
      · rw [absorbed_cons, Flow.into_of_settled hset]
        rcases ih hcontexts hrest with hall | hlt
        · exact Or.inl (by simpa using ⟨hset, hall⟩)
        · exact Or.inr hlt
      · obtain ⟨s, hs, hle⟩ : ∃ s, contexts[f.block]? = some s ∧ ¬ f.state ≤ s := by
          simpa [Flow.Settled] using hset
        -- this flow lowers the rank, and the flows after it do not raise it again
        have hlt := Flow.totalRank_into_lt hs (hrank _ _ _ (hcontexts _ s hs) hf hle)
        have hinto : AllStates Inv (f.into contexts) := by
          have hone : ∀ g ∈ [f], Inv g.block g.state := by simpa using hf
          exact AllStates.absorbed hsup hcontexts hone
        rcases ih hinto hrest with hall | hlt'
        · rw [absorbed_cons, absorbed_of_settled hall]
          exact Or.inr hlt
        · exact Or.inr (hlt'.trans hlt)

end Absorb

/-! ### The moves of an analysis -/

section Evolution

variable {σ : Type} [Domain σ] [SemilatticeSup σ]

/-- What flows out of a block when it is replayed from a state. -/
def Layout.outflow (l : Layout) (id : Nat) (b : Block) (s : σ) : List (Flow σ) :=
  Effect.flows (l.blockReplay id b s).effects

/-- The states that visits to reachable blocks, in any order, can lead to. -/
inductive Layout.Evolves (l : Layout) (start : Array σ) : Array σ → Prop
  | refl : Evolves l start start
  | visit {contexts : Array σ} {id : Nat} {b : Block} {s : σ} :
      Evolves l start contexts → l.blocks[id]? = some b → contexts[id]? = some s →
      Disassembly.isReachableIn contexts id = true →
      Evolves l start (absorbed contexts (l.outflow id b s))

/-- A visit to the block would change nothing. -/
def Layout.Quiet (l : Layout) (contexts : Array σ) (id : Nat) (b : Block) : Prop :=
  ∀ s, contexts[id]? = some s → Disassembly.isReachableIn contexts id = true →
    ∀ f ∈ l.outflow id b s, f.Settled contexts

/-- No visit to any block would change anything. -/
def Layout.Stable (l : Layout) (contexts : Array σ) : Prop :=
  ∀ id b, l.blocks[id]? = some b → l.Quiet contexts id b

/-- A property of block entries that visits keep. Replaying a block from a
state with the property does not fail. -/
structure Layout.Keeps (l : Layout) (Inv : Nat → σ → Prop) : Prop where
  sup : ∀ {id s t}, Inv id s → Inv id t → Inv id (s ⊔ t)
  final : ∀ {id b s}, l.blocks[id]? = some b → Inv id s → id = 0 ∨ Domain.isReachable s = true →
    ∃ t, (l.blockReplay id b s).final = .ok t
  outflow : ∀ {id b s}, l.blocks[id]? = some b → Inv id s →
    id = 0 ∨ Domain.isReachable s = true → ∀ f ∈ l.outflow id b s, Inv f.block f.state

theorem Layout.mem_zipIdx_blocks {l : Layout} {b : Block} {id : Nat} :
    (b, id) ∈ l.blocks.toList.zipIdx ↔ l.blocks[id]? = some b := by
  rw [List.mk_mem_zipIdx_iff_getElem?, Array.getElem?_toList]

omit [SemilatticeSup σ] in
theorem isReachableIn_iff {contexts : Array σ} {id : Nat} {s : σ} (hs : contexts[id]? = some s) :
    Disassembly.isReachableIn contexts id = true ↔ id = 0 ∨ Domain.isReachable s = true := by
  simp [Disassembly.isReachableIn, hs]

namespace Layout.Evolves

variable {l : Layout} {start contexts : Array σ}

theorem trans {after : Array σ} (h₁ : l.Evolves start contexts) (h₂ : l.Evolves contexts after) :
    l.Evolves start after := by
  induction h₂ with
  | refl => exact h₁
  | visit _ hb hs hreach ih => exact ih.visit hb hs hreach

theorem size_eq (h : l.Evolves start contexts) : contexts.size = start.size := by
  induction h with
  | refl => rfl
  | visit _ _ _ _ ih => rw [size_absorbed, ih]

theorem grows (h : l.Evolves start contexts) : Grows start contexts := by
  induction h with
  | refl => exact Grows.refl _
  | visit _ _ _ _ ih => exact ih.trans (grows_absorbed _ _)

/-- Every state has evolved from one below it. -/
theorem exists_le (h : l.Evolves start contexts) {id : Nat} {t : σ} (ht : contexts[id]? = some t) :
    ∃ s, start[id]? = some s ∧ s ≤ t := by
  obtain ⟨hlt, -⟩ := Array.getElem?_eq_some_iff.mp ht
  rw [h.size_eq] at hlt
  have hs := Array.getElem?_eq_getElem hlt
  obtain ⟨t', ht', hle⟩ := h.grows id _ hs
  obtain rfl := Option.some.inj (ht'.symm.trans ht)
  exact ⟨_, hs, hle⟩

theorem allStates {Inv : Nat → σ → Prop} (hkeeps : l.Keeps Inv) (h : l.Evolves start contexts)
    (hstart : AllStates Inv start) : AllStates Inv contexts := by
  induction h with
  | refl => exact hstart
  | visit _ hb hs hreach ih =>
      exact ih.absorbed hkeeps.sup
        (hkeeps.outflow hb (ih _ _ hs) ((isReachableIn_iff hs).mp hreach))

end Layout.Evolves

end Evolution

/-! ### The loops of the engine -/

section Loops

variable {σ : Type} [Domain σ] [SemilatticeSup σ] [LawfulDomain σ]

namespace Progress

/-- Absorbing a flow joins it in, and records whether it was not settled. -/
theorem absorb_spec (p : Progress σ) (f : Flow σ) :
    ∃ changed, p.absorb f = ({ p with contexts := f.into p.contexts, changed }, .ok ()) ∧
      (changed = false ↔ p.changed = false ∧ f.Settled p.contexts) := by
  cases hs : p.contexts[f.block]? with
  | none =>
      have hset : f.Settled p.contexts := by simp [Flow.Settled, hs]
      refine ⟨p.changed, ?_, by simp [hset]⟩
      rw [absorb, hs, Flow.into_of_settled hset]
  | some s =>
      have hmerge : Domain.merge? s f.state = some (Domain.merge s f.state) := by
        rw [Domain.merge?, LawfulDomain.accepts_eq, if_pos rfl]
      have hinto : p.contexts.setIfInBounds f.block (Domain.merge s f.state).1
          = f.into p.contexts := by
        refine Array.ext_getElem? fun id => ?_
        rw [Flow.getElem?_into, Array.getElem?_setIfInBounds, LawfulDomain.merge_fst]
        split
        · next hid =>
          subst hid
          obtain ⟨hlt, -⟩ := Array.getElem?_eq_some_iff.mp hs
          rw [if_pos hlt, hs, Option.map_some]
        · rfl
      refine ⟨p.changed || (Domain.merge s f.state).2, ?_, ?_⟩
      · rw [absorb, hs]
        dsimp only
        rw [hmerge]
        dsimp only
        rw [hinto]
      · rw [Bool.or_eq_false_iff, LawfulDomain.merge_snd]
        simp [Flow.Settled, hs]

/-- Carrying out effects joins all their flows in, and records whether they were
not all settled. -/
theorem perform_spec (p : Progress σ) (effects : List (Effect σ)) :
    ∃ after, p.perform effects = (after, .ok ()) ∧
      after.contexts = absorbed p.contexts (Effect.flows effects) ∧
      (after.changed = false ↔
        p.changed = false ∧ ∀ f ∈ Effect.flows effects, f.Settled p.contexts) := by
  induction effects generalizing p with
  | nil => exact ⟨p, rfl, rfl, by simp [Effect.flows]⟩
  | cons e rest ih =>
      cases e with
      | report event =>
          obtain ⟨after, hrun, hcontexts, hchanged⟩ := ih { p with events := p.events.push event }
          exact ⟨after, hrun, hcontexts, hchanged⟩
      | flow f =>
          obtain ⟨changed, habsorb, hiff⟩ := p.absorb_spec f
          obtain ⟨after, hrun, hcontexts, hchanged⟩ :=
            ih { p with contexts := f.into p.contexts, changed }
          refine ⟨after, ?_, hcontexts, ?_⟩
          · rw [perform, habsorb]
            exact hrun
          · have hflows : Effect.flows (Effect.flow f :: rest) = f :: Effect.flows rest := rfl
            rw [hchanged, hiff, hflows, List.forall_mem_cons, and_assoc]
            refine and_congr_right fun _ => and_congr_right fun hset => ?_
            rw [Flow.into_of_settled hset]

variable {l : Layout} {Inv : Nat → σ → Prop}

/-- What a part of a pass does: it evolves the states without failing, keeps
the rank from rising, and reports no change only if it has changed nothing. -/
structure Advances (l : Layout) (rank : σ → Nat) (before after : Progress σ) : Prop where
  evolves : l.Evolves before.contexts after.contexts
  unchanged : after.changed = false → before.changed = false ∧ after.contexts = before.contexts
  rank_le : totalRank rank after.contexts ≤ totalRank rank before.contexts
  rank_lt : after.changed = true →
    before.changed = true ∨ totalRank rank after.contexts < totalRank rank before.contexts

omit [LawfulDomain σ] in
theorem Advances.refl (rank : σ → Nat) (p : Progress σ) : Advances l rank p p where
  evolves := .refl
  unchanged h := ⟨h, rfl⟩
  rank_le := Nat.le_refl _
  rank_lt h := Or.inl h

omit [LawfulDomain σ] in
theorem Advances.trans {rank : σ → Nat} {p q r : Progress σ} (hpq : Advances l rank p q)
    (hqr : Advances l rank q r) : Advances l rank p r where
  evolves := hpq.evolves.trans hqr.evolves
  unchanged h := by
    obtain ⟨hq, hcontexts⟩ := hqr.unchanged h
    obtain ⟨hp, hcontexts'⟩ := hpq.unchanged hq
    exact ⟨hp, hcontexts.trans hcontexts'⟩
  rank_le := Nat.le_trans hqr.rank_le hpq.rank_le
  rank_lt h := by
    rcases hqr.rank_lt h with hq | hlt
    · rcases hpq.rank_lt hq with hp | hlt
      · exact Or.inl hp
      · exact Or.inr (Nat.lt_of_le_of_lt hqr.rank_le hlt)
    · exact Or.inr (Nat.lt_of_lt_of_le hlt hpq.rank_le)

omit [LawfulDomain σ] in
/-- Joining the outflow of a reachable block in advances. -/
theorem Advances.of_outflow (hkeeps : l.Keeps Inv) {rank : σ → Nat} (hrank : Drops Inv rank)
    {p after : Progress σ} (hp : AllStates Inv p.contexts) {id : Nat} {b : Block} {s : σ}
    (hb : l.blocks[id]? = some b) (hs : p.contexts[id]? = some s)
    (hreach : Disassembly.isReachableIn p.contexts id = true)
    (hcontexts : after.contexts = absorbed p.contexts (l.outflow id b s))
    (hchanged : after.changed = false ↔
      p.changed = false ∧ ∀ f ∈ l.outflow id b s, f.Settled p.contexts) :
    Advances l rank p after := by
  have hflows : ∀ f ∈ l.outflow id b s, Inv f.block f.state :=
    hkeeps.outflow hb (hp id s hs) ((isReachableIn_iff hs).mp hreach)
  have htotal := totalRank_absorbed hkeeps.sup hrank hp hflows
  rw [← hcontexts] at htotal
  have hsame : (∀ f ∈ l.outflow id b s, f.Settled p.contexts) → after.contexts = p.contexts :=
    fun hset => hcontexts.trans (absorbed_of_settled hset)
  constructor
  case evolves =>
    rw [hcontexts]
    exact .visit .refl hb hs hreach
  case unchanged =>
    intro h
    obtain ⟨hunchanged, hset⟩ := hchanged.mp h
    exact ⟨hunchanged, hsame hset⟩
  case rank_le =>
    rcases htotal with hset | hlt
    · exact Nat.le_of_eq (congrArg _ (hsame hset))
    · exact Nat.le_of_lt hlt
  case rank_lt =>
    intro h
    rcases htotal with hset | hlt
    · -- the change was there before: this visit has changed nothing
      refine Or.inl ?_
      by_contra hbefore
      rw [hchanged.mpr ⟨Bool.eq_false_iff.mpr hbefore, hset⟩] at h
      cases h
    · exact Or.inr hlt

/-- A visit to a block does not fail. If it reports no change, the block is
quiet. -/
theorem visit_spec (hkeeps : l.Keeps Inv) {rank : σ → Nat} (hrank : Drops Inv rank)
    {p : Progress σ} (hp : AllStates Inv p.contexts) (hsize : p.contexts.size = l.blocks.size)
    (trace : Bool) {id : Nat} {b : Block} (hb : l.blocks[id]? = some b) :
    ∃ after, p.visit l trace id b = (after, .ok ()) ∧ Advances l rank p after ∧
      (after.changed = false → l.Quiet p.contexts id b) := by
  obtain ⟨s, hs⟩ : ∃ s, p.contexts[id]? = some s := by
    obtain ⟨hlt, -⟩ := Array.getElem?_eq_some_iff.mp hb
    exact ⟨_, Array.getElem?_eq_getElem (hsize ▸ hlt)⟩
  rw [visit, hs]
  dsimp only
  cases hreach : Disassembly.isReachableIn p.contexts id with
  | false =>
      -- nothing is done for a block that is not reachable so far
      refine ⟨p, by simp, .refl rank p, fun _ s' _ hreach' => ?_⟩
      rw [hreach] at hreach'
      cases hreach'
  | true =>
      rw [if_pos rfl]
      obtain ⟨t, ht⟩ := hkeeps.final hb (hp id s hs) ((isReachableIn_iff hs).mp hreach)
      obtain ⟨after, hperform, hcontexts, hchanged⟩ := perform_spec
        { p with events := p.events ++
          (if trace then [AnalysisEvent.visited id b (Domain.text s)] else []) }
        (l.blockReplay id b s).effects
      refine ⟨after, ?_, .of_outflow hkeeps hrank hp hb hs hreach hcontexts hchanged, ?_⟩
      · rw [hperform, ht]
        rfl
      · intro h s' hs' _
        obtain rfl : s = s' := Option.some.inj (hs.symm.trans hs')
        exact (hchanged.mp h).2

/-- A pass over some blocks evolves the states. If it reports no change, each of
these blocks is quiet. -/
theorem pass_spec (hkeeps : l.Keeps Inv) {rank : σ → Nat} (hrank : Drops Inv rank)
    {p : Progress σ} (hp : AllStates Inv p.contexts) (hsize : p.contexts.size = l.blocks.size)
    (trace : Bool) {blocks : List (Block × Nat)}
    (hblocks : ∀ b id, (b, id) ∈ blocks → l.blocks[id]? = some b) :
    ∃ after, p.pass l trace blocks = (after, .ok ()) ∧ Advances l rank p after ∧
      (after.changed = false → ∀ b id, (b, id) ∈ blocks → l.Quiet p.contexts id b) := by
  induction blocks generalizing p with
  | nil => exact ⟨p, rfl, .refl rank p, by simp⟩
  | cons first rest ih =>
      obtain ⟨b, id⟩ := first
      obtain ⟨middle, hvisit, hadvances, hquiet⟩ :=
        visit_spec hkeeps hrank hp hsize trace (hblocks b id List.mem_cons_self)
      obtain ⟨after, hpass, hadvances', hquiet'⟩ :=
        ih (hadvances.evolves.allStates hkeeps hp) (hadvances.evolves.size_eq.trans hsize)
          (fun b' id' h => hblocks b' id' (List.mem_cons_of_mem _ h))
      refine ⟨after, ?_, hadvances.trans hadvances', ?_⟩
      · rw [pass, hvisit]
        exact hpass
      · intro h b' id' hmem
        -- nothing had changed after the first block either, so the others were visited
        -- in the states at the start of the pass
        obtain ⟨hmiddle, -⟩ := hadvances'.unchanged h
        obtain ⟨-, hsame⟩ := hadvances.unchanged hmiddle
        rcases List.mem_cons.mp hmem with heq | hmem
        · obtain ⟨rfl, rfl⟩ := Prod.mk.inj heq
          exact hquiet hmiddle
        · rw [← hsame]
          exact hquiet' h b' id' hmem

/-- A run whose budget exceeds the rank of its states ends, and leaves states
that no visit would change. -/
theorem run_spec (hkeeps : l.Keeps Inv) {rank : σ → Nat} (hrank : Drops Inv rank)
    (trace : Bool) {budget : Nat} :
    ∀ {p : Progress σ} (done : Nat), AllStates Inv p.contexts →
      p.contexts.size = l.blocks.size → totalRank rank p.contexts < budget →
      ∃ after passes, p.run l trace done budget = (after, .ok (some passes)) ∧
        l.Evolves p.contexts after.contexts ∧ l.Stable after.contexts := by
  induction budget with
  | zero =>
      intro p done _ _ hlt
      exact absurd hlt (Nat.not_lt_zero _)
  | succ budget ih =>
      intro p done hp hsize hlt
      obtain ⟨after, hpass, hadvances, hquiet⟩ :=
        pass_spec (p := { p with changed := false }) hkeeps hrank hp hsize trace
          (fun b id h => Layout.mem_zipIdx_blocks.mp h)
      have hsize' : after.contexts.size = l.blocks.size := hadvances.evolves.size_eq.trans hsize
      rw [run, hpass]
      dsimp only
      cases hchanged : after.changed with
      | false =>
          refine ⟨_, done + 1, rfl, hadvances.evolves, fun id b hb => ?_⟩
          show l.Quiet after.contexts id b
          rw [(hadvances.unchanged hchanged).2]
          exact hquiet hchanged b id (Layout.mem_zipIdx_blocks.mpr hb)
      | true =>
          -- the pass has changed a state, so what is left of the budget is enough
          have hdrop : totalRank rank after.contexts < totalRank rank p.contexts := by
            rcases hadvances.rank_lt hchanged with h | h
            · cases h
            · exact h
          obtain ⟨last, passes, hrun, hevolves, hstable⟩ := ih
            (p := { after with events := after.events.push (.passed (done + 1) true) })
            (done + 1) (hadvances.evolves.allStates hkeeps hp) hsize' (by
              show totalRank rank after.contexts < budget
              omega)
          refine ⟨last, passes, ?_, hadvances.evolves.trans hevolves, hstable⟩
          rw [hchanged] at hrun
          rw [if_pos rfl]
          exact hrun

end Progress

end Loops

end EvmToolchain
