import EvmToolchain.Proofs.Analysis.Rest
import Mathlib.Algebra.Order.Floor.Div
import Mathlib.Logic.Function.Iterate

/-!
# EvmToolchain.Proofs.Analysis.Interrupted

A limit on passes interrupts the analysis and spoils nothing.

A pass takes the states at block entries to other ones (`Layout.passed`), and
depends on nothing else. So an analysis iterates this function until it changes
nothing (`Layout.Needs`), a limit cuts the iteration short
(`Progress.run_eq_passed`), and an analysis from the states that were left goes
on where the one before it was cut (`Layout.Needs.resume`).
-/

namespace EvmToolchain

open StackState

/-! ### Passes as a function of the states -/

namespace Layout

section

variable {σ : Type} [Domain σ] [SemilatticeSup σ]

/-- The states after a visit to a block. -/
def visited (l : Layout) (contexts : Array σ) (id : Nat) (b : Block) : Array σ :=
  match contexts[id]? with
  | some s =>
    if Disassembly.isReachableIn contexts id then absorbed contexts (l.outflow id b s)
    else contexts
  | none => contexts

/-- The states after visits to some blocks, one after the other. -/
def visitedAll (l : Layout) (contexts : Array σ) (blocks : List (Block × Nat)) : Array σ :=
  blocks.foldl (fun contexts (b, id) => l.visited contexts id b) contexts

/-- The states after a pass over all blocks. -/
def passed (l : Layout) (contexts : Array σ) : Array σ :=
  l.visitedAll contexts l.blocks.toList.zipIdx

theorem evolves_visited {l : Layout} (contexts : Array σ) {id : Nat} {b : Block}
    (hb : l.blocks[id]? = some b) : l.Evolves contexts (l.visited contexts id b) := by
  unfold visited
  split
  · next s hs =>
    split
    · next hreach => exact .visit .refl hb hs hreach
    · exact .refl
  · exact .refl

theorem evolves_visitedAll {l : Layout} (contexts : Array σ) {blocks : List (Block × Nat)}
    (hblocks : ∀ b id, (b, id) ∈ blocks → l.blocks[id]? = some b) :
    l.Evolves contexts (l.visitedAll contexts blocks) := by
  induction blocks generalizing contexts with
  | nil => exact .refl
  | cons first rest ih =>
      have hfirst := evolves_visited contexts (hblocks first.1 first.2 List.mem_cons_self)
      exact hfirst.trans (ih _ fun b id h => hblocks b id (List.mem_cons_of_mem _ h))

/-- Passes evolve the states. -/
theorem evolves_iterate (l : Layout) (contexts : Array σ) (n : Nat) :
    l.Evolves contexts (l.passed^[n] contexts) := by
  induction n with
  | zero => exact .refl
  | succ n ih =>
      rw [Function.iterate_succ_apply']
      exact ih.trans (evolves_visitedAll _ fun b id => mem_zipIdx_blocks.mp)

/-- The analysis takes a number of passes from some states: the last pass, and
none before it, changes nothing. -/
inductive Needs (l : Layout) : Array σ → Nat → Prop
  | settled {contexts : Array σ} : l.passed contexts = contexts → Needs l contexts 1
  | changed {contexts : Array σ} {n : Nat} :
      l.passed contexts ≠ contexts → Needs l (l.passed contexts) n → Needs l contexts (n + 1)

namespace Needs

variable {l : Layout} {contexts : Array σ} {n : Nat}

theorem pos (h : l.Needs contexts n) : 0 < n := by
  cases h <;> exact Nat.succ_pos _

/-- What is left to do when some passes have been made. -/
theorem resume (h : l.Needs contexts n) {m : Nat} (hm : m < n) :
    l.Needs (l.passed^[m] contexts) (n - m) := by
  induction h generalizing m with
  | settled h =>
      obtain rfl : m = 0 := Nat.lt_one_iff.mp hm
      exact .settled h
  | changed hne hrest ih =>
      cases m with
      | zero => exact .changed hne hrest
      | succ m =>
          rw [Function.iterate_succ_apply, Nat.add_sub_add_right]
          exact ih (Nat.lt_of_succ_lt_succ hm)

end Needs

end

end Layout

/-! ### Runs are iterated passes -/

namespace Progress

variable {σ : Type} [Domain σ] [SemilatticeSup σ] [LawfulDomain σ] {l : Layout} {trace : Bool}
  {p after : Progress σ}

theorem contexts_of_visit {id : Nat} {b : Block} (h : p.visit l trace id b = (after, .ok ())) :
    after.contexts = l.visited p.contexts id b := by
  unfold visit at h
  unfold Layout.visited
  split at h
  · cases h
  · next s hs =>
    rw [hs]
    dsimp only at h ⊢
    split at h
    · next hreach =>
      rw [if_pos hreach]
      obtain ⟨q, hperform, hcontexts, -⟩ := perform_spec
        { p with events := p.events ++
          (if trace then [AnalysisEvent.visited id b (Domain.text s)] else []) }
        (l.blockReplay id b s).effects
      rw [hperform] at h
      rw [← (Prod.mk.inj h).1]
      exact hcontexts
    · next hreach =>
      rw [if_neg hreach, (Prod.mk.inj h).1]

theorem contexts_of_pass {blocks : List (Block × Nat)}
    (h : p.pass l trace blocks = (after, .ok ())) :
    after.contexts = l.visitedAll p.contexts blocks := by
  induction blocks generalizing p with
  | nil => rw [← (Prod.mk.inj h).1]; rfl
  | cons first rest ih =>
      rw [pass] at h
      split at h
      · cases h
      · next middle hvisit =>
        rw [ih h, contexts_of_visit hvisit]
        rfl

variable {Inv : Nat → σ → Prop}

/-- A pass reports a change just if it makes one. -/
theorem pass_eq_passed (hkeeps : l.Keeps Inv) {rank : σ → Nat} (hrank : Drops Inv rank)
    (hp : AllStates Inv p.contexts) (hsize : p.contexts.size = l.blocks.size) (trace : Bool) :
    ∃ after, { p with changed := false }.pass l trace l.blocks.toList.zipIdx = (after, .ok ()) ∧
      after.contexts = l.passed p.contexts ∧ l.Evolves p.contexts after.contexts ∧
      (after.changed = false → after.contexts = p.contexts) ∧
      (after.changed = true → totalRank rank after.contexts < totalRank rank p.contexts) := by
  obtain ⟨after, hpass, hadvances, -⟩ := pass_spec (p := { p with changed := false }) hkeeps hrank
    hp hsize trace fun b id h => Layout.mem_zipIdx_blocks.mp h
  have hcontexts := contexts_of_pass (p := { p with changed := false }) hpass
  refine ⟨after, hpass, hcontexts, hadvances.evolves, fun h => (hadvances.unchanged h).2, fun h => ?_⟩
  exact (hadvances.rank_lt h).resolve_left Bool.false_ne_true

/-- A run makes the passes that it needs, or as many as it may. -/
theorem run_eq_passed (hkeeps : l.Keeps Inv) {rank : σ → Nat} (hrank : Drops Inv rank)
    (trace : Bool) {n : Nat} (hn : l.Needs p.contexts n) (hp : AllStates Inv p.contexts)
    (hsize : p.contexts.size = l.blocks.size) (done budget : Nat) :
    ∃ after, p.run l trace done budget
        = (after, .ok (if n ≤ budget then some (done + n) else none)) ∧
      after.contexts = l.passed^[min n budget] p.contexts := by
  induction budget generalizing p n done with
  | zero =>
      rw [if_neg (Nat.not_le.mpr hn.pos), Nat.min_zero]
      exact ⟨p, rfl, rfl⟩
  | succ budget ih =>
      obtain ⟨middle, hpass, hcontexts, hevolves, hsame, hlt⟩ :=
        pass_eq_passed hkeeps hrank hp hsize trace
      rw [run_succ, hpass]
      dsimp only
      cases hn with
      | settled hfixed =>
          have hchanged : middle.changed = false := by
            by_contra hchanged
            have := hlt (Bool.not_eq_false _ ▸ hchanged)
            rw [hcontexts, hfixed] at this
            exact Nat.lt_irrefl _ this
          rw [hchanged, if_pos (Nat.le_add_left 1 budget), Nat.min_eq_left (Nat.le_add_left 1 budget)]
          exact ⟨_, rfl, hcontexts⟩
      | @changed _ n hne hrest =>
          have hchanged : middle.changed = true := by
            by_contra hchanged
            exact hne (hcontexts ▸ hsame (Bool.not_eq_true _ ▸ hchanged))
          obtain ⟨after, hrun, hafter⟩ := ih
            (p := { middle with events := middle.events.push (.passed (done + 1) middle.changed) })
            (hcontexts ▸ hrest) (hevolves.allStates hkeeps hp) (hevolves.size_eq.trans hsize)
            (done + 1)
          simp only [Nat.add_le_add_iff_right]
          rw [if_pos hchanged, hrun, Nat.add_min_add_right, Function.iterate_succ_apply,
            ← hcontexts, Nat.add_assoc, Nat.add_comm 1 n]
          exact ⟨after, rfl, hafter⟩

/-- The passes that are needed are at most one more than the states can lose. -/
theorem exists_needs (hkeeps : l.Keeps Inv) {rank : σ → Nat} (hrank : Drops Inv rank)
    {contexts : Array σ} (hp : AllStates Inv contexts) (hsize : contexts.size = l.blocks.size) :
    ∃ n, l.Needs contexts n ∧ n ≤ totalRank rank contexts + 1 := by
  induction hr : totalRank rank contexts using Nat.strong_induction_on generalizing contexts with
  | h r ih =>
      subst hr
      obtain ⟨after, -, hcontexts, hevolves, hsame, hlt⟩ :=
        pass_eq_passed (p := { contexts }) hkeeps hrank hp hsize false
      cases hchanged : after.changed with
      | false => exact ⟨1, .settled (hcontexts ▸ hsame hchanged), Nat.le_add_left 1 _⟩
      | true =>
          have hdrop := hlt hchanged
          obtain ⟨n, hn, hle⟩ := ih _ hdrop (hevolves.allStates hkeeps hp)
            (hevolves.size_eq.trans hsize) rfl
          have hne : l.passed contexts ≠ contexts := by
            intro h
            rw [hcontexts, h] at hdrop
            exact Nat.lt_irrefl _ hdrop
          exact ⟨n + 1, .changed hne (hcontexts ▸ hn), Nat.succ_le_succ (Nat.le_trans hle hdrop)⟩

end Progress

/-! ### Analyses with a limit -/

namespace Disassembly

/-- The disassembly with a limit on the passes of its analyses, or with none. -/
def limited {σ : Type} (d : Disassembly σ) (maxPasses : Option Nat) : Disassembly σ :=
  { d with options := { d.options with maxPasses := maxPasses.map fun k => .whole k } }

/-- The disassembly after some analyses, each from the states that the one
before it has left. -/
def rebuilt {σ : Type} [Domain σ] (d : Disassembly σ) (calls : Nat) : Disassembly σ :=
  (fun d => d.build.disassembly)^[calls] d

variable {code : Bytes} {d : Disassembly StackState} {n k : Nat}

theorem Ready.limited (hd : d.Ready code) (maxPasses : Option Nat) :
    (d.limited maxPasses).Ready code :=
  ⟨hd.layout, hd.live, hd.size_eq, hd.nonneg⟩

/-- The states keep what the engine relies on. -/
theorem Ready.within (hd : d.Ready code) :
    AllStates (fun _ s => Within (0 ≤ ·) (heightBound d.contexts) s) d.contexts :=
  fun id s hs => ⟨hd.nonneg id s hs, height_le_heightBound hs⟩

/-- Visits in any order keep what the engine relies on. -/
theorem Ready.nonneg_of_evolves (hd : d.Ready code) {contexts : Array StackState}
    (h : (Layout.ofCode code).Evolves d.contexts contexts) :
    AllStates (fun _ s => s.Knows (0 ≤ ·)) contexts := by
  have hkeeps := Layout.keeps_knows code (P := (0 ≤ ·)) (fun v hv => hv.1) (fun _ => id)
    (maxStack_le_heightBound d.contexts)
  exact fun id s hs => (h.allStates hkeeps hd.within id s hs).1

theorem Ready.exists_needs (hd : d.Ready code) :
    ∃ n, (Layout.ofCode code).Needs d.contexts n ∧ n ≤ passBound d.contexts := by
  obtain ⟨n, hn, hle⟩ := Progress.exists_needs
    (Layout.keeps_knows code (fun v hv => hv.1) (fun _ => id) (maxStack_le_heightBound d.contexts))
    (rank_drops _) hd.within hd.size_eq
  exact ⟨n, hn, Nat.le_trans hle (totalRank_lt_passBound d.contexts)⟩

/-- An analysis makes the passes that it needs, or as many as it may. -/
theorem Ready.build_eq (hd : d.Ready code) (hn : (Layout.ofCode code).Needs d.contexts n)
    {allowed : Nat} (hallowed : budget d.options d.contexts = allowed) :
    d.build.disassembly
        = { d with contexts := (Layout.ofCode code).passed^[min n allowed] d.contexts } ∧
      d.build.passes = if n ≤ allowed then .ok n
        else .error (.noFixedPoint (d.options.maxPasses.getD (.whole allowed))) := by
  obtain ⟨after, hrun, hafter⟩ := Progress.run_eq_passed
    (Layout.keeps_knows code (fun v hv => hv.1) (fun _ => id) (maxStack_le_heightBound d.contexts))
    (rank_drops _) d.options.trace (p := { contexts := d.contexts }) hn hd.within hd.size_eq 0 allowed
  rw [← hd.layout, Nat.zero_add] at hrun
  rw [build, hd.live, hallowed]
  by_cases hle : n ≤ allowed
  · rw [if_pos hle] at hrun ⊢
    simp only [hrun, hafter, Bool.false_eq_true, if_false, and_self]
  · rw [if_neg hle] at hrun ⊢
    simp only [hrun, hafter, Bool.false_eq_true, if_false, and_self]

/-- The analysis could start again from the states after some passes. -/
theorem Ready.passed (hd : d.Ready code) (m : Nat) :
    Ready code { d with contexts := (Layout.ofCode code).passed^[m] d.contexts } where
  layout := hd.layout
  live := hd.live
  size_eq := (Layout.evolves_iterate _ _ m).size_eq.trans hd.size_eq
  nonneg := hd.nonneg_of_evolves (Layout.evolves_iterate _ _ m)

/-- The calls go on where the one before was cut, until no pass is left. -/
theorem Ready.rebuilt_eq (hd : d.Ready code) (hn : (Layout.ofCode code).Needs d.contexts n)
    (hk : ∀ contexts : Array StackState, budget d.options contexts = k) {m : Nat}
    (hm : m * k < n) :
    d.rebuilt m = { d with contexts := (Layout.ofCode code).passed^[m * k] d.contexts } ∧
      d.rebuilt (m + 1)
        = { d with contexts := (Layout.ofCode code).passed^[min n ((m + 1) * k)] d.contexts } ∧
      (d.rebuilt m).build.passes = if n ≤ (m + 1) * k then .ok (n - m * k)
        else .error (.noFixedPoint (d.options.maxPasses.getD (.whole k))) := by
  induction m with
  | zero =>
      obtain ⟨hbuild, hpasses⟩ := hd.build_eq hn (hk _)
      simp only [Nat.zero_mul, Nat.zero_add, Nat.one_mul, Nat.sub_zero]
      exact ⟨rfl, hbuild, hpasses⟩
  | succ m ih =>
      rw [Nat.succ_mul] at hm
      obtain ⟨-, hprevious, -⟩ := ih (by omega)
      rw [Nat.succ_mul, Nat.min_eq_right (Nat.le_of_lt hm)] at hprevious
      obtain ⟨hbuild, hpasses⟩ := (hd.passed (m * k + k)).build_eq (hn.resume hm) (hk _)
      rw [Nat.succ_mul (m + 1), Nat.succ_mul m]
      refine ⟨hprevious, ?_, ?_⟩
      · have hsum : min (n - (m * k + k)) k + (m * k + k) = min n (m * k + k + k) := by omega
        rw [rebuilt, Function.iterate_succ_apply', ← rebuilt, hprevious, hbuild,
          ← Function.iterate_add_apply, hsum]
      · have hrest : n - (m * k + k) ≤ k ↔ n ≤ m * k + k + k := by omega
        rw [hprevious, hpasses]
        simp only [hrest]

/-- A call that the limit cuts short fails, and leaves the states after all passes
so far. -/
theorem Ready.rebuilt_fails (hd : d.Ready code) (hn : (Layout.ofCode code).Needs d.contexts n)
    (hk : ∀ contexts : Array StackState, budget d.options contexts = k) {call : Nat}
    (hcall : 0 < call) (hlt : call * k < n) :
    (d.rebuilt (call - 1)).build.passes
        = .error (.noFixedPoint (d.options.maxPasses.getD (.whole k))) ∧
      (d.rebuilt call).contexts = (Layout.ofCode code).passed^[call * k] d.contexts := by
  obtain ⟨m, rfl⟩ := Nat.exists_eq_add_one.mpr hcall
  have hm : m * k < n := Nat.lt_of_le_of_lt (Nat.mul_le_mul_right k (Nat.le_succ m)) hlt
  obtain ⟨-, hstates, hpasses⟩ := hd.rebuilt_eq hn hk hm
  rw [if_neg (Nat.not_le.mpr hlt)] at hpasses
  rw [Nat.min_eq_right (Nat.le_of_lt hlt)] at hstates
  exact ⟨hpasses, by rw [hstates]⟩

/-- The call that may make all the passes that are left makes them. -/
theorem Ready.rebuilt_succeeds (hd : d.Ready code)
    (hn : (Layout.ofCode code).Needs d.contexts n)
    (hk : ∀ contexts : Array StackState, budget d.options contexts = k) {m : Nat}
    (hm : m * k < n) (hlast : n ≤ (m + 1) * k) :
    (d.rebuilt m).build.passes = .ok (n - m * k) ∧
      (d.rebuilt (m + 1)).contexts = (Layout.ofCode code).passed^[n] d.contexts := by
  obtain ⟨-, hstates, hpasses⟩ := hd.rebuilt_eq hn hk hm
  rw [if_pos hlast] at hpasses
  rw [Nat.min_eq_left hlast] at hstates
  exact ⟨hpasses, by rw [hstates]⟩

theorem isReachableIn_of_grows {before after : Array StackState} (h : Grows before after)
    {id : Nat} (hreach : isReachableIn before id = true) : isReachableIn after id = true := by
  cases hs : before[id]? with
  | none =>
      have hzero : id = 0 := by simpa [isReachableIn, hs] using hreach
      simp [isReachableIn, hzero]
  | some s =>
      obtain ⟨t, ht, hle⟩ := h id s hs
      refine (isReachableIn_iff ht).mpr (((isReachableIn_iff hs).mp hreach).imp_right fun hs => ?_)
      exact isReachable_iff.mpr (ne_bottom_of_le hle (isReachable_iff.mp hs))

/-- What is reachable stays reachable when the states grow. -/
theorem isBlockReachable_of_grows {contexts : Array StackState} (h : Grows d.contexts contexts)
    (hsize : contexts.size = d.contexts.size) {id : Int} (hreach : d.isBlockReachable id = .ok true) :
    { d with contexts }.isBlockReachable id = .ok true := by
  unfold isBlockReachable at hreach ⊢
  dsimp only
  rw [hsize]
  split at hreach
  · next hid =>
    rw [if_pos hid]
    split at hreach
    · next hlt =>
      rw [if_pos hlt]
      exact congrArg _ (isReachableIn_of_grows h (Except.ok.inj hreach))
    · cases hreach
  · cases hreach

/-- What a limit of `k` passes makes of an analysis that takes `p` passes. -/
structure Interrupts (code : Bytes) (d : Disassembly StackState) (k p : Nat) : Prop where
  /-- Without a limit the last of the passes, and none before it, changes nothing. -/
  needs : (Layout.ofCode code).Needs d.contexts p
  unlimited : (d.limited none).build.passes = .ok p ∧
    (d.limited none).build.disassembly.contexts = (Layout.ofCode code).passed^[p] d.contexts
  /-- A limit that is no smaller makes no difference. -/
  enough : p ≤ k → (d.limited k).build.passes = .ok p ∧
    (d.limited k).build.disassembly.contexts = (d.limited none).build.disassembly.contexts
  /-- A smaller limit is an error, and leaves the states after as many passes. -/
  cut : k < p → (d.limited k).build.passes = .error (.noFixedPoint (.whole k)) ∧
    (d.limited k).build.disassembly
      = { d.limited k with contexts := (Layout.ofCode code).passed^[k] d.contexts }
  /-- No state gets smaller. -/
  grows : Grows d.contexts (d.limited k).build.disassembly.contexts
  reachable : ∀ id : Int, d.isBlockReachable id = .ok true →
    (d.limited k).build.disassembly.isBlockReachable id = .ok true
  /-- Before the last of repeated calls each one fails, and the next goes on from
  what it has left. -/
  fails : ∀ call, 0 < call → call < p ⌈/⌉ k →
    ((d.limited k).rebuilt (call - 1)).build.passes = .error (.noFixedPoint (.whole k)) ∧
      ((d.limited k).rebuilt call).contexts = (Layout.ofCode code).passed^[call * k] d.contexts
  /-- The last call makes the passes that are left. -/
  succeeds : ((d.limited k).rebuilt (p ⌈/⌉ k - 1)).build.passes = .ok (p - (p ⌈/⌉ k - 1) * k) ∧
    ((d.limited k).rebuilt (p ⌈/⌉ k)).contexts = (d.limited none).build.disassembly.contexts

/-- A limit on the passes interrupts the analysis and spoils nothing. If it cuts
the analysis short, the states that are left are those after as many passes. They
have only grown, and calling again goes on from them: the call that makes the
last of the passes comes to the states of the analysis without a limit. -/
theorem build_interrupted (hd : d.Ready code) (hk : 1 ≤ k) : ∃ p, Interrupts code d k p := by
  obtain ⟨p, hp, hle⟩ := hd.exists_needs
  have hpos := hp.pos
  have hbudget : ∀ contexts : Array StackState, budget (d.limited k).options contexts = k :=
    fun _ => rfl
  have hbound : budget (d.limited none).options (d.limited none).contexts = passBound d.contexts :=
    rfl
  obtain ⟨hunlimited, hpasses⟩ := (hd.limited none).build_eq hp hbound
  obtain ⟨hlimited, hpasses'⟩ := (hd.limited k).build_eq hp (hbudget _)
  rw [Nat.min_eq_left hle] at hunlimited
  rw [if_pos hle] at hpasses
  have hevolves := Layout.evolves_iterate (Layout.ofCode code) d.contexts (min p k)
  have hceil : ∀ {c}, c < p ⌈/⌉ k ↔ c * k < p := by
    intro c
    rw [← Nat.not_le, ceilDiv_le_iff_le_mul hk, Nat.not_le, Nat.mul_comm]
  refine ⟨p, hp, ⟨hpasses, by rw [hunlimited]; rfl⟩, fun hpk => ?_, fun hkp => ?_, ?_, ?_, ?_, ?_⟩
  · rw [hlimited, hpasses', hunlimited, Nat.min_eq_left hpk, if_pos hpk]
    exact ⟨rfl, rfl⟩
  · rw [hlimited, hpasses', Nat.min_eq_right (Nat.le_of_lt hkp), if_neg (Nat.not_le.mpr hkp)]
    exact ⟨rfl, rfl⟩
  · rw [hlimited]
    exact hevolves.grows
  · intro id hreach
    rw [hlimited]
    exact isBlockReachable_of_grows (d := d.limited k) hevolves.grows hevolves.size_eq hreach
  · intro call hcall hlt
    exact (hd.limited k).rebuilt_fails hp hbudget hcall (hceil.mp hlt)
  · obtain ⟨m, hm⟩ : ∃ m, p ⌈/⌉ k = m + 1 :=
      Nat.exists_eq_add_one.mpr (hceil.mpr (by omega))
    have hfirst : m * k < p := hceil.mp (hm ▸ Nat.lt_succ_self m)
    have hlast : p ≤ (m + 1) * k := Nat.not_lt.mp fun h => by
      have := hceil.mpr h
      omega
    rw [hm, Nat.add_sub_cancel, hunlimited]
    exact (hd.limited k).rebuilt_succeeds hp hbudget hfirst hlast

/-- With a limit of one pass, the code with a jump takes two calls. -/
theorem build_interrupted_hop :
    Ready Layout.hop (ofCode Layout.hop {}) ∧ Interrupts Layout.hop (ofCode Layout.hop {}) 1 2 := by
  have hready := ready_ofCode Layout.hop {}
  obtain ⟨p, hp⟩ := build_interrupted hready (Nat.le_refl 1)
  have htwo : ((ofCode Layout.hop {} : Disassembly StackState).limited none).build.passes = .ok 2 := by
    decide +kernel
  obtain rfl : p = 2 := Except.ok.inj (hp.unlimited.1.symm.trans htwo)
  exact ⟨hready, hp⟩

end Disassembly

end EvmToolchain
