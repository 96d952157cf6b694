import EvmToolchain.Proofs.Code.Assembled
import EvmToolchain.Proofs.Machine.Steps
import EvmToolchain.Proofs.Machine.Words

/-!
# EvmToolchain.Proofs.Machine.Configs

Where runs of assembled code get to.

A configuration is what a state of the machine means: its memory is taken for
what it reads as, however far it has been grown, and the steps made so far are
left out. `Leads` says what all states of a configuration have ahead of them:
another configuration, or the end of the run, be it with an outcome of the
language or for an access to memory past the bound, which the language sees as a
trap.

For every instruction that terms are lowered to there is one lemma
(`Assembled.leads_…`) that says where it leads from where it is placed.
-/

namespace EvmToolchain

open Instruction Assembly

namespace Machine

/-! ### Runs that end -/

/-- The run from a state ends after a number of steps, and fails on any smaller
budget. -/
def EndsAfter (p : Program) (n : Nat) (s : State) (o : Outcome) : Prop :=
  ∀ limit k, runFrom p limit k s = if n ≤ k then .ok o else .error (.stepLimit limit)

namespace EndsAfter

variable {p : Program} {s t : State} {o : Outcome}

theorem of_le (h : p.code.size ≤ s.pc) : EndsAfter p 0 s ⟨.stopped, s⟩ := by
  intro limit k
  rw [if_pos (Nat.zero_le k)]
  exact runFrom_of_le h limit k

theorem of_halt {e : Ending} (hpc : s.pc < p.code.size) (hstep : step p s = .halt e t) :
    EndsAfter p 1 s ⟨e, t⟩ := by
  intro limit k
  cases k with
  | zero => exact (Steps.refl s).runFrom_stepLimit hpc limit (Nat.le_refl 0)
  | succ k =>
      rw [if_pos (Nat.le_add_left 1 k)]
      exact runFrom_of_halt hpc hstep limit k

theorem head {n : Nat} (hpc : s.pc < p.code.size) (hstep : step p s = .next t)
    (h : EndsAfter p n t o) : EndsAfter p (n + 1) s o := by
  intro limit k
  cases k with
  | zero => exact (Steps.refl s).runFrom_stepLimit hpc limit (Nat.le_refl 0)
  | succ k =>
      rw [Nat.add_comm k 1, (Steps.single hpc hstep).runFrom_add limit k, h limit k]
      simp only [Nat.add_comm 1 k, Nat.add_le_add_iff_right]

end EndsAfter

theorem Steps.exists_endsAfter {p : Program} {m n : Nat} {s t : State} {o : Outcome}
    (h : Steps p n s t) (ht : EndsAfter p m t o) : EndsAfter p (m + n) s o := by
  induction h with
  | refl => exact ht
  | head hpc hstep _ ih => exact .head hpc hstep (ih ht)

/-! ### Configurations -/

/-- How a run of the machine ends, for the language. -/
def Ending.seen : Ending → Semantics.Ending
  | .stopped => .stopped
  | .returned data => .returned data.contents
  | .reverted data => .reverted data.contents
  | .faulted _ => .trapped

/-- An outcome of the machine shows one of the language. Only a run that has
trapped may leave items on the stack. -/
structure Outcome.Shows (o : Outcome) (o' : Semantics.Outcome) : Prop where
  ending : o.ending.seen = o'.ending
  storage : o.state.storage = o'.storage
  stack : o'.ending ≠ .trapped → o.state.stack = []

/-- What a state means. -/
structure Config where
  pc : Nat
  stack : List Nat
  /-- What the memory reads as. -/
  memory : Nat → UInt8
  storage : Storage

/-- What a state means. -/
def State.config (s : State) : Config := ⟨s.pc, s.stack, s.memory.byteAt, s.storage⟩

/-- What a run gets to. -/
inductive Target
  | config (c : Config)
  | ended (o : Semantics.Outcome)
  /-- The run ends as it accesses memory past the bound. Of the stack only the
  bottom is told, since what is being computed lies on top of it. -/
  | memoryBound (stack : List Nat) (memory : Nat → UInt8) (storage : Storage)

namespace Target

variable {α β : Type}

/-- The run ends in a trap. -/
def trapped (storage : Storage) : Target := .ended ⟨.trapped, storage⟩

/-- What a run gets to by a computation that traps unless it has a result. -/
def orTrap (trap : Target) (result : Option α) (k : α → Target) : Target :=
  match result with
  | some v => k v
  | none => trap

@[simp] theorem orTrap_some (trap : Target) (v : α) (k : α → Target) :
    orTrap trap (some v) k = k v := rfl

theorem orTrap_bind (trap : Target) (result : Option α) (f : α → Option β) (k : β → Target) :
    orTrap trap (result.bind f) k = orTrap trap result fun v => orTrap trap (f v) k := by
  cases result <;> rfl

theorem orTrap_ite {q : Prop} [Decidable q] (trap : Target) (v : α) (k : α → Target) :
    orTrap trap (if q then some v else none) k = if q then k v else trap := by
  split <;> rfl

end Target

/-- From all states of a configuration the machine gets to the target. To another
configuration it gets in one step at least. -/
def Leads (p : Program) (c : Config) : Target → Prop
  | .config c' => ∀ s, s.config = c → ∃ n t, Steps p (n + 1) s t ∧ t.config = c'
  | .ended o => ∀ s, s.config = c → ∃ n o', EndsAfter p n s o' ∧ o'.Shows o
  | .memoryBound stack memory storage => ∀ s, s.config = c →
    ∃ n t, EndsAfter p n s ⟨.faulted .memoryBound, t⟩ ∧ stack <:+ t.stack ∧
      Bytes.byteAt t.memory = memory ∧ t.storage = storage

/-- To get to the one target is to get to the other. -/
def Target.Implies (T T' : Target) : Prop :=
  ∀ ⦃p : Program⦄ ⦃c : Config⦄, Leads p c T → Leads p c T'

namespace Target.Implies

variable {stack : List Nat} {memory : Nat → UInt8} {storage : Storage}

theorem refl (T : Target) : T.Implies T := fun _ _ h => h

theorem orTrap {α : Type} {trap trap' : Target} (h : trap.Implies trap') (result : Option α)
    (k : α → Target) : (Target.orTrap trap result k).Implies (.orTrap trap' result k) := by
  cases result with
  | none => exact h
  | some v => exact .refl _

theorem memoryBound {base : List Nat} (h : base <:+ stack) :
    (Target.memoryBound stack memory storage).Implies (.memoryBound base memory storage) := by
  intro p c hleads s hs
  obtain ⟨n, t, hends, hstack, ht⟩ := hleads s hs
  exact ⟨n, t, hends, h.trans hstack, ht⟩

/-- To access memory past the bound is to trap. -/
theorem trapped : (Target.memoryBound stack memory storage).Implies (.trapped storage) := by
  intro p c hleads s hs
  obtain ⟨n, t, hends, -, -, hstorage⟩ := hleads s hs
  exact ⟨n, _, hends, rfl, hstorage, fun h => absurd rfl h⟩

end Target.Implies

/-- A step gets to the target. -/
inductive Step.Meets : Step → Target → Prop
  | next (t : State) : Meets (.next t) (.config t.config)
  | halt {e : Ending} {t : State} {o : Semantics.Outcome} :
      Outcome.Shows ⟨e, t⟩ o → Meets (.halt e t) (.ended o)
  | memoryBound (t : State) :
      Meets (.halt (.faulted .memoryBound) t) (.memoryBound t.stack t.memory.byteAt t.storage)

namespace Leads

variable {p : Program} {c c' : Config} {T : Target}

theorem of_meets (hlt : c.pc < p.code.size)
    (h : ∀ s, s.config = c → (execute p (decodeAt p.code c.pc) s).Meets T) : Leads p c T := by
  have hstep : ∀ s : State, s.config = c → s.pc < p.code.size ∧ (step p s).Meets T := by
    rintro s rfl
    -- the number of steps is no part of a configuration
    refine ⟨hlt, ?_⟩
    rw [step_of_lt hlt]
    exact h { s with steps := s.steps + 1 } rfl
  cases T with
  | config c' =>
      intro s hs
      obtain ⟨hpc, hmeets⟩ := hstep s hs
      generalize hafter : step p s = after at hmeets
      cases hmeets with
      | next t => exact ⟨0, t, .single hpc hafter, rfl⟩
  | ended o =>
      intro s hs
      obtain ⟨hpc, hmeets⟩ := hstep s hs
      generalize hafter : step p s = after at hmeets
      cases hmeets with
      | halt hshows => exact ⟨1, _, .of_halt hpc hafter, hshows⟩
  | memoryBound stack memory storage =>
      intro s hs
      obtain ⟨hpc, hmeets⟩ := hstep s hs
      generalize hafter : step p s = after at hmeets
      cases hmeets with
      | memoryBound t => exact ⟨1, t, .of_halt hpc hafter, List.suffix_refl _, rfl, rfl⟩

theorem trans (h : Leads p c (.config c')) (h' : Leads p c' T) : Leads p c T := by
  cases T with
  | config c'' =>
      intro s hs
      obtain ⟨m, t, hsteps, ht⟩ := h s hs
      obtain ⟨n, u, hsteps', hu⟩ := h' t ht
      exact ⟨m + 1 + n, u, hsteps.trans hsteps', hu⟩
  | ended o =>
      intro s hs
      obtain ⟨m, t, hsteps, ht⟩ := h s hs
      obtain ⟨n, o', hends, ho'⟩ := h' t ht
      exact ⟨_, o', hsteps.exists_endsAfter hends, ho'⟩
  | memoryBound stack memory storage =>
      intro s hs
      obtain ⟨m, t, hsteps, ht⟩ := h s hs
      obtain ⟨n, u, hends, hu⟩ := h' t ht
      exact ⟨_, u, hsteps.exists_endsAfter hends, hu⟩

/-- A computation that may trap is followed by what is done with its result. -/
theorem andThen {α : Type} {trap trap' : Target} {result : Option α} {k : α → Config}
    {k' : α → Target} (h : Leads p c (.orTrap trap result fun v => .config (k v)))
    (htrap : trap.Implies trap') (h' : ∀ v, result = some v → Leads p (k v) (k' v)) :
    Leads p c (.orTrap trap' result k') := by
  cases result with
  | none => exact htrap h
  | some v => exact h.trans (h' v rfl)

end Leads

/-! ### Steps on the stack and the memory -/

namespace State

variable {s : State} {next offset : Nat}

theorem fault_meets (s : State) (f : Fault) : (s.fault f).Meets (.trapped s.storage) :=
  .halt ⟨rfl, rfl, fun h => absurd rfl h⟩

theorem push_meets (hlen : s.stack.length < maxStack) (v : Semantics.Word) :
    (s.push next v.toNat).Meets
      (.config { s.config with pc := next, stack := v.toNat :: s.stack }) := by
  rw [push, if_pos hlen, Semantics.wrap_toNat]
  exact .next _

/-- Reading a word from memory does not change what it reads as. -/
theorem load_meets (hlen : s.stack.length < maxStack) :
    (s.load next offset).Meets
      (if offset + wordBytes ≤ maxMemory then
        .config { s.config with
          pc := next
          stack := (Semantics.readWord s.memory.byteAt offset).toNat :: s.stack }
      else .memoryBound s.stack s.memory.byteAt s.storage) := by
  have htouch : s.memory.touch? offset wordBytes = s.memory.reserve? (offset + wordBytes) :=
    if_neg (by decide)
  rw [load, htouch, Memory.reserve?]
  by_cases h : offset + wordBytes ≤ maxMemory
  · rw [if_pos h, if_pos h]
    -- memory grows by zeros, which it reads as anyway
    have hbytes : Bytes.byteAt (s.memory.grow (offset + wordBytes)) = s.memory.byteAt :=
      funext fun i => Memory.byteAt_grow _ _ i
    dsimp only
    rw [← Semantics.toNat_readWord, hbytes]
    have hconfig : config { s with memory := s.memory.grow (offset + wordBytes) } = s.config := by
      rw [config, config, hbytes]
    rw [← hconfig]
    exact push_meets (s := { s with memory := s.memory.grow (offset + wordBytes) }) hlen _
  · rw [if_neg h, if_neg h]
    exact .memoryBound s

theorem store_meets (v : Semantics.Word) :
    (s.store next offset v.toNat).Meets
      (if offset + wordBytes ≤ maxMemory then
        .config { s.config with
          pc := next
          memory := Semantics.writeWord s.memory.byteAt offset v }
      else .trapped s.storage) := by
  rw [store, Memory.reserve?]
  by_cases h : offset + wordBytes ≤ maxMemory
  · have hbytes : Bytes.byteAt (s.memory.grow (offset + wordBytes)) = s.memory.byteAt :=
      funext fun i => Memory.byteAt_grow _ _ i
    have hv : v.toNat < Word.modulus := by
      rw [Semantics.modulus_eq]
      exact v.isLt
    rw [if_pos h, if_pos h]
    dsimp only
    rw [if_pos hv, ← hbytes, ← Semantics.byteAt_overwrite_word (Memory.le_size_grow _ _)]
    exact .next _
  · rw [if_neg h, if_neg h]
    exact s.fault_meets _

/-- A run that ends on an otherwise empty stack hands back what the memory reads
as. -/
theorem finish_meets {size : Nat} {ending : Bytes → Ending}
    {ending' : List UInt8 → Semantics.Ending} (hseen : ∀ b, (ending b).seen = ending' b.contents)
    (hstack : s.stack = []) :
    (s.finish offset size ending).Meets
      (if size = 0 ∨ offset + size ≤ maxMemory then
        .ended ⟨ending' ((List.range size).map fun k => s.memory.byteAt (offset + k)), s.storage⟩
      else .trapped s.storage) := by
  rw [finish, Memory.touch?]
  by_cases hsize : size = 0
  · rw [if_pos hsize, if_pos (Or.inl hsize), ← Memory.contents_slice (Or.inl hsize), ← hseen]
    exact .halt ⟨rfl, rfl, fun _ => hstack⟩
  rw [if_neg hsize, Memory.reserve?]
  by_cases h : offset + size ≤ maxMemory
  · rw [if_pos h, if_pos (Or.inr h)]
    simp only [← Memory.byteAt_grow s.memory (offset + size)]
    rw [← Memory.contents_slice (Or.inr (Memory.le_size_grow _ _)), ← hseen]
    exact .halt ⟨rfl, rfl, fun _ => hstack⟩
  · rw [if_neg h, if_neg (by omega)]
    exact s.fault_meets _

end State

end Machine

end EvmToolchain
