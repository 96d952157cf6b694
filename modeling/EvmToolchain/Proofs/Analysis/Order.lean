import EvmToolchain.Analysis.StackState
import Mathlib.Order.CompleteLattice.Lemmas
import Mathlib.Order.ConditionallyCompleteLattice.Basic

/-!
# EvmToolchain.Proofs.Analysis.Order

The order of the constant-stack domain, from what is known most precisely up.

Nothing is below the state that no execution reaches. A stack is below another
one when it tracks at least the slots which that one tracks, and agrees with it
on every slot that it knows. Merging is the join of this order
(`LawfulDomain.merge_fst`) and reports a change exactly when the merged state was
not below already (`StackState.merge_snd_eq_false_iff`). So states can be merged
in any order (`StackState.mergeAll_perm`).

The engine needs no more of a domain than that: `LawfulDomain` says it for any
domain, and both domains at hand are lawful.
-/

namespace EvmToolchain

namespace Slot

/-- A slot is below those that know nothing else of it. -/
instance : PartialOrder Slot where
  le a b := b = .unknown ∨ a = b
  le_refl _ := Or.inr rfl
  le_trans a b c hab hbc := by
    rcases hbc with rfl | rfl
    · exact Or.inl rfl
    · exact hab
  le_antisymm a b hab hba := by
    rcases hab with rfl | rfl
    · rcases hba with rfl | rfl <;> rfl
    · rfl

/-- A known value is all that is below it. -/
theorem eq_of_le_known {a : Slot} {v : Int} (h : a ≤ .known v) : a = .known v := by
  rcases h with h | h
  · cases h
  · exact h

instance : SemilatticeSup Slot where
  sup := join
  le_sup_left a b := by
    by_cases h : a = b
    · exact Or.inr (by rw [join, if_pos h])
    · exact Or.inl (by rw [join, if_neg h])
  le_sup_right a b := by
    by_cases h : a = b
    · exact Or.inr (by rw [join, if_pos h, h])
    · exact Or.inl (by rw [join, if_neg h])
  sup_le a b c hac hbc := by
    rcases hac with rfl | rfl
    · exact Or.inl rfl
    · rcases hbc with rfl | rfl
      · exact Or.inl rfl
      · exact Or.inr (join_self _)

end Slot

namespace StackState

/-- A state is below another one when that one tracks no more slots, and every
slot which that one knows has the same value in this one. -/
def Below : StackState → StackState → Prop
  | bottom, _ => True
  | stack _, bottom => False
  | stack a, stack b =>
    b.length ≤ a.length ∧
      ∀ (n : Nat) (slot : Slot), b[n]? = some slot → slot = .unknown ∨ a[n]? = some slot

instance : LE StackState := ⟨Below⟩

@[simp] theorem bottom_le (s : StackState) : bottom ≤ s := by
  cases s <;> trivial

theorem stack_le_iff {a b : List Slot} :
    stack a ≤ stack b ↔
      b.length ≤ a.length ∧
        ∀ (n : Nat) (slot : Slot), b[n]? = some slot → slot = .unknown ∨ a[n]? = some slot :=
  Iff.rfl

@[simp] theorem not_stack_le_bottom (a : List Slot) : ¬ stack a ≤ bottom := fun h => h

/-- What is above a reached state is reached. -/
theorem ne_bottom_of_le {s t : StackState} (h : s ≤ t) (hs : s ≠ bottom) : t ≠ bottom := by
  cases s with
  | bottom => exact absurd rfl hs
  | stack a =>
      rintro rfl
      exact not_stack_le_bottom a h

theorem isReachable_iff {s : StackState} : Domain.isReachable s = true ↔ s ≠ bottom := by
  cases s with
  | bottom => exact ⟨fun h => absurd h (by decide), fun h => absurd rfl h⟩
  | stack slots => exact ⟨fun _ => StackState.noConfusion, fun _ => rfl⟩

/-- What is above a stack is a stack. -/
theorem exists_of_stack_le {a : List Slot} {s : StackState} (h : stack a ≤ s) :
    ∃ b, s = stack b := by
  cases s with
  | bottom => exact absurd h (not_stack_le_bottom a)
  | stack b => exact ⟨b, rfl⟩

/-- A slot known above is known below. -/
theorem getElem?_of_le {a b : List Slot} (h : stack a ≤ stack b) {n : Nat} {v : Int}
    (hb : b[n]? = some (.known v)) : a[n]? = some (.known v) := by
  rcases h.2 n _ hb with hslot | ha
  · cases hslot
  · exact ha

instance : PartialOrder StackState where
  le_refl s := by
    cases s with
    | bottom => exact bottom_le _
    | stack a => exact ⟨Nat.le_refl _, fun n slot h => Or.inr h⟩
  le_trans s t u hst htu := by
    cases s with
    | bottom => exact bottom_le _
    | stack a =>
        obtain ⟨b, rfl⟩ := exists_of_stack_le hst
        obtain ⟨c, rfl⟩ := exists_of_stack_le htu
        refine ⟨Nat.le_trans htu.1 hst.1, fun n slot h => ?_⟩
        rcases htu.2 n slot h with rfl | hb
        · exact Or.inl rfl
        · exact hst.2 n slot hb
  le_antisymm s t hst hts := by
    cases s with
    | bottom =>
        cases t with
        | bottom => rfl
        | stack b => exact absurd hts (not_stack_le_bottom b)
    | stack a =>
        obtain ⟨b, rfl⟩ := exists_of_stack_le hst
        congr 1
        refine List.ext_getElem? fun n => ?_
        have hlen : a.length = b.length := Nat.le_antisymm hts.1 hst.1
        rcases Nat.lt_or_ge n a.length with hn | hn
        · obtain ⟨x, hx⟩ : ∃ x, a[n]? = some x := ⟨_, List.getElem?_eq_getElem hn⟩
          obtain ⟨y, hy⟩ : ∃ y, b[n]? = some y := ⟨_, List.getElem?_eq_getElem (hlen ▸ hn)⟩
          rcases hst.2 n y hy with rfl | hxy
          · rcases hts.2 n x hx with rfl | hyx
            · rw [hx, hy]
            · rw [hx, hyx]
          · rw [hxy, hy]
        · rw [List.getElem?_eq_none hn, List.getElem?_eq_none (hlen ▸ hn)]

/-! ### Merging is the join -/

/-- The merge of two stacks is the joined common part, whether or not that
changes the first one. -/
theorem merge_stack (a b : List Slot) :
    ((stack a).merge (stack b)).1 = stack (List.zipWith Slot.join a b) := by
  simp only [merge]
  split
  · next h => rw [h]
  · rfl

theorem getElem?_zipWith_join {a b : List Slot} {n : Nat} {slot : Slot} :
    (List.zipWith Slot.join a b)[n]? = some slot ↔
      ∃ x y, a[n]? = some x ∧ b[n]? = some y ∧ x.join y = slot :=
  List.getElem?_zipWith_eq_some

instance : SemilatticeSup StackState where
  sup s t := (s.merge t).1
  le_sup_left s t := by
    cases s with
    | bottom => exact bottom_le _
    | stack a =>
        cases t with
        | bottom => exact le_refl (stack a)
        | stack b =>
            rw [merge_stack]
            refine ⟨by simp, fun n slot h => ?_⟩
            obtain ⟨x, y, hx, -, rfl⟩ := getElem?_zipWith_join.mp h
            rcases (le_sup_left : x ≤ x ⊔ y) with hu | heq
            · exact Or.inl hu
            · exact Or.inr (hx.trans (congrArg some heq))
  le_sup_right s t := by
    cases t with
    | bottom => exact bottom_le _
    | stack b =>
        cases s with
        | bottom => exact le_refl (stack b)
        | stack a =>
            rw [merge_stack]
            refine ⟨by simp, fun n slot h => ?_⟩
            obtain ⟨x, y, -, hy, rfl⟩ := getElem?_zipWith_join.mp h
            rcases (le_sup_right : y ≤ x ⊔ y) with hu | heq
            · exact Or.inl hu
            · exact Or.inr (hy.trans (congrArg some heq))
  sup_le s t u hsu htu := by
    cases s with
    | bottom =>
        cases t with
        | bottom => exact bottom_le _
        | stack b => exact htu
    | stack a =>
        cases t with
        | bottom => exact hsu
        | stack b =>
            obtain ⟨c, rfl⟩ := exists_of_stack_le hsu
            rw [merge_stack]
            refine ⟨by simpa using ⟨hsu.1, htu.1⟩, fun n slot h => ?_⟩
            rcases hsu.2 n slot h with rfl | ha
            · exact Or.inl rfl
            · rcases htu.2 n slot h with rfl | hb
              · exact Or.inl rfl
              · exact Or.inr (getElem?_zipWith_join.mpr ⟨slot, slot, ha, hb, Slot.join_self slot⟩)

@[simp] theorem bottom_sup (s : StackState) : bottom ⊔ s = s := sup_eq_right.mpr (bottom_le s)

@[simp] theorem sup_bottom (s : StackState) : s ⊔ bottom = s := sup_eq_left.mpr (bottom_le s)

theorem sup_stack (a b : List Slot) :
    stack a ⊔ stack b = stack (List.zipWith Slot.join a b) := merge_stack a b

/-- Merging reports no change exactly when there was nothing to merge. -/
theorem merge_snd_eq_false_iff {s t : StackState} : (s.merge t).2 = false ↔ t ≤ s := by
  cases t with
  | bottom => simp [merge]
  | stack b =>
      cases s with
      | bottom => simp [merge]
      | stack a =>
          rw [← sup_eq_left, sup_stack, stack.injEq, merge]
          split <;> simp_all

/-! ### Merging many states -/

/-- The state after others were merged into it, one after the other. -/
def mergeAll (s : StackState) (ts : List StackState) : StackState :=
  ts.foldl (fun s t => (s.merge t).1) s

/-- Merging states one after the other yields the least state above all of them. -/
theorem mergeAll_le_iff {s u : StackState} {ts : List StackState} :
    s.mergeAll ts ≤ u ↔ ∀ t ∈ s :: ts, t ≤ u := by
  induction ts generalizing s with
  | nil => rw [mergeAll, List.foldl_nil, List.forall_mem_singleton]
  | cons t ts ih =>
      have hcons : s.mergeAll (t :: ts) = (s ⊔ t).mergeAll ts := rfl
      rw [hcons, ih, List.forall_mem_cons, List.forall_mem_cons, List.forall_mem_cons, sup_le_iff,
        and_assoc]

theorem mergeAll_perm {s s' : StackState} {ts ts' : List StackState}
    (h : (s :: ts).Perm (s' :: ts')) : s.mergeAll ts = s'.mergeAll ts' := by
  refine eq_of_forall_ge_iff fun u => ?_
  rw [mergeAll_le_iff, mergeAll_le_iff]
  exact forall_congr' fun t => by rw [h.mem_iff]

/-- Merging is the join of a semilattice, whatever the heights of the states: the
merge of a state with another one is the least state above both, and a change is
reported exactly if the state is another one afterwards. The join is commutative,
associative and idempotent, and nothing changes by the state that no execution
reaches. So states that are merged in any order yield the same state. -/
theorem merge_semilattice (a b c : StackState) :
    IsLUB {a, b} (a.merge b).1 ∧
      ((a.merge b).2 = true ↔ (a.merge b).1 ≠ a) ∧
      (a.merge b).1 = (b.merge a).1 ∧
      ((a.merge b).1.merge c).1 = (a.merge (b.merge c).1).1 ∧
      (a.merge a).1 = a ∧ (a.merge bottom).1 = a ∧ (bottom.merge a).1 = a ∧
      ∀ ts b' ts', (b :: ts).Perm (b' :: ts') → b.mergeAll ts = b'.mergeAll ts' := by
  refine ⟨isLUB_pair, ?_, sup_comm a b, sup_assoc a b c, sup_idem a, sup_bottom a, bottom_sup a,
    fun _ _ _ => mergeAll_perm⟩
  have hmerge : (a.merge b).1 = a ⊔ b := rfl
  rw [← Bool.not_eq_false, merge_snd_eq_false_iff, hmerge, Ne, sup_eq_left]

/-- Stacks of three heights, and a state that no execution reaches. -/
theorem merge_semilattice_heights :
    [stack [.known 1, .known 2, .known 3], bottom, stack [.known 1], stack [.known 1, .known 4]].Perm
        [bottom, stack [.known 1, .known 4], stack [.known 1, .known 2, .known 3],
          stack [.known 1]] ∧
      (stack [.known 1, .known 2, .known 3]).mergeAll
          [bottom, stack [.known 1], stack [.known 1, .known 4]]
        = bottom.mergeAll [stack [.known 1, .known 4], stack [.known 1, .known 2, .known 3],
            stack [.known 1]] ∧
      bottom.mergeAll [stack [.known 1, .known 4], stack [.known 1, .known 2, .known 3],
          stack [.known 1]] = stack [.known 1] := by
  have hperm : [stack [.known 1, .known 2, .known 3], bottom, stack [.known 1],
      stack [.known 1, .known 4]].Perm [bottom, stack [.known 1, .known 4],
        stack [.known 1, .known 2, .known 3], stack [.known 1]] := by decide
  obtain ⟨-, -, -, -, -, -, -, horder⟩ :=
    merge_semilattice bottom (stack [.known 1, .known 2, .known 3]) bottom
  exact ⟨hperm, horder _ _ _ hperm, rfl⟩

end StackState

/-! ### Lawful domains -/

/-- A domain whose states can all be merged, whose merge is the join of an
order, and which reports changes exactly. -/
class LawfulDomain (σ : Type) [Domain σ] [SemilatticeSup σ] : Prop where
  accepts_eq (s t : σ) : Domain.accepts s t = true
  merge_fst (s t : σ) : (Domain.merge s t).1 = s ⊔ t
  merge_snd {s t : σ} : (Domain.merge s t).2 = false ↔ t ≤ s

instance : LawfulDomain StackState where
  accepts_eq _ _ := rfl
  merge_fst _ _ := rfl
  merge_snd := StackState.merge_snd_eq_false_iff

instance : LawfulDomain Unit where
  accepts_eq _ _ := rfl
  merge_fst _ _ := rfl
  merge_snd := by
    intro s t
    exact ⟨fun _ => le_refl _, fun _ => rfl⟩

end EvmToolchain
