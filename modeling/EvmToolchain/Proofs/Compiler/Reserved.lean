import EvmToolchain.Proofs.Compiler.LabelScope

/-!
# EvmToolchain.Proofs.Compiler.Reserved

Which labels emitters allocate for their own use, also where they fail half way.

The labels that are allocated from one state of the allocator to another are
those of names and the others (`Labels.Reserved`). The latter are new, all
different, and stay without a name. The join and skip points of an emission are
the labels that its emitter hands to the code that it emits (`Emitter.Reserves`),
and these are all that it reserves (`Emitter.Reserves.reserved`).
-/

namespace EvmToolchain

open Emitter

/-! ### The allocator -/

namespace Labels

variable {ls before middle after : Labels} {name : String} {label : Nat}

/-- A label that stays anonymous was so before, if it was taken. -/
theorem Anonymous.of_grows (h : after.Anonymous label) (hgrows : before.Grows after)
    (hlt : label < before.next) : before.Anonymous label := by
  obtain ⟨more, hnames, -⟩ := hgrows.names_eq
  exact ⟨hlt, fun e he => h.unnamed e (hnames ▸ List.mem_append_left _ he)⟩

/-- An anonymous label is the one of no name. -/
theorem Anonymous.find?_ne (h : ls.Anonymous label) (name : String) :
    ls.find? name ≠ some label :=
  fun hfind => h.unnamed _ (mem_of_find? hfind) rfl

/-- From one allocator to another, these labels have been allocated besides those
of names, in this order. -/
structure Reserved (before after : Labels) (points : List Nat) : Prop where
  wellFormed : after.WellFormed
  grows : before.Grows after
  increasing : points.Pairwise (· < ·)
  mem_iff : ∀ k, k ∈ points ↔ before.next ≤ k ∧ after.Anonymous k

theorem Reserved.refl (h : ls.WellFormed) : Reserved ls ls [] where
  wellFormed := h
  grows := .refl ls
  increasing := .nil
  mem_iff k := by
    refine ⟨fun hk => absurd hk List.not_mem_nil, fun ⟨hle, hk⟩ => ?_⟩
    exact absurd hk.lt_next (Nat.not_lt.mpr hle)

theorem Reserved.trans {first second : List Nat} (h : Reserved before middle first)
    (h' : Reserved middle after second) : Reserved before after (first ++ second) where
  wellFormed := h'.wellFormed
  grows := h.grows.trans h'.grows
  increasing := by
    refine List.pairwise_append.mpr ⟨h.increasing, h'.increasing, fun j hj k hk => ?_⟩
    exact Nat.lt_of_lt_of_le ((h.mem_iff j).mp hj).2.lt_next ((h'.mem_iff k).mp hk).1
  mem_iff k := by
    rw [List.mem_append, h.mem_iff, h'.mem_iff]
    constructor
    · rintro (⟨hle, hk⟩ | ⟨hle, hk⟩)
      · exact ⟨hle, hk.mono h'.grows⟩
      · exact ⟨Nat.le_trans h.grows.next_le hle, hk⟩
    · rintro ⟨hle, hk⟩
      rcases Nat.lt_or_ge k middle.next with hlt | hge
      · exact Or.inl ⟨hle, hk.of_grows h'.grows hlt⟩
      · exact Or.inr ⟨hge, hk⟩

/-- A label that is allocated for no name is the only one reserved. -/
theorem Reserved.fresh (h : ls.WellFormed) : Reserved ls ls.fresh.2 [ls.fresh.1] where
  wellFormed := ⟨fun e he => Nat.lt_add_right 1 (h.lt_next e he), h.injective⟩
  grows :=
    ⟨Nat.le_add_right _ _, [], (List.append_nil _).symm, fun _ he => absurd he List.not_mem_nil⟩
  increasing := List.pairwise_singleton _ _
  mem_iff k := by
    rw [List.mem_singleton]
    constructor
    · rintro rfl
      exact ⟨Nat.le_refl _, Nat.lt_add_one _, fun e he => Nat.ne_of_lt (h.lt_next e he)⟩
    · rintro ⟨hle, hk⟩
      exact Nat.le_antisymm (Nat.le_of_lt_succ hk.lt_next) hle

/-- Looking up the label of a name reserves none. -/
theorem Reserved.named (h : ls.WellFormed) (name : String) :
    Reserved ls (ls.named name).2 [] := by
  obtain ⟨hwf, hgrows, hfind⟩ := h.named name
  refine ⟨hwf, hgrows, .nil, fun k => ⟨fun hk => absurd hk List.not_mem_nil, fun ⟨hle, hk⟩ => ?_⟩⟩
  -- all that may have been allocated is the label of the name
  have hname : k = (ls.named name).1 := by
    have hlt := hk.lt_next
    unfold Labels.named at hlt ⊢
    split at hlt
    · exact absurd hlt (Nat.not_lt.mpr hle)
    · exact Nat.le_antisymm (Nat.le_of_lt_succ hlt) hle
  exact absurd (hname ▸ hfind) (hk.find?_ne name)

end Labels

/-! ### Join and skip points -/

/-- The emitter allocates these labels for its own use, from the given allocator
on: they are the points that it lets its code jump to. -/
inductive Emitter.Reserves : Emitter → Labels → List Nat → Prop
  | emit (code : List Instruction) (before : Labels) : Reserves (emit code) before []
  | fail (e : CompileError) (before : Labels) : Reserves (fail e) before []
  | failed {a b : Emitter} {before : Labels} {points : List Nat} :
      (a before).failure ≠ none → Reserves a before points → Reserves (a ++ b) before points
  | append {a b : Emitter} {before : Labels} {first second : List Nat} :
      (a before).failure = none → Reserves a before first →
      Reserves b (a before).labels second → Reserves (a ++ b) before (first ++ second)
  | withFresh {k : Nat → Emitter} {before : Labels} {points : List Nat} :
      Reserves (k before.fresh.1) before.fresh.2 points →
      Reserves (withFresh k) before (before.fresh.1 :: points)
  | withNamed {name : String} {k : Nat → Emitter} {before : Labels} {points : List Nat} :
      Reserves (k (before.named name).1) (before.named name).2 points →
      Reserves (withNamed name k) before points

theorem Emitter.append_apply_of_ne {a b : Emitter} {labels : Labels}
    (h : (a labels).failure ≠ none) : (a ++ b) labels = a labels := by
  obtain ⟨e, he⟩ := Option.ne_none_iff_exists'.mp h
  exact append_apply_of_failure he

/-- What an emitter reserves is reserved by its emission. -/
theorem Emitter.Reserves.reserved {e : Emitter} {before : Labels} {points : List Nat}
    (h : e.Reserves before points) (hbefore : before.WellFormed) :
    before.Reserved (e before).labels points := by
  induction h with
  | emit code before => exact .refl hbefore
  | fail e before => exact .refl hbefore
  | failed hfailed _ ih =>
      rw [append_apply_of_ne hfailed]
      exact ih hbefore
  | append hok _ _ iha ihb =>
      rw [append_apply hok]
      exact (iha hbefore).trans (ihb (iha hbefore).wellFormed)
  | withFresh _ ih =>
      have hfresh := Labels.Reserved.fresh hbefore
      exact hfresh.trans (ih hfresh.wellFormed)
  | @withNamed name _ _ _ _ ih =>
      have hnamed := Labels.Reserved.named hbefore name
      exact hnamed.trans (ih hnamed.wellFormed)

end EvmToolchain
