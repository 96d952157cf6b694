import EvmToolchain.Proofs.Compiler.LabelUse
import EvmToolchain.Proofs.Compiler.Resolved
import Mathlib.Data.List.Nodup
import Mathlib.Data.List.Permutation

/-!
# EvmToolchain.Proofs.Compiler.AssemblyErrors

When compiled terms cannot be assembled.

Compiled terms have an encoding, so only their labels can be at fault
(`Assembly.Defect`). The points of the compiler are all placed once, and so are
no fault; what remains are the names that are labelled twice, or jumped to and
not labelled at all, and jump destinations that are too far away
(`Session.compileAll_assemble_error`).
-/

namespace EvmToolchain

open Assembly

/-- The names that label terms carry, wherever these stand among the given
terms. -/
def labelNames (terms : List Term) : List String := (subtermsAll terms).filterMap Term.labelName?

/-- The names of the jumps, wherever these stand among the given terms. -/
def jumpNames (terms : List Term) : List String := (subtermsAll terms).filterMap Term.jumpName?

namespace Session

/-- What is wrong with a program that was compiled from the given terms, as the
assembler reports it. -/
inductive Faulty (s : Session) (terms : List Term) : AssemblyError → Prop
  | placedTwice {name : String} {k : Nat} :
      s.labels.find? name = some k → 1 < (labelNames terms).count name →
      Faulty s terms (.placedTwice (labelOf k))
  | tooFar {label : Option Int} {offset : Nat} :
      LabelAt s.instructions label offset → 0x10000 ≤ offset →
      Faulty s terms (.tooFar label offset)
  | unplaced {name : String} {k : Nat} :
      s.labels.find? name = some k → name ∈ jumpNames terms → name ∉ labelNames terms →
      Faulty s terms (.unplaced (labelOf k))

/-- A label that is placed twice, or not at all, is that of a name. -/
theorem Faulty.exists_name {s : Session} {terms : List Term} {e : AssemblyError}
    {label : Option Int} (h : s.Faulty terms e)
    (he : e = .placedTwice label ∨ e = .unplaced label) :
    ∃ name k, s.labels.find? name = some k ∧ label = labelOf k := by
  cases h with
  | placedTwice hfind =>
      rcases he with he | he
      · exact ⟨_, _, hfind, (AssemblyError.placedTwice.inj he).symm⟩
      · cases he
  | tooFar => rcases he with he | he <;> cases he
  | unplaced hfind =>
      rcases he with he | he
      · cases he
      · exact ⟨_, _, hfind, (AssemblyError.unplaced.inj he).symm⟩

/-- The labels of a program that was compiled from the given terms. -/
structure Labelled (s : Session) (terms : List Term) (points : List Nat) : Prop where
  reserved : Labels.Reserved {} s.labels points
  assemblable : ∀ i ∈ s.instructions, i.Assemblable
  placed : ∃ ids, s.labels.Assigns (labelNames terms) ids ∧
    (placedLabels s.instructions).Perm ((points ++ ids).map labelOf)
  pushed : ∃ ids, s.labels.Assigns (jumpNames terms) ids ∧
    ∀ label, label ∈ pushedLabels s.instructions ↔ label ∈ (points ++ ids).map labelOf

theorem labelled_of_compileAll {options : CompilerOptions} {terms : List Term} {s : Session}
    (h : ({ options } : Session).compileAll terms = (s, .ok ())) :
    ∃ points, (lowerAll options terms).Reserves {} points ∧ s.Labelled terms points := by
  obtain ⟨code, hcode, hinstructions⟩ := compileAll_ok h
  obtain ⟨points, hpoints, hplaced⟩ := accounts_lowerAll options terms {} Labels.wellFormed_initial
  have hreserved := hpoints.reserved Labels.wellFormed_initial
  have hfed := emitsFed_lowerAll options terms {}
  rw [List.nil_append] at hinstructions
  rw [hcode] at hplaced hreserved hfed
  subst hinstructions
  refine ⟨points, hpoints, hreserved, hfed.assemblable, hplaced.placed_eq rfl, ?_⟩
  obtain ⟨ids, hids, hpushed⟩ := hplaced.pushed_iff rfl
  exact ⟨ids, hids, fun label => (hpushed label).trans (or_iff_right List.not_mem_nil)⟩

namespace Labelled

variable {s : Session} {terms : List Term} {points : List Nat} {name : String} {k : Nat}
  {label : Option Int}

/-- A point is the label of no name. -/
theorem anonymous (h : s.Labelled terms points) (hk : k ∈ points) : s.labels.Anonymous k :=
  ((h.reserved.mem_iff k).mp hk).2

/-- A point is placed once. -/
theorem count_point (h : s.Labelled terms points) (hk : k ∈ points) :
    (placedLabels s.instructions).count (labelOf k) = 1 := by
  obtain ⟨ids, hids, hplaced⟩ := h.placed
  rw [hplaced.count_eq, count_points (h.anonymous hk) hids.named]
  exact List.count_eq_one_of_mem (h.reserved.increasing.imp Nat.ne_of_lt) hk

/-- The label of a name is placed as often as there are label terms for it. -/
theorem count_name (h : s.Labelled terms points) (hfind : s.labels.find? name = some k) :
    (placedLabels s.instructions).count (labelOf k) = (labelNames terms).count name := by
  obtain ⟨ids, hids, hplaced⟩ := h.placed
  have hpoint : k ∉ points := fun hk => (h.anonymous hk).find?_ne name hfind
  rw [hplaced.count_eq, count_labelOf, List.count_append, List.count_eq_zero_of_not_mem hpoint,
    Nat.zero_add, hids.count_eq h.reserved.wellFormed hfind]

/-- What is placed is a point or the label of a label term. -/
theorem of_mem_placed (h : s.Labelled terms points) (hlabel : label ∈ placedLabels s.instructions) :
    (∃ k ∈ points, label = labelOf k) ∨
      ∃ name ∈ labelNames terms, ∃ k, s.labels.find? name = some k ∧ label = labelOf k := by
  obtain ⟨ids, hids, hplaced⟩ := h.placed
  exact hids.point_or_name (hplaced.mem_iff.mp hlabel)

/-- What is pushed is a point or the label of a jump. -/
theorem of_mem_pushed (h : s.Labelled terms points) (hlabel : label ∈ pushedLabels s.instructions) :
    (∃ k ∈ points, label = labelOf k) ∨
      ∃ name ∈ jumpNames terms, ∃ k, s.labels.find? name = some k ∧ label = labelOf k := by
  obtain ⟨ids, hids, hpushed⟩ := h.pushed
  exact hids.point_or_name ((hpushed label).mp hlabel)

theorem exists_label (h : s.Labelled terms points) (hname : name ∈ labelNames terms) :
    ∃ k, s.labels.find? name = some k := by
  obtain ⟨ids, hids, -⟩ := h.placed
  obtain ⟨k, -, hk⟩ := hids.exists_id name hname
  exact ⟨k, hk⟩

theorem exists_pushed (h : s.Labelled terms points) (hname : name ∈ jumpNames terms) :
    ∃ k, s.labels.find? name = some k ∧ labelOf k ∈ pushedLabels s.instructions := by
  obtain ⟨ids, hids, hpushed⟩ := h.pushed
  obtain ⟨k, hmem, hk⟩ := hids.exists_id name hname
  exact ⟨k, hk, (hpushed _).mpr (List.mem_map_of_mem (List.mem_append_right _ hmem))⟩

/-- The defects of the program are what is wrong with the terms. -/
theorem defect_iff (h : s.Labelled terms points) {e : AssemblyError} :
    Defect s.instructions e ↔ s.Faulty terms e := by
  constructor
  · rintro (hcount | ⟨hat, hlimit⟩ | ⟨hpushed, hmissing⟩)
    · have hmem := List.count_pos_iff.mp (Nat.zero_lt_of_lt hcount)
      rcases h.of_mem_placed hmem with ⟨k, hk, rfl⟩ | ⟨name, -, k, hfind, rfl⟩
      · rw [h.count_point hk] at hcount
        exact absurd hcount (Nat.lt_irrefl 1)
      · rw [h.count_name hfind] at hcount
        exact .placedTwice hfind hcount
    · exact .tooFar hat hlimit
    · rcases h.of_mem_pushed hpushed with ⟨k, hk, rfl⟩ | ⟨name, hname, k, hfind, rfl⟩
      · have hplaced := List.count_eq_zero_of_not_mem hmissing
        rw [h.count_point hk] at hplaced
        cases hplaced
      · refine .unplaced hfind hname fun hlabel => hmissing ?_
        rw [← List.count_pos_iff, h.count_name hfind]
        exact List.count_pos_iff.mpr hlabel
  · rintro (⟨hfind, hcount⟩ | ⟨hat, hlimit⟩ | ⟨hfind, hname, hmissing⟩)
    · exact .placedTwice (by rwa [h.count_name hfind])
    · exact .tooFar hat hlimit
    · obtain ⟨k, hk, hpushed⟩ := h.exists_pushed hname
      obtain rfl := Option.some.inj (hk.symm.trans hfind)
      refine .unplaced hpushed fun hplaced => hmissing ?_
      rw [← List.count_pos_iff, h.count_name hfind] at hplaced
      exact List.count_pos_iff.mp hplaced

end Labelled

/-- A program that was compiled from any terms is rejected exactly if a name is
labelled twice, or a jump destination lies too far into the code, or a name is
jumped to and not labelled. What is reported is one of these faults. The points
that the compiler makes for itself never cause an error: each of them is placed
once. -/
theorem compileAll_assemble_error {options : CompilerOptions} {terms : List Term} {s : Session}
    (hcompile : ({ options } : Session).compileAll terms = (s, .ok ())) :
    ((∃ e, s.assemble = .error e) ↔
      (∃ name, 1 < (labelNames terms).count name) ∨
      (∃ label offset, LabelAt s.instructions label offset ∧ 0x10000 ≤ offset) ∨
      ∃ name ∈ jumpNames terms, name ∉ labelNames terms) ∧
    (∀ e, s.assemble = .error e → s.Faulty terms e) ∧
    ∃ points, (lowerAll options terms).Reserves {} points ∧ ∀ k ∈ points,
      (placedLabels s.instructions).count (labelOf k) = 1 ∧
      s.assemble ≠ .error (.placedTwice (labelOf k)) ∧
      s.assemble ≠ .error (.unplaced (labelOf k)) := by
  obtain ⟨points, hpoints, h⟩ := labelled_of_compileAll hcompile
  have hfaulty : ∀ e, s.assemble = .error e → s.Faulty terms e :=
    fun e he => h.defect_iff.mp (defect_of_error h.assemblable he)
  have hpoint : ∀ k ∈ points, ∀ e, e = .placedTwice (labelOf k) ∨ e = .unplaced (labelOf k) →
      s.assemble ≠ .error e := by
    intro k hk e he herror
    obtain ⟨name, k', hfind, hlabel⟩ := (hfaulty e herror).exists_name he
    obtain rfl := labelOf_injective hlabel
    exact (h.anonymous hk).find?_ne name hfind
  refine ⟨?_, hfaulty, points, hpoints, fun k hk =>
    ⟨h.count_point hk, hpoint k hk _ (Or.inl rfl), hpoint k hk _ (Or.inr rfl)⟩⟩
  rw [assemble, exists_error_iff h.assemblable]
  simp only [h.defect_iff]
  constructor
  · rintro ⟨e, ⟨-, hcount⟩ | ⟨hat, hlimit⟩ | ⟨-, hname, hmissing⟩⟩
    · exact Or.inl ⟨_, hcount⟩
    · exact Or.inr (Or.inl ⟨_, _, hat, hlimit⟩)
    · exact Or.inr (Or.inr ⟨_, hname, hmissing⟩)
  · rintro (⟨name, hcount⟩ | ⟨label, offset, hat, hlimit⟩ | ⟨name, hname, hmissing⟩)
    · obtain ⟨k, hk⟩ := h.exists_label (List.count_pos_iff.mp (Nat.zero_lt_of_lt hcount))
      exact ⟨_, .placedTwice hk hcount⟩
    · exact ⟨_, .tooFar hat hlimit⟩
    · obtain ⟨k, hk, -⟩ := h.exists_pushed hname
      exact ⟨_, .unplaced hk hname hmissing⟩

/-- A label that is placed twice, once in the condition of an assertion. -/
theorem compileAll_assemble_error_nested :
    ∃ s, ({} : Session).compileAll [.assert (.label "again"), .label "again"] = (s, .ok ()) ∧
      1 < (labelNames [.assert (.label "again"), .label "again"]).count "again" ∧
      ∃ e, s.assemble = .error e := by
  have hcompile : ({} : Session).compileAll [.assert (.label "again"), .label "again"]
      = ({ labels := { next := 2, names := [("again", 1)] }
           instructions := [.jumpdest 1, .pushLabel 0, .op .jumpi, .op .invalid, .jumpdest 0,
             .jumpdest 1] }, .ok ()) := by
    cbv
  have hcount : 1 < (labelNames [.assert (.label "again"), .label "again"]).count "again" := by
    decide
  exact ⟨_, hcompile, hcount, (compileAll_assemble_error hcompile).1.mpr (Or.inl ⟨_, hcount⟩)⟩

end Session

end EvmToolchain
