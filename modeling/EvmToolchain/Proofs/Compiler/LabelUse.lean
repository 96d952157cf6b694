import EvmToolchain.Proofs.Code.Defects
import EvmToolchain.Proofs.Compiler.Reserved
import Mathlib.Data.List.Count
import Mathlib.Data.List.Forall2
import Mathlib.Data.List.Perm.Subperm

/-!
# EvmToolchain.Proofs.Compiler.LabelUse

Which labels lowered code places and pushes.

An emission accounts for its labels (`Emission.Accounts`) if the labels that its
code places are its points and the labels of names: each point at most once, and
if nothing fails exactly once, just as the label of each label term. What it
pushes are its points, the labels of the jumps among its terms, and the labels
that it was given to jump to. Every term is lowered to an emitter that accounts
for the labels of all its subterms (`Term.accounts_lower`), as each of them is
lowered just once.
-/

namespace EvmToolchain

open Emitter Assembly

/-! ### Labels of names -/

namespace Labels

variable {ls before after : Labels} {name : String} {label : Nat}

/-- The allocator has assigned these labels to these names. -/
def Assigns (ls : Labels) (names : List String) (ids : List Nat) : Prop :=
  List.Forall₂ (fun name id => ls.find? name = some id) names ids

theorem Assigns.mono {names : List String} {ids : List Nat} (h : before.Assigns names ids)
    (hgrows : before.Grows after) : after.Assigns names ids :=
  List.Forall₂.imp (fun _ _ => hgrows.find?) h

theorem Assigns.append {names names' : List String} {ids ids' : List Nat}
    (h : ls.Assigns names ids) (h' : ls.Assigns names' ids') :
    ls.Assigns (names ++ names') (ids ++ ids') := List.rel_append h h'

/-- Assigned labels are those of names. -/
theorem Assigns.exists_name {names : List String} {ids : List Nat} (h : ls.Assigns names ids) :
    ∀ id ∈ ids, ∃ name ∈ names, ls.find? name = some id := by
  induction h with
  | nil => exact List.forall_mem_nil _
  | @cons name id names ids hname _ ih =>
      refine List.forall_mem_cons.mpr ⟨⟨name, List.mem_cons_self, hname⟩, fun id' hid => ?_⟩
      obtain ⟨name', hmem, hfind⟩ := ih id' hid
      exact ⟨name', List.mem_cons_of_mem _ hmem, hfind⟩

theorem Assigns.named {names : List String} {ids : List Nat} (h : ls.Assigns names ids) :
    ∀ id ∈ ids, ∃ name, ls.find? name = some id :=
  fun id hid => (h.exists_name id hid).imp fun _ => And.right

theorem Assigns.exists_id {names : List String} {ids : List Nat} (h : ls.Assigns names ids) :
    ∀ name ∈ names, ∃ id ∈ ids, ls.find? name = some id := by
  induction h with
  | nil => exact List.forall_mem_nil _
  | @cons name id names ids hname _ ih =>
      refine List.forall_mem_cons.mpr ⟨⟨id, List.mem_cons_self, hname⟩, fun name' hmem => ?_⟩
      obtain ⟨id', hid, hfind⟩ := ih name' hmem
      exact ⟨id', List.mem_cons_of_mem _ hid, hfind⟩

/-- The label of a name is assigned as often as the name is listed. -/
theorem Assigns.count_eq {names : List String} {ids : List Nat} (h : ls.Assigns names ids)
    (hls : ls.WellFormed) (hfind : ls.find? name = some label) :
    ids.count label = names.count name := by
  induction h with
  | nil => rfl
  | @cons name' id names ids hname _ ih =>
      rw [List.count_cons, List.count_cons, ih]
      congr 1
      by_cases heq : name' = name
      · subst heq
        obtain rfl := Option.some.inj (hname.symm.trans hfind)
        simp
      · have hne : id ≠ label := by
          rintro rfl
          exact heq (hls.eq_of_find? hname hfind)
        simp [heq, hne]

end Labels

/-- The name that a term labels. -/
def Term.labelName? : Term → Option String
  | .label name => some name
  | _ => none

/-- The name that a term jumps to. -/
def Term.jumpName? : Term → Option String
  | .goto name => some name
  | .ifGoto _ name => some name
  | _ => none

mutual

/-- The terms that a term consists of, itself first and the others in the order
in which they are lowered. -/
def Term.subterms : Term → List Term
  | .assert condition => .assert condition :: condition.subterms
  | .assign target value => .assign target value :: (value.subterms ++ target.subterms)
  | .fail => [.fail]
  | .goto name => [.goto name]
  | .ifGoto condition name => .ifGoto condition name :: condition.subterms
  | .label name => [.label name]
  | .revert values => .revert values :: subtermsAll values
  | .succeed values => .succeed values :: subtermsAll values
  | .stop => [.stop]
  | .arithmetic op lhs rhs => .arithmetic op lhs rhs :: (rhs.subterms ++ lhs.subterms)
  | .connective op lhs rhs => .connective op lhs rhs :: (lhs.subterms ++ rhs.subterms)
  | .access source index => .access source index :: (source.subterms ++ index.subterms)
  | .region r => [.region r]
  | .literal l => [.literal l]
  | .unknown => [.unknown]

/-- The terms that some terms consist of. -/
def subtermsAll : List Term → List Term
  | [] => []
  | t :: rest => t.subterms ++ subtermsAll rest

end

/-! ### Emissions -/

/-- A label as instructions carry it. -/
def labelOf (k : Nat) : Option Int := some (k : Int)

theorem labelOf_injective : Function.Injective labelOf :=
  fun _ _ h => Int.ofNat_inj.mp (Option.some.inj h)

theorem count_labelOf (k : Nat) (ks : List Nat) :
    (ks.map labelOf).count (labelOf k) = ks.count k :=
  List.count_map_of_injective ks labelOf labelOf_injective k

/-- The labels of names do not count for a label that has none. -/
theorem count_points {ls : Labels} {k : Nat} (hk : ls.Anonymous k) {points ids : List Nat}
    (hids : ∀ id ∈ ids, ∃ name, ls.find? name = some id) :
    ((points ++ ids).map labelOf).count (labelOf k) = points.count k := by
  have hnot : k ∉ ids := by
    intro hmem
    obtain ⟨name, hname⟩ := hids k hmem
    exact hk.find?_ne name hname
  rw [count_labelOf, List.count_append, List.count_eq_zero_of_not_mem hnot, Nat.add_zero]

/-- What is among the points and the assigned labels is a point or the label of a
name. -/
theorem Labels.Assigns.point_or_name {ls : Labels} {names : List String} {points ids : List Nat}
    (h : ls.Assigns names ids) {label : Option Int} (hlabel : label ∈ (points ++ ids).map labelOf) :
    (∃ k ∈ points, label = labelOf k) ∨
      ∃ name ∈ names, ∃ k, ls.find? name = some k ∧ label = labelOf k := by
  obtain ⟨k, hk, rfl⟩ := List.mem_map.mp hlabel
  rcases List.mem_append.mp hk with hk | hk
  · exact Or.inl ⟨k, hk, rfl⟩
  · obtain ⟨name, hmem, hname⟩ := h.exists_name k hk
    exact Or.inr ⟨name, hmem, k, hname, rfl⟩

/-- What the code of an emission does with labels: it was made for some terms,
with points of its own, and with other labels to jump to. -/
structure Emission.Accounts (r : Emission) (ts : List Term) (targets : List Int)
    (points : List Nat) : Prop where
  /-- Each point is placed at most once, and besides them labels of names. -/
  placed : ∃ ids, (∀ id ∈ ids, ∃ name, r.labels.find? name = some id) ∧
    (placedLabels r.code).Subperm ((points ++ ids).map labelOf)
  /-- If nothing fails, each point is placed once, and so is the label of each
  label term. -/
  placed_eq : r.failure = none → ∃ ids, r.labels.Assigns (ts.filterMap Term.labelName?) ids ∧
    (placedLabels r.code).Perm ((points ++ ids).map labelOf)
  /-- If nothing fails, what is pushed are the points, the given labels, and those
  of the jumps. -/
  pushed_iff : r.failure = none → ∃ ids, r.labels.Assigns (ts.filterMap Term.jumpName?) ids ∧
    ∀ label, label ∈ pushedLabels r.code ↔
      label ∈ targets.map some ∨ label ∈ (points ++ ids).map labelOf

namespace Emission.Accounts

variable {r r' : Emission} {ts ts' : List Term} {targets targets' : List Int}
  {points points' : List Nat}

theorem of_failure {e : CompileError} (h : r.failure = some e)
    (hplaced : ∃ ids, (∀ id ∈ ids, ∃ name, r.labels.find? name = some id) ∧
      (placedLabels r.code).Subperm ((points ++ ids).map labelOf)) :
    r.Accounts ts targets points where
  placed := hplaced
  placed_eq hnone := by
    rw [h] at hnone
    cases hnone
  pushed_iff hnone := by
    rw [h] at hnone
    cases hnone

theorem of_success (ids ids' : List Nat)
    (hids : r.labels.Assigns (ts.filterMap Term.labelName?) ids)
    (hplaced : (placedLabels r.code).Perm ((points ++ ids).map labelOf))
    (hids' : r.labels.Assigns (ts.filterMap Term.jumpName?) ids')
    (hpushed : ∀ label, label ∈ pushedLabels r.code ↔
      label ∈ targets.map some ∨ label ∈ (points ++ ids').map labelOf) :
    r.Accounts ts targets points where
  placed := ⟨ids, hids.named, hplaced.subperm⟩
  placed_eq _ := ⟨ids, hids, hplaced⟩
  pushed_iff _ := ⟨ids', hids', hpushed⟩

/-- The labels of two emissions, one after the other. -/
theorem interleave (points points' ids ids' : List Nat) :
    ((points ++ ids).map labelOf ++ (points' ++ ids').map labelOf).Perm
      (((points ++ points') ++ (ids ++ ids')).map labelOf) := by
  rw [← List.map_append]
  refine List.Perm.map _ (List.perm_iff_count.mpr fun k => ?_)
  simp only [List.count_append]
  omega

theorem append (h : r.Accounts ts targets points) (hok : r.failure = none)
    (hgrows : r.labels.Grows r'.labels) (h' : r'.Accounts ts' targets' points') :
    Accounts { r' with code := r.code ++ r'.code } (ts ++ ts') (targets ++ targets')
      (points ++ points') := by
  cases hfail : r'.failure with
  | some e =>
      refine .of_failure rfl ?_
      obtain ⟨ids, hids, hplaced⟩ := h.placed
      obtain ⟨ids', hids', hplaced'⟩ := h'.placed
      refine ⟨ids ++ ids', fun id hid => ?_, ?_⟩
      · rcases List.mem_append.mp hid with hid | hid
        · obtain ⟨name, hname⟩ := hids id hid
          exact ⟨name, hgrows.find? hname⟩
        · exact hids' id hid
      · dsimp only
        rw [placedLabels_append]
        exact (hplaced.append hplaced').trans (interleave points points' ids ids').subperm
  | none =>
      obtain ⟨ids, hids, hplaced⟩ := h.placed_eq hok
      obtain ⟨ids', hids', hplaced'⟩ := h'.placed_eq hfail
      obtain ⟨uses, huses, hpushed⟩ := h.pushed_iff hok
      obtain ⟨uses', huses', hpushed'⟩ := h'.pushed_iff hfail
      refine .of_success (ids ++ ids') (uses ++ uses') ?_ ?_ ?_ fun label => ?_
      · rw [List.filterMap_append]
        exact (hids.mono hgrows).append hids'
      · dsimp only
        rw [placedLabels_append]
        exact (hplaced.append hplaced').trans (interleave points points' ids ids')
      · rw [List.filterMap_append]
        exact (huses.mono hgrows).append huses'
      · have hboth := (interleave points points' uses uses').mem_iff (a := label)
        rw [List.mem_append] at hboth
        dsimp only
        rw [pushedLabels_append, List.mem_append, hpushed, hpushed', List.map_append (f := some),
          List.mem_append, ← hboth]
        exact or_or_or_comm

/-- A term that neither labels nor jumps makes no difference. -/
theorem cons_plain {t : Term} (hlabel : t.labelName? = none) (hjump : t.jumpName? = none)
    (h : r.Accounts ts targets points) : r.Accounts (t :: ts) targets points where
  placed := h.placed
  placed_eq hok := by
    rw [List.filterMap_cons_none hlabel]
    exact h.placed_eq hok
  pushed_iff hok := by
    rw [List.filterMap_cons_none hjump]
    exact h.pushed_iff hok

/-- A term that jumps uses a label of its name, to which its code jumps. -/
theorem cons_jump {t : Term} {name : String} {k : Nat} (hlabel : t.labelName? = none)
    (hjump : t.jumpName? = some name) (hfind : r.labels.find? name = some k)
    (h : r.Accounts ts ((k : Int) :: targets) points) : r.Accounts (t :: ts) targets points where
  placed := h.placed
  placed_eq hok := by
    rw [List.filterMap_cons_none hlabel]
    exact h.placed_eq hok
  pushed_iff hok := by
    obtain ⟨ids, hids, hpushed⟩ := h.pushed_iff hok
    rw [List.filterMap_cons_some hjump]
    refine ⟨k :: ids, .cons hfind hids, fun label => ?_⟩
    have htarget : label = some (k : Int) ↔ label = labelOf k := Iff.rfl
    simp only [hpushed, List.map_cons, List.map_append, List.mem_cons, List.mem_append, htarget]
    grind

/-- A new label for which code was made becomes a point of it, and is placed at
the end of that code. -/
theorem close {k : Nat} {l : List Instruction} (hplaced : placedLabels l = [])
    (hpushed : pushedLabels l = []) (h : r.Accounts ts ((k : Int) :: targets) points) :
    Accounts { r with code := r.code ++ (l ++ [.jumpdest k]) } ts targets (k :: points) := by
  have hplaced' : placedLabels (r.code ++ (l ++ [.jumpdest k]))
      = placedLabels r.code ++ [labelOf k] := by
    rw [placedLabels_append, placedLabels_append, hplaced]
    rfl
  have hpushed' : pushedLabels (r.code ++ (l ++ [.jumpdest k])) = pushedLabels r.code := by
    rw [pushedLabels_append, pushedLabels_append, hpushed]
    exact List.append_nil _
  have hperm : ∀ ids, ((points ++ ids).map labelOf ++ [labelOf k]).Perm
      ((k :: points ++ ids).map labelOf) := fun ids => List.perm_append_singleton _ _
  constructor
  case placed =>
    obtain ⟨ids, hids, hsub⟩ := h.placed
    refine ⟨ids, hids, ?_⟩
    rw [hplaced']
    exact ((List.subperm_append_right _).mpr hsub).trans (hperm ids).subperm
  case placed_eq =>
    intro hok
    obtain ⟨ids, hids, hexact⟩ := h.placed_eq hok
    refine ⟨ids, hids, ?_⟩
    rw [hplaced']
    exact (hexact.append_right _).trans (hperm ids)
  case pushed_iff =>
    intro hok
    obtain ⟨ids, hids, hexact⟩ := h.pushed_iff hok
    refine ⟨ids, hids, fun label => ?_⟩
    rw [hpushed', hexact, List.map_cons, List.mem_cons, List.cons_append, List.map_cons,
      List.mem_cons]
    exact or_assoc.trans or_left_comm

end Emission.Accounts

/-! ### Emitters -/

/-- From whatever labels on, the emitter reserves points for which its emission
accounts. -/
def Emitter.Accounts (e : Emitter) (ts : List Term) (targets : List Int) : Prop :=
  ∀ before : Labels, before.WellFormed →
    ∃ points, e.Reserves before points ∧ (e before).Accounts ts targets points

namespace Emitter.Accounts

variable {a b : Emitter} {ts ts' : List Term} {targets targets' : List Int} {t : Term}

/-- Code that places no label and pushes the given ones. -/
theorem emit {code : List Instruction} (hplaced : placedLabels code = [])
    (hpushed : pushedLabels code = targets.map some) : (emit code).Accounts [] targets := by
  intro before hbefore
  refine ⟨[], .emit code before, .of_success [] [] .nil ?_ .nil fun label => ?_⟩
  · rw [emit_apply, hplaced]
    exact .nil
  · rw [emit_apply, hpushed]
    exact (or_iff_left List.not_mem_nil).symm

theorem fail (e : CompileError) (ts : List Term) (targets : List Int) :
    (fail e).Accounts ts targets := by
  intro before hbefore
  refine ⟨[], .fail e before, .of_failure rfl ⟨[], List.forall_mem_nil _, ?_⟩⟩
  exact List.nil_subperm

theorem append (ha : a.Accounts ts targets) (hb : b.Accounts ts' targets') :
    (a ++ b).Accounts (ts ++ ts') (targets ++ targets') := by
  intro before hbefore
  obtain ⟨points, hpoints, hfirst⟩ := ha before hbefore
  by_cases hok : (a before).failure = none
  · obtain ⟨points', hpoints', hsecond⟩ := hb _ (hpoints.reserved hbefore).wellFormed
    refine ⟨points ++ points', .append hok hpoints hpoints', ?_⟩
    rw [append_apply hok]
    exact hfirst.append hok
      (hpoints'.reserved (hpoints.reserved hbefore).wellFormed).grows hsecond
  · refine ⟨points, .failed hok hpoints, ?_⟩
    obtain ⟨e, he⟩ := Option.ne_none_iff_exists'.mp hok
    rw [append_apply_of_failure he]
    exact .of_failure he hfirst.placed

/-- Code that jumps to labels of its own and of names only. -/
theorem append_value (ha : a.Accounts ts targets) (hb : b.Accounts ts' []) :
    (a ++ b).Accounts (ts ++ ts') targets := by
  have hboth := ha.append hb
  rwa [List.append_nil] at hboth

/-- Code that does nothing with labels. -/
theorem append_code {code : List Instruction} (ha : a.Accounts ts targets)
    (hplaced : placedLabels code = []) (hpushed : pushedLabels code = []) :
    (a ++ Emitter.emit code).Accounts ts targets := by
  have hboth := ha.append_value (emit hplaced hpushed)
  rwa [List.append_nil] at hboth

/-- The labels to jump to, whether or not some are repeated. -/
theorem of_targets (ha : a.Accounts ts targets) (h : ∀ l, l ∈ targets ↔ l ∈ targets') :
    a.Accounts ts targets' := by
  intro before hbefore
  obtain ⟨points, hpoints, hfirst⟩ := ha before hbefore
  refine ⟨points, hpoints, hfirst.placed, hfirst.placed_eq, fun hok => ?_⟩
  obtain ⟨ids, hids, hpushed⟩ := hfirst.pushed_iff hok
  refine ⟨ids, hids, fun label => (hpushed label).trans ?_⟩
  simp only [List.mem_map, h]

theorem cons_plain (hlabel : t.labelName? = none) (hjump : t.jumpName? = none)
    (ha : a.Accounts ts targets) : a.Accounts (t :: ts) targets := by
  intro before hbefore
  obtain ⟨points, hpoints, hfirst⟩ := ha before hbefore
  exact ⟨points, hpoints, hfirst.cons_plain hlabel hjump⟩

/-- Code that jumps to a label of its own, which stands at its end. -/
theorem withFresh {k : Nat → Emitter} {l : List Instruction}
    (hk : ∀ label : Nat, (k label).Accounts ts ((label : Int) :: targets))
    (hplaced : placedLabels l = []) (hpushed : pushedLabels l = []) :
    (withFresh fun label => k label ++ Emitter.emit (l ++ [.jumpdest label])).Accounts
      ts targets := by
  intro before hbefore
  obtain ⟨points, hpoints, hcode⟩ :=
    hk before.fresh.1 _ (Labels.Reserved.fresh hbefore).wellFormed
  have happly : Emitter.withFresh
      (fun label => k label ++ Emitter.emit (l ++ [.jumpdest label])) before
      = (k before.fresh.1 ++ Emitter.emit (l ++ [.jumpdest before.fresh.1])) before.fresh.2 := rfl
  refine ⟨before.fresh.1 :: points, .withFresh ?_, ?_⟩
  · by_cases hok : (k before.fresh.1 before.fresh.2).failure = none
    · rw [← List.append_nil points]
      exact .append hok hpoints (.emit _ _)
    · exact .failed hok hpoints
  · rw [happly]
    cases hok : (k before.fresh.1 before.fresh.2).failure with
    | none =>
        rw [append_apply hok, emit_apply, ← hok]
        exact hcode.close hplaced hpushed
    | some e =>
        rw [append_apply_of_failure hok]
        -- the new label is a point all the same, though it has not been placed
        obtain ⟨ids, hids, hsub⟩ := hcode.placed
        exact .of_failure hok ⟨ids, hids, hsub.trans (List.sublist_cons_self _ _).subperm⟩

/-- Code that jumps to the label of a name. -/
theorem withNamed {k : Nat → Emitter} {name : String} (hlabel : t.labelName? = none)
    (hjump : t.jumpName? = some name)
    (hk : ∀ label : Nat, (k label).Accounts ts ((label : Int) :: targets)) :
    (withNamed name k).Accounts (t :: ts) targets := by
  intro before hbefore
  obtain ⟨hwf, -, hfind⟩ := hbefore.named name
  obtain ⟨points, hpoints, hcode⟩ := hk (before.named name).1 _ hwf
  exact ⟨points, .withNamed hpoints,
    hcode.cons_jump hlabel hjump ((hpoints.reserved hwf).grows.find? hfind)⟩

theorem label (name : String) :
    (Emitter.withNamed name fun l => Emitter.emit [.jumpdest l]).Accounts [.label name] [] := by
  intro before hbefore
  obtain ⟨-, -, hfind⟩ := hbefore.named name
  exact ⟨[], .withNamed (.emit _ _), .of_success [(before.named name).1] []
    (.cons hfind .nil) (.refl _) .nil fun label => by simp [pushedLabels, Instruction.pushed?,
      Instruction.jumpdest, Emitter.withNamed]⟩

theorem push (options : CompilerOptions) (value : Nat) : (push options value).Accounts [] [] := by
  unfold Emitter.push
  split
  · next i h =>
    obtain ⟨data, rfl, -⟩ := makePush_ok h
    exact emit rfl rfl
  · exact fail _ _ _

theorem pushLiteral (options : CompilerOptions) (l : Literal) :
    (pushLiteral options l).Accounts [] [] := by
  unfold Emitter.pushLiteral
  split
  · exact fail _ _ _
  · exact push _ _

theorem pushSlot (options : CompilerOptions) (slot : Nat) :
    (pushSlot options slot).Accounts [] [] := by
  unfold Emitter.pushSlot
  split
  · exact push _ _
  · exact fail _ _ _

end Emitter.Accounts

/-! ### Terms -/

/-- Both ways to lower a term account for the labels of its subterms. -/
structure Lowering.Accounts (l : Lowering) (ts : List Term) : Prop where
  value : l.value.Accounts ts []
  whenTrue : ∀ label, (l.branch (.whenTrue label)).Accounts ts [label]
  whenFalse : ∀ label, (l.branch (.whenFalse label)).Accounts ts [label]

theorem Lowering.Accounts.ofValue {value : Emitter} {ts : List Term}
    (h : value.Accounts ts []) : (Lowering.ofValue value).Accounts ts where
  value := h
  whenTrue label := by
    have hjump : (emit [.pushLabel label, .op .jumpi]).Accounts [] [label] := .emit rfl rfl
    have hboth := h.append hjump
    rwa [List.append_nil] at hboth
  whenFalse label := by
    have hjump : (emit [.op .isZero, .pushLabel label, .op .jumpi]).Accounts [] [label] :=
      .emit rfl rfl
    have hboth := h.append hjump
    rwa [List.append_nil] at hboth

theorem Lowering.Accounts.connect {lhs rhs : Lowering} {ts ts' : List Term} (op : Connective)
    (hl : lhs.Accounts ts) (hr : rhs.Accounts ts') :
    (Lowering.connect op lhs rhs).Accounts (ts ++ ts') where
  value := by
    refine Emitter.Accounts.append_value (hl.value.append_code ?_ ?_) ?_
    · cases op <;> rfl
    · cases op <;> rfl
    · refine .withFresh (l := []) (fun join => ?_) rfl rfl
      have hjump : (emit [.pushLabel join, .op .jumpi, .op .pop]).Accounts [] [(join : Int)] :=
        .emit rfl rfl
      exact hjump.append hr.value
  whenTrue label := by
    cases op with
    | and =>
        exact .withFresh (l := [])
          (fun skip => (hl.whenFalse skip).append (hr.whenTrue label)) rfl rfl
    | or => exact ((hl.whenTrue label).append (hr.whenTrue label)).of_targets (by simp)
  whenFalse label := by
    cases op with
    | and => exact ((hl.whenFalse label).append (hr.whenFalse label)).of_targets (by simp)
    | or =>
        exact .withFresh (l := [])
          (fun skip => (hl.whenTrue skip).append (hr.whenFalse label)) rfl rfl

theorem Lowering.Accounts.cons_plain {l : Lowering} {ts : List Term} {t : Term}
    (hlabel : t.labelName? = none) (hjump : t.jumpName? = none) (h : l.Accounts ts) :
    l.Accounts (t :: ts) where
  value := h.value.cons_plain hlabel hjump
  whenTrue label := (h.whenTrue label).cons_plain hlabel hjump
  whenFalse label := (h.whenFalse label).cons_plain hlabel hjump

mutual

theorem Term.accounts_lower (options : CompilerOptions) :
    ∀ t : Term, (t.lower options).Accounts t.subterms
  | .assert condition => by
      rw [Term.lower]
      refine .ofValue (.cons_plain rfl rfl ?_)
      exact .withFresh (l := [.op .invalid])
        (fun label => (condition.accounts_lower options).whenTrue label) rfl rfl
  | .assign target value => by
      have hvalue := (value.accounts_lower options).value
      by_cases h : ∃ r index, target = .access (.region r) index
      · obtain ⟨r, index, rfl⟩ := h
        rw [Term.lower]
        refine .ofValue (.cons_plain rfl rfl (hvalue.append_value ?_))
        refine .cons_plain rfl rfl (.cons_plain rfl rfl ?_)
        have hindex := (index.accounts_lower options).value
        cases r with
        | memory => exact hindex.append_code rfl rfl
        | storage => exact hindex.append_code rfl rfl
        | callData => exact .fail _ _ _
      · obtain ⟨e, he⟩ := Term.lower_assign_of_ne options value fun r index heq =>
          h ⟨r, index, heq⟩
        rw [he]
        exact .ofValue (.cons_plain rfl rfl (hvalue.append_value (.fail _ _ _)))
  | .fail => by
      rw [Term.lower]
      exact .ofValue (.cons_plain rfl rfl (.emit rfl rfl))
  | .goto name => by
      rw [Term.lower]
      exact .ofValue (.withNamed rfl rfl fun label => .emit rfl rfl)
  | .ifGoto condition name => by
      rw [Term.lower]
      exact .ofValue (.withNamed rfl rfl fun label =>
        (condition.accounts_lower options).whenTrue label)
  | .label name => by
      rw [Term.lower]
      exact .ofValue (.label name)
  | .revert values => by
      rw [Term.lower]
      exact .ofValue (.cons_plain rfl rfl (accounts_lowerResult options .revert values))
  | .succeed [] => by
      rw [Term.lower]
      exact .ofValue (.cons_plain rfl rfl (.emit rfl rfl))
  | .succeed (first :: rest) => by
      rw [Term.lower]
      · exact .ofValue (.cons_plain rfl rfl (accounts_lowerResult options .ret (first :: rest)))
      · simp
  | .stop => by
      rw [Term.lower]
      exact .ofValue (.cons_plain rfl rfl (.emit rfl rfl))
  | .arithmetic op lhs rhs => by
      rw [Term.lower]
      have hboth := (rhs.accounts_lower options).value.append (lhs.accounts_lower options).value
      refine .ofValue (.cons_plain rfl rfl (hboth.append_code ?_ ?_)) <;> cases op <;> rfl
  | .connective op lhs rhs => by
      rw [Term.lower]
      exact .cons_plain rfl rfl
        (.connect op (lhs.accounts_lower options) (rhs.accounts_lower options))
  | .access source index => by
      by_cases h : ∃ r, source = .region r
      · obtain ⟨r, rfl⟩ := h
        rw [Term.lower]
        refine .ofValue (.cons_plain rfl rfl (.cons_plain rfl rfl ?_))
        exact (index.accounts_lower options).value.append_code (by cases r <;> rfl)
          (by cases r <;> rfl)
      · obtain ⟨e, he⟩ := Term.lower_access_of_ne options index fun r heq => h ⟨r, heq⟩
        rw [he]
        exact .ofValue (.fail _ _ _)
  | .region r => by
      rw [Term.lower]
      exact .ofValue (.fail _ _ _)
  | .literal l => by
      rw [Term.lower]
      exact .ofValue (.cons_plain rfl rfl (.pushLiteral options l))
  | .unknown => by
      rw [Term.lower]
      exact .ofValue (.fail _ _ _)

theorem accounts_lowerSlots (options : CompilerOptions) :
    ∀ (slot : Nat) (values : List Term),
      (lowerSlots options slot values).Accounts (subtermsAll values) []
  | slot, [] => by
      rw [lowerSlots]
      exact .emit rfl rfl
  | slot, t :: rest => by
      rw [lowerSlots]
      have hslot := (t.accounts_lower options).value.append_value (.pushSlot options slot)
      rw [List.append_nil] at hslot
      exact (hslot.append_code rfl rfl).append (accounts_lowerSlots options (slot + 1) rest)

theorem accounts_lowerResult (options : CompilerOptions) (o : Opcode) (values : List Term) :
    (lowerResult options (.op o) values).Accounts (subtermsAll values) [] := by
  rw [lowerResult]
  have hslots := ((accounts_lowerSlots options 0 values).append_value
    (.pushSlot options values.length)).append_value (.push options 0)
  rw [List.append_nil, List.append_nil] at hslots
  exact hslots.append_code rfl rfl

end

/-- Terms that are lowered one after the other account for all their subterms. -/
theorem accounts_lowerAll (options : CompilerOptions) (terms : List Term) :
    (lowerAll options terms).Accounts (subtermsAll terms) [] := by
  induction terms with
  | nil => exact .emit rfl rfl
  | cons t rest ih => exact (t.accounts_lower options).value.append ih

end EvmToolchain
