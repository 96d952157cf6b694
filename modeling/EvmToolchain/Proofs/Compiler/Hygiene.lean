import EvmToolchain.Proofs.Compiler.LabelUse
import Mathlib.Data.List.Nodup
import Mathlib.Data.List.Induction
import Mathlib.Data.List.Permutation
import Mathlib.Data.List.Sort

/-!
# EvmToolchain.Proofs.Compiler.Hygiene

The labels of whole sessions.

A session hands out labels to names, on request, and to the code of the terms
that it compiles. In whatever order that happens, and though some terms fail to
compile, no label is handed out twice and nothing that was emitted or assigned is
ever changed (`Session.Hygienic`). One call keeps this (`Session.Hygienic.call`),
so it holds of every history of calls (`Session.history_hygienic`).
-/

namespace EvmToolchain

open Emitter Assembly

/-- The order of allocation determines the labels that have been reserved. -/
theorem Labels.Reserved.unique {before after : Labels} {points points' : List Nat}
    (h : Reserved before after points) (h' : Reserved before after points') : points = points' :=
  h.increasing.eq_of_mem_iff h'.increasing fun k => (h.mem_iff k).trans (h'.mem_iff k).symm

namespace Session

/-- What a session can be asked for that has to do with labels. -/
inductive Call
  | label (name : String)
  | freshLabel
  | compile (t : Term)
  deriving Repr

/-- The session after a call, also if the call has failed. -/
def after (s : Session) : Call → Session
  | .label name => (s.label name).2
  | .freshLabel => s.freshLabel.2
  | .compile t => (s.compile t).1

/-- The labels that a call takes for no name: the one that it returns, or the join
and skip points of the code that it emits. -/
inductive Takes (s : Session) : Call → List Nat → Prop
  | label (name : String) : Takes s (.label name) []
  | freshLabel : Takes s .freshLabel [s.freshLabel.1]
  | compile {t : Term} {points : List Nat} :
      (t.lower s.options).value.Reserves s.labels points → Takes s (.compile t) points

/-- A call of a session, with the labels that it takes for no name. -/
structure Event where
  before : Session
  call : Call
  points : List Nat

/-- The calls that lead from one session to another, the first one first. -/
inductive History (start : Session) : List Event → Session → Prop
  | start : History start [] start
  | call {events : List Event} {s : Session} {c : Call} {points : List Nat} :
      History start events s → s.Takes c points →
      History start (events ++ [⟨s, c, points⟩]) (s.after c)

/-- The labels of a session after some calls are in order. -/
structure Hygienic (s : Session) (events : List Event) : Prop where
  /-- No two names share a label, and the labels of names are below the next one. -/
  wellFormed : s.labels.WellFormed
  /-- No call has changed or dropped the label of a name. -/
  grows : ∀ e ∈ events, e.before.labels.Grows s.labels
  /-- Every call has left alone what had been emitted, and so have the later ones. -/
  appends : ∀ e ∈ events, e.before.instructions <+: (e.before.after e.call).instructions ∧
    (e.before.after e.call).instructions <+: s.instructions
  /-- No label that was taken for no name has been taken again. -/
  nodup : (events.flatMap (·.points)).Nodup
  /-- A label that was taken for no name is not the one of a name. -/
  anonymous : ∀ e ∈ events, ∀ k ∈ e.points, s.labels.Anonymous k
  placed_le : ∀ e ∈ events, ∀ k ∈ e.points,
    (placedLabels s.instructions).count (labelOf k) ≤ 1
  /-- The points of code that was emitted without failing are all placed. -/
  placed_eq : ∀ e ∈ events, ∀ t, e.call = .compile t → (e.before.compile t).2 = .ok () →
    ∀ k ∈ e.points, (placedLabels s.instructions).count (labelOf k) = 1
  /-- What is placed has been allocated. -/
  placed_lt : ∀ label ∈ placedLabels s.instructions, ∃ k < s.labels.next, label = labelOf k

/-! ### One call -/

variable {s : Session} {c : Call} {t : Term} {points : List Nat} {events : List Event}
  {code : List Instruction}

/-- What a call adds to a session. -/
structure Adds (s : Session) (c : Call) (points : List Nat) (code : List Instruction) :
    Prop where
  instructions_eq : (s.after c).instructions = s.instructions ++ code
  reserved : s.labels.Reserved (s.after c).labels points
  placed_lt : ∀ label ∈ placedLabels code, ∃ k < (s.after c).labels.next, label = labelOf k
  count_le : ∀ k, (s.after c).labels.Anonymous k →
    (placedLabels code).count (labelOf k) ≤ points.count k
  count_eq : ∀ t, c = .compile t → (s.compile t).2 = .ok () →
    ∀ k, (s.after c).labels.Anonymous k → (placedLabels code).count (labelOf k) = points.count k

theorem compile_ok (h : (s.compile t).2 = .ok ()) :
    ((t.lower s.options).value s.labels).failure = none := by
  rw [compile, run] at h
  dsimp only at h
  split at h
  · assumption
  · cases h

theorem adds_compile (hs : s.labels.WellFormed)
    (hpoints : (t.lower s.options).value.Reserves s.labels points) :
    s.Adds (.compile t) points ((t.lower s.options).value s.labels).code := by
  obtain ⟨points', hpoints', haccounts⟩ := (t.accounts_lower s.options).value s.labels hs
  have hreserved := hpoints.reserved hs
  obtain rfl := (hpoints'.reserved hs).unique hreserved
  obtain ⟨ids, hids, hsub⟩ := haccounts.placed
  refine ⟨rfl, hreserved, fun label hlabel => ?_, fun k hk => ?_, fun t' ht' hok k hk => ?_⟩
  · obtain ⟨k, hk, rfl⟩ := List.mem_map.mp (hsub.subset hlabel)
    refine ⟨k, ?_, rfl⟩
    rcases List.mem_append.mp hk with hk | hk
    · exact ((hreserved.mem_iff k).mp hk).2.lt_next
    · obtain ⟨name, hname⟩ := hids k hk
      exact hreserved.wellFormed.lt_next _ (Labels.mem_of_find? hname)
  · rw [← count_points hk hids]
    exact hsub.count_le _
  · obtain rfl := Call.compile.inj ht'
    obtain ⟨ids, hids, hperm⟩ := haccounts.placed_eq (compile_ok hok)
    rw [hperm.count_eq]
    exact count_points hk hids.named

/-- A call adds code that is in order, and does nothing else. -/
theorem Takes.exists_adds (h : s.Takes c points) (hs : s.labels.WellFormed) :
    ∃ code, s.Adds c points code := by
  cases h with
  | label name =>
      refine ⟨[], (List.append_nil _).symm, .named hs name, List.forall_mem_nil _,
        fun k _ => Nat.zero_le _, fun t ht => ?_⟩
      cases ht
  | freshLabel =>
      refine ⟨[], (List.append_nil _).symm, .fresh hs, List.forall_mem_nil _,
        fun k _ => Nat.zero_le _, fun t ht => ?_⟩
      cases ht
  | compile hpoints => exact ⟨_, adds_compile hs hpoints⟩

theorem exists_takes (hs : s.labels.WellFormed) (c : Call) : ∃ points, s.Takes c points := by
  cases c with
  | label name => exact ⟨_, .label name⟩
  | freshLabel => exact ⟨_, .freshLabel⟩
  | compile t =>
      obtain ⟨points, hpoints, -⟩ := (t.accounts_lower s.options).value s.labels hs
      exact ⟨points, .compile hpoints⟩

/-! ### Histories -/

theorem hygienic_start (options : CompilerOptions) : Hygienic { options } [] where
  wellFormed := Labels.wellFormed_initial
  grows := List.forall_mem_nil _
  appends := List.forall_mem_nil _
  nodup := .nil
  anonymous := List.forall_mem_nil _
  placed_le := List.forall_mem_nil _
  placed_eq := List.forall_mem_nil _
  placed_lt := List.forall_mem_nil _

/-- What holds of some calls and of the one after them. -/
theorem forall_mem_snoc {p : Event → Prop} {last : Event} (hevents : ∀ e ∈ events, p e)
    (hlast : p last) : ∀ e ∈ events ++ [last], p e :=
  List.forall_mem_append.mpr ⟨hevents, List.forall_mem_singleton.mpr hlast⟩

theorem Adds.placedLabels_eq (h : s.Adds c points code) :
    placedLabels (s.after c).instructions = placedLabels s.instructions ++ placedLabels code := by
  rw [h.instructions_eq, placedLabels_append]

/-- A call does not place a label that was taken before for no name. -/
theorem Adds.count_old (h : s.Adds c points code) {k : Nat} (hk : s.labels.Anonymous k) :
    (placedLabels (s.after c).instructions).count (labelOf k)
      = (placedLabels s.instructions).count (labelOf k) := by
  have hnot : k ∉ points := fun hmem =>
    absurd hk.lt_next (Nat.not_lt.mpr ((h.reserved.mem_iff k).mp hmem).1)
  have hle := h.count_le k (hk.mono h.reserved.grows)
  rw [List.count_eq_zero_of_not_mem hnot] at hle
  rw [h.placedLabels_eq, List.count_append, Nat.le_zero.mp hle, Nat.add_zero]

/-- A label that a call takes was not placed before. -/
theorem Adds.count_new (h : s.Adds c points code)
    (hs : ∀ label ∈ placedLabels s.instructions, ∃ k < s.labels.next, label = labelOf k)
    {k : Nat} (hk : k ∈ points) :
    (placedLabels (s.after c).instructions).count (labelOf k)
      = (placedLabels code).count (labelOf k) := by
  have hnot : labelOf k ∉ placedLabels s.instructions := by
    intro hmem
    obtain ⟨j, hj, hlabel⟩ := hs _ hmem
    obtain rfl := labelOf_injective hlabel
    exact absurd hj (Nat.not_lt.mpr ((h.reserved.mem_iff k).mp hk).1)
  rw [h.placedLabels_eq, List.count_append, List.count_eq_zero_of_not_mem hnot, Nat.zero_add]

/-- A call keeps the labels of a session in order. -/
theorem Hygienic.call (h : s.Hygienic events) (htakes : s.Takes c points) :
    (s.after c).Hygienic (events ++ [⟨s, c, points⟩]) := by
  obtain ⟨code, hcode⟩ := htakes.exists_adds h.wellFormed
  have hnew : ∀ k ∈ points, s.labels.next ≤ k ∧ (s.after c).labels.Anonymous k :=
    fun k hk => (hcode.reserved.mem_iff k).mp hk
  have hone : ∀ k ∈ points, points.count k = 1 := fun k hk =>
    List.count_eq_one_of_mem (hcode.reserved.increasing.imp Nat.ne_of_lt) hk
  constructor
  case wellFormed => exact hcode.reserved.wellFormed
  case grows =>
    exact forall_mem_snoc (fun e he => (h.grows e he).trans hcode.reserved.grows)
      hcode.reserved.grows
  case appends =>
    have happend : s.instructions <+: (s.after c).instructions :=
      hcode.instructions_eq ▸ List.prefix_append _ _
    exact forall_mem_snoc (fun e he => ⟨(h.appends e he).1, (h.appends e he).2.trans happend⟩)
      ⟨happend, List.prefix_rfl⟩
  case nodup =>
    rw [List.flatMap_append, List.flatMap_singleton]
    refine List.nodup_append.mpr ⟨h.nodup, hcode.reserved.increasing.imp Nat.ne_of_lt, ?_⟩
    rintro j hj k hk rfl
    obtain ⟨e, he, hmem⟩ := List.mem_flatMap.mp hj
    exact absurd (h.anonymous e he j hmem).lt_next (Nat.not_lt.mpr (hnew j hk).1)
  case anonymous =>
    exact forall_mem_snoc (fun e he k hk => (h.anonymous e he k hk).mono hcode.reserved.grows)
      fun k hk => (hnew k hk).2
  case placed_le =>
    refine forall_mem_snoc (fun e he k hk => ?_) fun k hk => ?_
    · rw [hcode.count_old (h.anonymous e he k hk)]
      exact h.placed_le e he k hk
    · rw [hcode.count_new h.placed_lt hk, ← hone k hk]
      exact hcode.count_le k (hnew k hk).2
  case placed_eq =>
    refine forall_mem_snoc (fun e he t ht hok k hk => ?_) fun t ht hok k hk => ?_
    · rw [hcode.count_old (h.anonymous e he k hk)]
      exact h.placed_eq e he t ht hok k hk
    · rw [hcode.count_new h.placed_lt hk, ← hone k hk]
      exact hcode.count_eq t ht hok k (hnew k hk).2
  case placed_lt =>
    intro label hlabel
    rw [hcode.placedLabels_eq] at hlabel
    rcases List.mem_append.mp hlabel with hlabel | hlabel
    · obtain ⟨k, hk, rfl⟩ := h.placed_lt label hlabel
      exact ⟨k, Nat.lt_of_lt_of_le hk hcode.reserved.grows.next_le, rfl⟩
    · exact hcode.placed_lt label hlabel

theorem History.hygienic {options : CompilerOptions} (h : History { options } events s) :
    s.Hygienic events := by
  induction h with
  | start => exact hygienic_start options
  | call _ htakes ih => exact ih.call htakes

theorem exists_history (options : CompilerOptions) (calls : List Call) :
    ∃ events s, History { options } events s ∧ events.map (·.call) = calls := by
  induction calls using List.reverseRecOn with
  | nil => exact ⟨[], _, .start, rfl⟩
  | append_singleton calls c ih =>
      obtain ⟨events, s, hhistory, rfl⟩ := ih
      obtain ⟨points, htakes⟩ := exists_takes hhistory.hygienic.wellFormed c
      exact ⟨_, _, .call hhistory htakes, by rw [List.map_append]; rfl⟩

/-- Whatever a new session is asked for, in whatever order, and whether or not some
of its terms fail to compile, it keeps its labels in order. -/
theorem history_hygienic (options : CompilerOptions) :
    (∀ calls, ∃ events s, History { options } events s ∧ events.map (·.call) = calls) ∧
    ∀ events s, History { options } events s → s.Hygienic events :=
  ⟨exists_history options, fun _ _ => History.hygienic⟩

/-- A requested label, an assertion that fails to compile after it has taken its
label, and one that compiles. -/
theorem history_hygienic_failing :
    ∃ events s, History {} events s ∧
      events.map (·.call)
        = [.freshLabel, .compile (.assert .unknown), .compile (.assert .stop)] ∧
      events.map (·.points) = [[0], [1], [2]] ∧ s.Hygienic events := by
  have hunknown : ∀ s : Session, s.Takes (.compile (.assert .unknown)) [s.labels.next] := by
    intro s
    refine .compile ?_
    rw [Term.lower, Lowering.value_ofValue, Term.lower]
    have hfailed : ∀ e c before, ((fail e ++ emit c) before).failure ≠ none :=
      fun _ _ _ => Option.some_ne_none _
    exact .withFresh (.failed (hfailed _ _ _) (.failed (Option.some_ne_none _) (.fail _ _)))
  have hstop : ∀ s : Session, s.Takes (.compile (.assert .stop)) [s.labels.next] := by
    intro s
    refine .compile ?_
    rw [Term.lower, Lowering.value_ofValue, Term.lower]
    exact .withFresh (.append rfl (.append rfl (.emit _ _) (.emit _ _)) (.emit _ _))
  have hhistory : History {} _ _ :=
    ((History.start.call .freshLabel).call (hunknown _)).call (hstop _)
  refine ⟨_, _, hhistory, rfl, ?_, (history_hygienic {}).2 _ _ hhistory⟩
  cbv

end Session

end EvmToolchain
