import EvmToolchain.Proofs.Compiler.Emits
import EvmToolchain.Proofs.Lang.Semantics

/-!
# EvmToolchain.Proofs.Compiler.LabelScope

Which labels compiled code places.

A name keeps the label that it was given first, and no label is given to two
names. All other labels are anonymous: code that lowering emits for them places
each of them itself. So a jump destination with the label of a name was emitted
for the statement that carries the name (`lowerAll_places`).
-/

namespace EvmToolchain

open Emitter

/-! ### The allocator -/

namespace Labels

/-- The labels of names are taken, and no two names share one. -/
structure WellFormed (ls : Labels) : Prop where
  lt_next : ∀ e ∈ ls.names, e.2 < ls.next
  injective : ∀ e ∈ ls.names, ∀ e' ∈ ls.names, e.2 = e'.2 → e.1 = e'.1

/-- More labels have been allocated. -/
structure Grows (before after : Labels) : Prop where
  next_le : before.next ≤ after.next
  names_eq : ∃ more, after.names = before.names ++ more ∧ ∀ e ∈ more, before.next ≤ e.2

/-- The label is taken, by no name. -/
structure Anonymous (ls : Labels) (label : Nat) : Prop where
  lt_next : label < ls.next
  unnamed : ∀ e ∈ ls.names, e.2 ≠ label

variable {ls before middle after : Labels} {name : String} {label : Nat}

theorem wellFormed_initial : WellFormed {} :=
  ⟨fun _ h => absurd h List.not_mem_nil, fun _ h => absurd h List.not_mem_nil⟩

theorem Grows.refl (ls : Labels) : ls.Grows ls :=
  ⟨Nat.le_refl _, [], (List.append_nil _).symm, fun _ h => absurd h List.not_mem_nil⟩

theorem Grows.trans (h : before.Grows middle) (h' : middle.Grows after) : before.Grows after := by
  obtain ⟨hle, first, hfirst, hfrom⟩ := h
  obtain ⟨hle', second, hsecond, hfrom'⟩ := h'
  refine ⟨Nat.le_trans hle hle', first ++ second, ?_, fun e he => ?_⟩
  · rw [hsecond, hfirst, List.append_assoc]
  · rcases List.mem_append.mp he with he | he
    · exact hfrom e he
    · exact Nat.le_trans hle (hfrom' e he)

theorem mem_of_find? (h : ls.find? name = some label) : (name, label) ∈ ls.names := by
  obtain ⟨e, he, rfl⟩ := Option.map_eq_some_iff.mp h
  obtain rfl : e.1 = name := eq_of_beq (List.find?_some (p := fun e : String × Nat => e.1 == name) he)
  exact List.mem_of_find?_eq_some he

/-- A name keeps its label. -/
theorem Grows.find? (h : before.Grows after) (hfind : before.find? name = some label) :
    after.find? name = some label := by
  obtain ⟨-, more, hmore, -⟩ := h
  obtain ⟨e, he, hlabel⟩ := Option.map_eq_some_iff.mp hfind
  rw [Labels.find?, hmore, List.find?_append, he]
  exact congrArg some hlabel

/-- A label stays anonymous: it has been taken, and names get free ones. -/
theorem Anonymous.mono (h : before.Anonymous label) (hgrows : before.Grows after) :
    after.Anonymous label := by
  obtain ⟨hle, more, hmore, hfrom⟩ := hgrows
  refine ⟨Nat.lt_of_lt_of_le h.lt_next hle, fun e he => ?_⟩
  rw [hmore] at he
  rcases List.mem_append.mp he with he | he
  · exact h.unnamed e he
  · have := hfrom e he
    have := h.lt_next
    omega

theorem WellFormed.eq_of_find? (h : ls.WellFormed) {name' : String}
    (hname : ls.find? name = some label) (hname' : ls.find? name' = some label) : name = name' :=
  h.injective _ (mem_of_find? hname) _ (mem_of_find? hname') rfl

/-- Looking up the label of a name. -/
theorem WellFormed.named (h : ls.WellFormed) (name : String) :
    (ls.named name).2.WellFormed ∧ ls.Grows (ls.named name).2 ∧
      (ls.named name).2.find? name = some (ls.named name).1 := by
  rw [Labels.named]
  cases hfind : ls.find? name with
  | some label => exact ⟨h, .refl ls, hfind⟩
  | none =>
      refine ⟨⟨fun e he => ?_, fun e he e' he' heq => ?_⟩,
        ⟨Nat.le_add_right _ _, [(name, ls.next)], rfl, fun e he => ?_⟩, ?_⟩
      · rcases List.mem_append.mp he with he | he
        · exact Nat.lt_add_right 1 (h.lt_next e he)
        · rw [List.mem_singleton.mp he]
          exact Nat.lt_add_one _
      · -- the new label is free, so an old name cannot have it
        rcases List.mem_append.mp he with he | he <;> rcases List.mem_append.mp he' with he' | he'
        · exact h.injective e he e' he' heq
        · have := h.lt_next e he
          rw [heq, List.mem_singleton.mp he'] at this
          exact absurd this (Nat.lt_irrefl _)
        · have := h.lt_next e' he'
          rw [← heq, List.mem_singleton.mp he] at this
          exact absurd this (Nat.lt_irrefl _)
        · rw [List.mem_singleton.mp he, List.mem_singleton.mp he']
      · obtain rfl := List.mem_singleton.mp he
        exact Nat.le_refl _
      · have hnone : ls.names.find? (·.1 == name) = none := Option.map_eq_none_iff.mp hfind
        simp [Labels.find?, List.find?_append, hnone]

end Labels

/-! ### Placed labels -/

/-- The code places a label. -/
def Places (code : List Instruction) (label : Option Int) : Prop :=
  ∃ i ∈ code, i.mnemonic = .jumpdest ∧ i.label = label

theorem places_append {a b : List Instruction} {label : Option Int} :
    Places (a ++ b) label ↔ Places a label ∨ Places b label := by
  constructor
  · rintro ⟨i, hi, hjump, hlabel⟩
    rcases List.mem_append.mp hi with hi | hi
    · exact Or.inl ⟨i, hi, hjump, hlabel⟩
    · exact Or.inr ⟨i, hi, hjump, hlabel⟩
  · rintro (⟨i, hi, hjump, hlabel⟩ | ⟨i, hi, hjump, hlabel⟩)
    · exact ⟨i, List.mem_append_left _ hi, hjump, hlabel⟩
    · exact ⟨i, List.mem_append_right _ hi, hjump, hlabel⟩

theorem places_jumpdest {label : Int} {label' : Option Int} :
    Places [.jumpdest label] label' ↔ label' = some label := by
  constructor
  · rintro ⟨i, hi, -, rfl⟩
    rw [List.mem_singleton.mp hi]
    rfl
  · rintro rfl
    exact ⟨_, List.mem_singleton_self _, rfl, rfl⟩

/-- The emitted code places labels that were allocated for it, and names none. -/
def Emitter.PlacesOwn (e : Emitter) : Prop :=
  ∀ ⦃before code after⦄, e.Yields before code after →
    after.names = before.names ∧ before.next ≤ after.next ∧
      ∀ label, Places code label → ∃ k : Nat, label = some (k : Int) ∧
        before.next ≤ k ∧ k < after.next

namespace Emitter.PlacesOwn

variable {a b : Emitter}

theorem emit {code : List Instruction} (h : ∀ i ∈ code, i.mnemonic ≠ .jumpdest) :
    (emit code).PlacesOwn := by
  intro before code' after hyields
  obtain ⟨rfl, rfl⟩ := yields_emit.mp hyields
  refine ⟨rfl, Nat.le_refl _, ?_⟩
  rintro label ⟨i, hi, hjump, -⟩
  exact absurd hjump (h i hi)

theorem fail (e : CompileError) : (fail e).PlacesOwn := by
  intro before code after hyields
  exact absurd hyields not_yields_fail

theorem append (ha : a.PlacesOwn) (hb : b.PlacesOwn) : (a ++ b).PlacesOwn := by
  intro before code after hyields
  obtain ⟨first, middle, second, hfirst, hsecond, rfl⟩ := yields_append.mp hyields
  obtain ⟨hnames, hle, hown⟩ := ha hfirst
  obtain ⟨hnames', hle', hown'⟩ := hb hsecond
  refine ⟨hnames'.trans hnames, Nat.le_trans hle hle', fun label hlabel => ?_⟩
  rcases places_append.mp hlabel with hlabel | hlabel
  · obtain ⟨k, hk, hfrom, hto⟩ := hown label hlabel
    exact ⟨k, hk, hfrom, by omega⟩
  · obtain ⟨k, hk, hfrom, hto⟩ := hown' label hlabel
    exact ⟨k, hk, by omega, hto⟩

/-- Code that allocates a label and places it at its end. -/
theorem withFresh {k : Nat → Emitter} {l : List Instruction} (h : ∀ label, (k label).PlacesOwn)
    (hlast : ∀ i ∈ l, i.mnemonic ≠ .jumpdest) :
    (withFresh fun label => k label ++ Emitter.emit (l ++ [.jumpdest label])).PlacesOwn := by
  intro before code after hyields
  obtain ⟨first, middle, second, hfirst, hsecond, rfl⟩ :=
    yields_append.mp (yields_withFresh.mp hyields)
  obtain ⟨hnames, hle, hown⟩ := h _ hfirst
  obtain ⟨rfl, rfl⟩ := yields_emit.mp hsecond
  dsimp only at hnames hle hown
  refine ⟨hnames, by omega, fun label hlabel => ?_⟩
  rcases places_append.mp hlabel with hlabel | hlabel
  · obtain ⟨j, hj, hfrom, hto⟩ := hown label hlabel
    exact ⟨j, hj, by omega, hto⟩
  rcases places_append.mp hlabel with ⟨i, hi, hjump, -⟩ | hlabel
  · exact absurd hjump (hlast i hi)
  · exact ⟨before.next, places_jumpdest.mp hlabel, Nat.le_refl _, by omega⟩

theorem push (options : CompilerOptions) (value : Nat) : (push options value).PlacesOwn := by
  intro before code after hyields
  obtain ⟨data, rfl, rfl, -⟩ := yields_push hyields
  exact PlacesOwn.emit (by simp [Instruction.push]) (yields_emit.mpr ⟨rfl, rfl⟩)

theorem pushSlot (options : CompilerOptions) (slot : Nat) :
    (pushSlot options slot).PlacesOwn := by
  intro before code after hyields
  exact PlacesOwn.push options _ (yields_pushSlot hyields)

theorem jumpOn (h : a.PlacesOwn) (target : BranchTarget) : (a.jumpOn target).PlacesOwn := by
  cases target with
  | whenTrue label => exact h.append (.emit (by simp [Instruction.pushLabel, Instruction.op]))
  | whenFalse label => exact h.append (.emit (by simp [Instruction.pushLabel, Instruction.op]))

end Emitter.PlacesOwn

/-- Both ways to lower a term place only labels of their own. -/
structure Lowering.PlacesOwn (l : Lowering) : Prop where
  value : l.value.PlacesOwn
  branch : ∀ target, (l.branch target).PlacesOwn

theorem Lowering.PlacesOwn.ofValue {value : Emitter} (h : value.PlacesOwn) :
    (Lowering.ofValue value).PlacesOwn :=
  ⟨h, h.jumpOn⟩

theorem Lowering.PlacesOwn.connect {lhs rhs : Lowering} (op : Connective) (hl : lhs.PlacesOwn)
    (hr : rhs.PlacesOwn) : (Lowering.connect op lhs rhs).PlacesOwn where
  value := by
    refine Emitter.PlacesOwn.append (hl.value.append (.emit ?_)) ?_
    · cases op <;> simp [Instruction.dupTop, Instruction.op]
    · refine .withFresh (l := []) (fun join => .append (.emit ?_) hr.value) (by simp)
      simp [Instruction.pushLabel, Instruction.op]
  branch target := by
    cases op <;> cases target
    case and.whenTrue label =>
      exact Emitter.PlacesOwn.withFresh (l := [])
        (fun skip => (hl.branch (.whenFalse skip)).append (hr.branch (.whenTrue label))) (by simp)
    case or.whenFalse label =>
      exact Emitter.PlacesOwn.withFresh (l := [])
        (fun skip => (hl.branch (.whenTrue skip)).append (hr.branch (.whenFalse label))) (by simp)
    all_goals exact (hl.branch _).append (hr.branch _)

namespace Term

variable {options : CompilerOptions}

theorem IsExpression.placesOwn {t : Term} (h : t.IsExpression) :
    (t.lower options).PlacesOwn := by
  induction h with
  | literal l =>
      rw [lower]
      refine .ofValue ?_
      rw [pushLiteral]
      split
      · exact .fail _
      · exact .push _ _
  | arithmetic op _ _ ihl ihr =>
      rw [lower]
      refine .ofValue ((ihr.value.append ihl.value).append (.emit ?_))
      cases op <;> simp [Arithmetic.code, Instruction.op]
  | connective op _ _ ihl ihr =>
      rw [lower]
      exact .connect op ihl ihr
  | access r _ ih =>
      rw [lower]
      refine .ofValue (ih.value.append (.emit ?_))
      cases r <;> simp [Region.load, Instruction.op]

theorem placesOwn_lowerSlots {values : List Term} (h : ∀ t ∈ values, t.IsExpression)
    (slot : Nat) : (lowerSlots options slot values).PlacesOwn := by
  induction values generalizing slot with
  | nil =>
      rw [lowerSlots]
      exact .emit (by simp)
  | cons t rest ih =>
      rw [lowerSlots]
      have ht := h t List.mem_cons_self
      have hrest := ih (fun u hu => h u (List.mem_cons_of_mem _ hu)) (slot + 1)
      exact ((ht.placesOwn.value.append (.pushSlot _ _)).append
        (.emit (by simp [Instruction.op]))).append hrest

theorem placesOwn_lowerResult {values : List Term} (h : ∀ t ∈ values, t.IsExpression)
    (o : Opcode) : (lowerResult options (.op o) values).PlacesOwn := by
  rw [lowerResult]
  exact (((placesOwn_lowerSlots h 0).append (.pushSlot _ _)).append (.push _ _)).append
    (.emit (by simp [Instruction.op]))

/-- What the code of a statement does to the labels: it places those of its own,
which stay anonymous, and that of its name. -/
structure KeepsScope (t : Term) (before : Labels) (code : List Instruction) (after : Labels) :
    Prop where
  wellFormed : after.WellFormed
  grows : before.Grows after
  places : ∀ label, Places code label →
    (∃ name k, t = .label name ∧ after.find? name = some k ∧ label = some (k : Int)) ∨
      ∃ k : Nat, label = some (k : Int) ∧ after.Anonymous k

theorem KeepsScope.of_placesOwn {t : Term} {e : Emitter} {before after : Labels}
    {code : List Instruction} (h : e.PlacesOwn) (hyields : e.Yields before code after)
    (hbefore : before.WellFormed) : t.KeepsScope before code after := by
  obtain ⟨hnames, hle, hown⟩ := h hyields
  refine ⟨⟨fun e he => ?_, fun e he e' he' => ?_⟩, ⟨hle, [], ?_, ?_⟩, fun label hlabel => ?_⟩
  · exact Nat.lt_of_lt_of_le (hbefore.lt_next e (hnames ▸ he)) hle
  · exact hbefore.injective e (hnames ▸ he) e' (hnames ▸ he')
  · rw [hnames, List.append_nil]
  · exact fun _ he => absurd he List.not_mem_nil
  · obtain ⟨k, hk, hfrom, hto⟩ := hown label hlabel
    refine Or.inr ⟨k, hk, hto, fun e he heq => ?_⟩
    have := hbefore.lt_next e (hnames ▸ he)
    omega

theorem KeepsScope.after_grows {t : Term} {before middle after : Labels}
    {code : List Instruction} (h : t.KeepsScope middle code after) (hgrows : before.Grows middle) :
    t.KeepsScope before code after :=
  ⟨h.wellFormed, hgrows.trans h.grows, h.places⟩

theorem IsStatement.keepsScope {t : Term} (h : t.IsStatement) {before after : Labels}
    {code : List Instruction} (hyields : (t.lower options).value.Yields before code after)
    (hbefore : before.WellFormed) : t.KeepsScope before code after := by
  cases h with
  | @assert condition hcondition =>
      have hplaces : (condition.lower options).PlacesOwn := hcondition.placesOwn
      rw [lower] at hyields
      have hown := Emitter.PlacesOwn.withFresh (l := [.op .invalid])
        (fun label => hplaces.branch (.whenTrue label)) (by simp [Instruction.op])
      exact .of_placesOwn hown hyields hbefore
  | assignMemory hindex hvalue =>
      rw [lower] at hyields
      exact .of_placesOwn (hvalue.placesOwn.value.append (hindex.placesOwn.value.append
        (.emit (by simp [Instruction.op])))) hyields hbefore
  | assignStorage hindex hvalue =>
      rw [lower] at hyields
      exact .of_placesOwn (hvalue.placesOwn.value.append (hindex.placesOwn.value.append
        (.emit (by simp [Instruction.op])))) hyields hbefore
  | fail =>
      rw [lower] at hyields
      exact .of_placesOwn (.emit (by simp [Instruction.op])) hyields hbefore
  | stop =>
      rw [lower] at hyields
      exact .of_placesOwn (.emit (by simp [Instruction.op])) hyields hbefore
  | goto name =>
      obtain ⟨hwf, hgrows, -⟩ := hbefore.named name
      rw [lower] at hyields
      exact .after_grows (.of_placesOwn
        (.emit (by simp [Instruction.pushLabel, Instruction.op])) hyields hwf) hgrows
  | ifGoto name hcondition =>
      obtain ⟨hwf, hgrows, -⟩ := hbefore.named name
      rw [lower] at hyields
      exact .after_grows (.of_placesOwn (hcondition.placesOwn.branch _) hyields hwf) hgrows
  | label name =>
      obtain ⟨hwf, hgrows, hfind⟩ := hbefore.named name
      rw [lower, Lowering.value_ofValue, yields_withNamed] at hyields
      obtain ⟨rfl, rfl⟩ := yields_emit.mp hyields
      refine ⟨hwf, hgrows, fun label hlabel => Or.inl ⟨name, _, rfl, hfind, ?_⟩⟩
      exact places_jumpdest.mp hlabel
  | revert hvalues =>
      rw [lower] at hyields
      exact .of_placesOwn (placesOwn_lowerResult hvalues _) hyields hbefore
  | @succeed values hvalues =>
      cases values with
      | nil =>
          rw [lower] at hyields
          exact .of_placesOwn (.emit (by simp [Instruction.op])) hyields hbefore
      | cons t rest =>
          simp only [lower] at hyields
          exact .of_placesOwn (placesOwn_lowerResult hvalues _) hyields hbefore

end Term

/-! ### Programs -/

variable {options : CompilerOptions}

/-- The labels of a program: each placed one is that of a label statement, or
anonymous. -/
theorem lowerAll_places {terms : List Term} (h : ∀ t ∈ terms, t.IsStatement)
    {before after : Labels} {code : List Instruction}
    (hyields : (lowerAll options terms).Yields before code after) (hbefore : before.WellFormed) :
    after.WellFormed ∧ before.Grows after ∧ ∀ label, Places code label →
      (∃ name k, .label name ∈ terms ∧ after.find? name = some k ∧ label = some (k : Int)) ∨
        ∃ k : Nat, label = some (k : Int) ∧ after.Anonymous k := by
  induction terms generalizing before code with
  | nil =>
      obtain ⟨rfl, rfl⟩ := yields_emit.mp hyields
      refine ⟨hbefore, .refl _, ?_⟩
      rintro label ⟨i, hi, -⟩
      exact absurd hi List.not_mem_nil
  | cons t rest ih =>
      obtain ⟨first, middle, second, hfirst, hsecond, rfl⟩ := yields_append.mp hyields
      have hscope := (h t List.mem_cons_self).keepsScope hfirst hbefore
      obtain ⟨hwf, hgrows, hplaces⟩ :=
        ih (fun u hu => h u (List.mem_cons_of_mem _ hu)) hsecond hscope.wellFormed
      refine ⟨hwf, hscope.grows.trans hgrows, fun label hlabel => ?_⟩
      rcases places_append.mp hlabel with hlabel | hlabel
      · rcases hscope.places label hlabel with ⟨name, k, rfl, hfind, hk⟩ | ⟨k, hk, hanonymous⟩
        · exact Or.inl ⟨name, k, List.mem_cons_self, hgrows.find? hfind, hk⟩
        · exact Or.inr ⟨k, hk, hanonymous.mono hgrows⟩
      · rcases hplaces label hlabel with ⟨name, k, hmem, hfind, hk⟩ | hanonymous
        · exact Or.inl ⟨name, k, List.mem_cons_of_mem _ hmem, hfind, hk⟩
        · exact Or.inr hanonymous

/-- If the label of a name is placed, a statement carries it. -/
theorem label_mem_of_places {terms : List Term} (h : ∀ t ∈ terms, t.IsStatement)
    {after : Labels} {code : List Instruction}
    (hyields : (lowerAll options terms).Yields {} code after) {name : String} {k : Nat}
    (hfind : after.find? name = some k) (hplaces : Places code (some (k : Int))) :
    .label name ∈ terms := by
  obtain ⟨hwf, -, hall⟩ := lowerAll_places h hyields Labels.wellFormed_initial
  rcases hall _ hplaces with ⟨name', k', hmem, hfind', hk⟩ | ⟨k', hk, hanonymous⟩
  · obtain rfl : k = k' := Int.ofNat_inj.mp (Option.some.inj hk)
    rwa [hwf.eq_of_find? hfind hfind']
  · -- a label that was found by its name is not anonymous
    obtain rfl : k = k' := Int.ofNat_inj.mp (Option.some.inj hk)
    exact absurd rfl (hanonymous.unnamed _ (Labels.mem_of_find? hfind))

end EvmToolchain
