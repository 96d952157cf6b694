import EvmToolchain.Proofs.Code.Positioned

/-!
# EvmToolchain.Proofs.Code.Defects

Which streams cannot be assembled.

A stream of instructions that all have an encoding is only rejected for its
labels: one is placed twice, or too far into the code, or is pushed and never
placed (`Assembly.Defect`). What the assembler reports is a defect of the stream,
and a stream with a defect is not assembled (`Assembly.exists_error_iff`).
-/

namespace EvmToolchain

open Instruction

/-- The label that an instruction places. -/
def Instruction.placed? (i : Instruction) : Option (Option Int) :=
  if i.mnemonic = .jumpdest then some i.label else none

/-- The label whose address an instruction pushes. -/
def Instruction.pushed? (i : Instruction) : Option (Option Int) :=
  if i.mnemonic = .pushLabel then some i.label else none

/-- What can be wrong with a label. -/
inductive LabelFault
  | placedTwice
  | tooFar
  | unplaced
  deriving Repr, DecidableEq

/-- What an error says of a label; nothing if an instruction is at fault. -/
def AssemblyError.labelFault? : AssemblyError → Option LabelFault
  | placedTwice _ => some .placedTwice
  | tooFar _ _ => some .tooFar
  | unplaced _ => some .unplaced
  | instruction _ => none

namespace Assembly

/-- The labels that a stream places, in order. -/
def placedLabels (is : List Instruction) : List (Option Int) := is.filterMap placed?

/-- The labels that a stream pushes, in order. -/
def pushedLabels (is : List Instruction) : List (Option Int) := is.filterMap pushed?

variable {is : List Instruction} {label : Option Int}

@[simp] theorem placedLabels_nil : placedLabels [] = [] := rfl

@[simp] theorem pushedLabels_nil : pushedLabels [] = [] := rfl

@[simp] theorem placedLabels_append (a b : List Instruction) :
    placedLabels (a ++ b) = placedLabels a ++ placedLabels b := List.filterMap_append

@[simp] theorem pushedLabels_append (a b : List Instruction) :
    pushedLabels (a ++ b) = pushedLabels a ++ pushedLabels b := List.filterMap_append

theorem placedLabels_cons_jumpdest {i : Instruction} (h : i.mnemonic = .jumpdest)
    (rest : List Instruction) : placedLabels (i :: rest) = i.label :: placedLabels rest :=
  List.filterMap_cons_some (if_pos h)

theorem placedLabels_cons_of_ne {i : Instruction} (h : i.mnemonic ≠ .jumpdest)
    (rest : List Instruction) : placedLabels (i :: rest) = placedLabels rest :=
  List.filterMap_cons_none (if_neg h)

theorem mem_pushedLabels :
    label ∈ pushedLabels is ↔ ∃ i ∈ is, i.mnemonic = .pushLabel ∧ i.label = label := by
  rw [pushedLabels, List.mem_filterMap]
  refine exists_congr fun i => and_congr_right fun _ => ?_
  rw [pushed?]
  split
  · next h => rw [Option.some.injEq, and_iff_right h]
  · next h => simp [h]

/-- The placed labels are those that are placed somewhere. -/
theorem mem_placedLabels : label ∈ placedLabels is ↔ ∃ offset, LabelAt is label offset := by
  induction is with
  | nil => simp [not_labelAt_nil]
  | cons i rest ih =>
      simp only [labelAt_cons, exists_or, exists_and_left, exists_eq, and_true]
      have hrest : (∃ offset offset', LabelAt rest label offset' ∧ offset = i.length + offset') ↔
          label ∈ placedLabels rest := by
        rw [ih]
        exact ⟨fun ⟨_, offset', h, _⟩ => ⟨offset', h⟩, fun ⟨offset', h⟩ => ⟨_, offset', h, rfl⟩⟩
      rw [hrest]
      by_cases hjump : i.mnemonic = .jumpdest
      · rw [placedLabels_cons_jumpdest hjump, List.mem_cons, and_iff_right hjump, eq_comm]
      · rw [placedLabels_cons_of_ne hjump]
        simp [hjump]

/-- Why a stream cannot be assembled, as the assembler reports it. -/
inductive Defect (is : List Instruction) : AssemblyError → Prop
  | placedTwice {label : Option Int} :
      1 < (placedLabels is).count label → Defect is (.placedTwice label)
  | tooFar {label : Option Int} {offset : Nat} :
      LabelAt is label offset → addressLimit ≤ offset → Defect is (.tooFar label offset)
  | unplaced {label : Option Int} :
      label ∈ pushedLabels is → label ∉ placedLabels is → Defect is (.unplaced label)

theorem Defect.exists_labelFault {e : AssemblyError} (h : Defect is e) :
    ∃ fault, e.labelFault? = some fault := by
  cases h <;> exact ⟨_, rfl⟩

/-! ### Placing -/

/-- Placing fails at a label that is placed already, or past the limit. -/
theorem placeFrom_error {placed : Placements} {pc : Nat} {e : AssemblyError}
    (h : placeFrom placed pc is = .error e) :
    (∃ label, e = .placedTwice label ∧ label ∈ placedLabels is ∧
      ((addressOf? label placed).isSome = true ∨ 1 < (placedLabels is).count label)) ∨
    ∃ label offset, e = .tooFar label (pc + offset) ∧ LabelAt is label offset ∧
      addressLimit ≤ pc + offset := by
  induction is generalizing placed pc with
  | nil => cases h
  | cons i rest ih =>
      by_cases hjump : i.mnemonic = .jumpdest
      · rw [placedLabels_cons_jumpdest hjump]
        rw [placeFrom, if_pos hjump] at h
        split at h
        · next hplaced =>
          obtain rfl := Except.error.inj h
          exact Or.inl ⟨_, rfl, List.mem_cons_self, Or.inl hplaced⟩
        · split at h
          · next hlimit =>
            obtain rfl := Except.error.inj h
            exact Or.inr ⟨_, 0, rfl, labelAt_cons.mpr (Or.inl ⟨hjump, rfl, rfl⟩), hlimit⟩
          · rcases ih h with ⟨label, rfl, hmem, hplaced⟩ | ⟨label, offset, rfl, hat, hlimit⟩
            · refine Or.inl ⟨label, rfl, List.mem_cons_of_mem _ hmem, ?_⟩
              rw [addressOf?_cons] at hplaced
              by_cases hlabel : i.label = label
              · -- the label was placed by the first instruction, and is placed again
                subst hlabel
                rw [List.count_cons_self]
                exact Or.inr (Nat.succ_lt_succ (List.count_pos_iff.mpr hmem))
              · rw [if_neg hlabel] at hplaced
                rw [List.count_cons_of_ne hlabel]
                exact hplaced
            · rw [Nat.add_assoc] at hlimit ⊢
              exact Or.inr ⟨label, _, rfl, labelAt_cons.mpr (Or.inr ⟨offset, hat, rfl⟩), hlimit⟩
      · rw [placedLabels_cons_of_ne hjump]
        rw [placeFrom, if_neg hjump] at h
        rcases ih h with hplaced | ⟨label, offset, rfl, hat, hlimit⟩
        · exact Or.inl hplaced
        · rw [Nat.add_assoc] at hlimit ⊢
          exact Or.inr ⟨label, _, rfl, labelAt_cons.mpr (Or.inr ⟨offset, hat, rfl⟩), hlimit⟩

/-- Labels that are placed are new and all different. -/
theorem nodup_of_placeFrom {placed after : Placements} {pc : Nat}
    (h : placeFrom placed pc is = .ok after) :
    (placedLabels is).Nodup ∧ ∀ label ∈ placedLabels is, addressOf? label placed = none := by
  induction is generalizing placed pc with
  | nil => exact ⟨List.nodup_nil, List.forall_mem_nil _⟩
  | cons i rest ih =>
      rcases placeFrom_cons h with ⟨hjump, hfree, -, hrest⟩ | ⟨hjump, hrest⟩
      · obtain ⟨hnodup, hnew⟩ := ih hrest
        have hnew' : ∀ label ∈ placedLabels rest,
            i.label ≠ label ∧ addressOf? label placed = none := by
          intro label hlabel
          have := hnew label hlabel
          rw [addressOf?_cons] at this
          split at this
          · cases this
          · next hne => exact ⟨hne, this⟩
        rw [placedLabels_cons_jumpdest hjump]
        exact ⟨List.nodup_cons.mpr ⟨fun hmem => (hnew' _ hmem).1 rfl, hnodup⟩,
          List.forall_mem_cons.mpr ⟨hfree, fun label hlabel => (hnew' label hlabel).2⟩⟩
      · rw [placedLabels_cons_of_ne hjump]
        exact ih hrest

/-! ### Assembling -/

theorem exists_encode_error {placed : Placements} {e : AssemblyError}
    (h : encodeAll placed is = .error e) : ∃ i ∈ is, encode placed i = .error e := by
  induction is with
  | nil => cases h
  | cons i rest ih =>
      rw [encodeAll] at h
      split at h
      · next hi =>
        obtain rfl := Except.error.inj h
        exact ⟨i, List.mem_cons_self, hi⟩
      · split at h
        · next hrest =>
          obtain rfl := Except.error.inj h
          obtain ⟨j, hj, herror⟩ := ih hrest
          exact ⟨j, List.mem_cons_of_mem _ hj, herror⟩
        · cases h

/-- An instruction that has an encoding is only rejected if it pushes a label
without an address. -/
theorem encode_error {placed : Placements} {i : Instruction} {e : AssemblyError}
    (hi : i.Assemblable) (h : encode placed i = .error e) :
    e = .unplaced i.label ∧ i.mnemonic = .pushLabel ∧ addressOf? i.label placed = none := by
  rcases hi with hi | ⟨label, rfl⟩
  · obtain ⟨bytes, hbytes⟩ := hi.exists_encode
    rw [encode_of_ne hi.mnemonic_ne, hbytes] at h
    cases h
  · have hmnemonic : (Instruction.pushLabel label).mnemonic = .pushLabel := rfl
    cases haddress : addressOf? (Instruction.pushLabel label).label placed with
    | none =>
        rw [encode, if_pos hmnemonic, haddress] at h
        exact ⟨(Except.error.inj h).symm, rfl, rfl⟩
    | some address =>
        have hpush : Readable (.push (BigEndian.ofNat labelWidth address)) := by
          refine .push ?_ ?_ <;> rw [BigEndian.length_ofNat] <;> decide
        obtain ⟨bytes, hbytes⟩ := hpush.exists_encode
        rw [encode, if_pos hmnemonic, haddress] at h
        dsimp only at h
        rw [hbytes] at h
        cases h

/-- What the assembler reports is a defect of the stream. -/
theorem defect_of_error (his : ∀ i ∈ is, i.Assemblable) {e : AssemblyError}
    (h : assemble is = .error e) : Defect is e := by
  rw [assemble] at h
  split at h
  · next hplaced =>
    obtain rfl := Except.error.inj h
    rcases placeFrom_error hplaced with
      ⟨label, rfl, -, hfree | hcount⟩ | ⟨label, offset, rfl, hat, hlimit⟩
    · cases hfree
    · exact .placedTwice hcount
    · rw [Nat.zero_add] at hlimit ⊢
      exact .tooFar hat hlimit
  · next placed hplaced =>
    obtain ⟨i, hi, herror⟩ := exists_encode_error h
    obtain ⟨rfl, hpush, hnone⟩ := encode_error (his i hi) herror
    refine .unplaced (mem_pushedLabels.mpr ⟨i, hi, hpush, rfl⟩) fun hmem => ?_
    obtain ⟨offset, hat⟩ := mem_placedLabels.mp hmem
    rw [(addressOf?_eq_some_iff hplaced).mpr hat] at hnone
    cases hnone

/-- Code that is assembled had no defect. -/
theorem not_defect_of_ok {bytes : List UInt8} (h : assemble is = .ok bytes) (e : AssemblyError) :
    ¬ Defect is e := by
  rw [assemble] at h
  split at h
  · cases h
  · next placed hplaced =>
    rintro (hcount | ⟨hat, hlimit⟩ | ⟨hpushed, hmissing⟩)
    · exact absurd hcount
        (Nat.not_lt.mpr (List.nodup_iff_count.mp (nodup_of_placeFrom hplaced).1 _))
    · have := lt_addressLimit_of_labelAt hplaced hat
      omega
    · obtain ⟨i, hi, hpush, rfl⟩ := mem_pushedLabels.mp hpushed
      obtain ⟨encoded, hencoded⟩ := exists_encode_of_mem h hi
      obtain ⟨address, haddress⟩ := (encode_ok hencoded).2 hpush
      exact hmissing (mem_placedLabels.mpr ⟨address, (addressOf?_eq_some_iff hplaced).mp haddress⟩)

/-- A stream is rejected exactly if it has a defect. -/
theorem exists_error_iff (his : ∀ i ∈ is, i.Assemblable) :
    (∃ e, assemble is = .error e) ↔ ∃ e, Defect is e := by
  constructor
  · rintro ⟨e, h⟩
    exact ⟨e, defect_of_error his h⟩
  · rintro ⟨e, h⟩
    cases hassemble : assemble is with
    | error e => exact ⟨e, rfl⟩
    | ok bytes => exact absurd h (not_defect_of_ok hassemble e)

end Assembly

end EvmToolchain
