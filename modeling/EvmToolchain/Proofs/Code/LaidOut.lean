import EvmToolchain.Proofs.Code.Defects
import Mathlib.Data.List.Nodup

/-!
# EvmToolchain.Proofs.Code.LaidOut

Where the bytes of any stream stand, and why it may have none.

Whatever the instructions are, also data of any length and such as have no
encoding, code that is assembled has the bytes of each of them at the total length
of those before it (`Assembly.LaidOut`). A stream is rejected for its labels if one
of them is placed twice or too far into the code, which is found before anything
is encoded, or if encoding gets as far as the push of a label that is placed
nowhere (`Assembly.PushesUnplaced`). Otherwise only an instruction without an
encoding can be in the way.
-/

namespace EvmToolchain

open Instruction

namespace Assembly

variable {is pre post : List Instruction} {placed : Placements} {i : Instruction}
  {code : List UInt8} {pc : Nat}

/-! ### Assembled streams -/

/-- The code has the bytes of the instructions of a stream where they are placed,
with labels resolved. -/
structure LaidOut (is : List Instruction) (code : List UInt8) : Prop where
  length_eq : code.length = codeSize is
  /-- An instruction that pushes no label is encoded as it is. -/
  encode_eq : ∀ pc i, PlacedAt is pc [i] → i.mnemonic ≠ .pushLabel →
    i.encode = .ok ((code.drop pc).take i.length)
  jumpdest : ∀ label pc, LabelAt is label pc → code[pc]? = some 0x5b
  /-- The push of a label is that of the offset of the only jump destination with
  the label, in two bytes. -/
  pushLabel : ∀ pc i, PlacedAt is pc [i] → i.mnemonic = .pushLabel →
    ∃ target < 0x10000, (placedLabels is).count i.label = 1 ∧
      (∀ offset, LabelAt is i.label offset ↔ offset = target) ∧
      (code.drop pc).take i.length
        = [0x61, UInt8.ofNat (target / 256), UInt8.ofNat (target % 256)]

/-- The encodings of a stream are those of its parts. -/
theorem exists_of_encodeAll_append (h : encodeAll placed (pre ++ post) = .ok code) :
    ∃ front back, encodeAll placed pre = .ok front ∧ encodeAll placed post = .ok back ∧
      code = front ++ back := by
  induction pre generalizing code with
  | nil => exact ⟨[], code, rfl, h, rfl⟩
  | cons i pre ih =>
      obtain ⟨head, more, hhead, hmore, rfl⟩ := encodeAll_cons h
      obtain ⟨front, back, hfront, hback, rfl⟩ := ih hmore
      exact ⟨head ++ front, back, by rw [encodeAll, hhead, hfront], hback,
        (List.append_assoc ..).symm⟩

/-- The encoding of an instruction stands where it is placed. -/
theorem encode_of_placedAt (h : encodeAll placed is = .ok code) (hi : PlacedAt is pc [i]) :
    encode placed i = .ok ((code.drop pc).take i.length) := by
  obtain ⟨pre, post, rfl, rfl⟩ := hi
  rw [List.append_assoc] at h
  obtain ⟨front, back, hfront, hback, rfl⟩ := exists_of_encodeAll_append h
  obtain ⟨head, more, hhead, -, rfl⟩ := encodeAll_cons hback
  rw [← length_encodeAll hfront, List.drop_left, ← length_of_encode hhead, List.take_left, hhead]

/-- The push of a label is encoded as that of its address, in two bytes. -/
theorem encode_pushLabel {address : Nat} (hi : i.mnemonic = .pushLabel)
    (h : addressOf? i.label placed = some address) :
    encode placed i
      = .ok [0x61, UInt8.ofNat (address / 256), UInt8.ofNat (address % 256)] := by
  have hlow : UInt8.ofNat (address % 256) = UInt8.ofNat address := by
    rw [← UInt8.toNat_inj, UInt8.toNat_ofNat', UInt8.toNat_ofNat', Nat.mod_mod]
  rw [encode, if_pos hi, h, hlow]
  rfl

/-- A jump destination is encoded as one byte, whatever its immediate. -/
theorem encode_jumpdest (hi : i.mnemonic = .jumpdest) : encode placed i = .ok [0x5b] := by
  have hne : i.mnemonic ≠ .pushLabel := by rw [hi]; exact Mnemonic.noConfusion
  rw [encode_of_ne hne, Instruction.encode, hi]
  rfl

/-- A label with an address is placed there only. -/
theorem labelAt_iff_of_addressOf? {label : Option Int} {address : Nat}
    (hplaced : placements is = .ok placed) (h : addressOf? label placed = some address)
    (offset : Nat) : LabelAt is label offset ↔ offset = address := by
  rw [← addressOf?_eq_some_iff hplaced, h, Option.some.injEq]
  exact eq_comm

theorem laidOut_of_assemble (h : assemble is = .ok code) : LaidOut is code := by
  rw [assemble] at h
  split at h
  · cases h
  next placed hplaced =>
  constructor
  case length_eq => exact length_encodeAll h
  case encode_eq =>
    intro pc i hi hne
    have hencode := (encode_ok (encode_of_placedAt h hi)).1
    rwa [resolve, if_neg hne] at hencode
  case jumpdest =>
    rintro label pc ⟨i, hjump, -, hi⟩
    have hlength : i.length = 1 := by rw [Instruction.length, hjump]
    have hencode := encode_of_placedAt h hi
    rw [encode_jumpdest hjump, hlength] at hencode
    have hbyte : (code.drop pc).take 1 = [0x5b] := (Except.ok.inj hencode).symm
    have hhead : ((code.drop pc).take 1).head? = (code.drop pc).head? := by
      rw [List.head?_take, if_neg Nat.one_ne_zero]
    rw [← List.head?_drop, ← hhead, hbyte]
    rfl
  case pushLabel =>
    intro pc i hi hpush
    have hencode := encode_of_placedAt h hi
    obtain ⟨address, haddress⟩ := (encode_ok hencode).2 hpush
    have hat := (addressOf?_eq_some_iff hplaced).mp haddress
    have hlimit := lt_addressLimit_of_labelAt hplaced hat
    rw [Nat.zero_add] at hlimit
    have hcount : (placedLabels is).count i.label = 1 :=
      List.count_eq_one_of_mem (nodup_of_placeFrom hplaced).1 (mem_placedLabels.mpr ⟨address, hat⟩)
    rw [encode_pushLabel hpush haddress] at hencode
    exact ⟨address, hlimit, hcount, labelAt_iff_of_addressOf? hplaced haddress,
      (Except.ok.inj hencode).symm⟩

/-! ### Rejected streams -/

/-- The stream pushes a label that it places nowhere, and whatever comes before the
push and is no such push itself has an encoding. -/
def PushesUnplaced (is : List Instruction) : Prop :=
  ∃ pre i post, is = pre ++ i :: post ∧ i.mnemonic = .pushLabel ∧ i.label ∉ placedLabels is ∧
    ∀ j ∈ pre, j.mnemonic ≠ .pushLabel → ∃ bytes, j.encode = .ok bytes

/-- Labels are not placed exactly if one is placed twice or too far away. -/
theorem exists_placements_error_iff :
    (∃ e, placements is = .error e) ↔
      (∃ label, 1 < (placedLabels is).count label) ∨
        ∃ label offset, LabelAt is label offset ∧ addressLimit ≤ offset := by
  constructor
  · rintro ⟨e, he⟩
    rcases placeFrom_error he with ⟨label, -, -, hfree | hcount⟩ | ⟨label, offset, -, hat, hlimit⟩
    · cases hfree
    · exact Or.inl ⟨label, hcount⟩
    · rw [Nat.zero_add] at hlimit
      exact Or.inr ⟨label, offset, hat, hlimit⟩
  · intro hfault
    cases hplaced : placements is with
    | error e => exact ⟨e, rfl⟩
    | ok placed =>
        rcases hfault with ⟨label, hcount⟩ | ⟨label, offset, hat, hlimit⟩
        · have hone := List.nodup_iff_count.mp (nodup_of_placeFrom hplaced).1 label
          omega
        · have hlt := lt_addressLimit_of_labelAt hplaced hat
          omega

theorem labelFault_of_placements {e : AssemblyError} (h : placements is = .error e) :
    ∃ fault, e.labelFault? = some fault := by
  rcases placeFrom_error h with ⟨label, rfl, -⟩ | ⟨label, offset, rfl, -⟩
  · exact ⟨_, rfl⟩
  · exact ⟨_, rfl⟩

/-- An instruction is rejected for its label if it pushes one without an address. -/
theorem encode_eq_unplaced (hi : i.mnemonic = .pushLabel) (h : addressOf? i.label placed = none) :
    encode placed i = .error (.unplaced i.label) := by
  rw [encode, if_pos hi, h]

/-- Only the push of a label without an address is rejected for its label. -/
theorem encode_labelFault {e : AssemblyError} {fault : LabelFault}
    (h : encode placed i = .error e) (hfault : e.labelFault? = some fault) :
    i.mnemonic = .pushLabel ∧ addressOf? i.label placed = none := by
  have hmap : ∀ {j : Instruction},
      Except.mapError AssemblyError.instruction j.encode ≠ .error e := by
    intro j hj
    cases hcode : j.encode with
    | ok bytes =>
        rw [hcode] at hj
        cases hj
    | error e' =>
        rw [hcode] at hj
        obtain rfl := Except.error.inj hj
        cases hfault
  rw [encode] at h
  by_cases hpush : i.mnemonic = .pushLabel
  · rw [if_pos hpush] at h
    cases haddress : addressOf? i.label placed with
    | none => exact ⟨hpush, rfl⟩
    | some address =>
        rw [haddress] at h
        exact absurd h hmap
  · rw [if_neg hpush] at h
    exact absurd h hmap

/-- What is encoded before an instruction that is rejected. -/
theorem exists_of_encodeAll_error {e : AssemblyError} (h : encodeAll placed is = .error e) :
    ∃ pre i post, is = pre ++ i :: post ∧ encode placed i = .error e ∧
      ∀ j ∈ pre, ∃ bytes, encode placed j = .ok bytes := by
  induction is with
  | nil => cases h
  | cons i rest ih =>
      rw [encodeAll] at h
      split at h
      · next hi =>
        obtain rfl := Except.error.inj h
        exact ⟨[], i, rest, rfl, hi, List.forall_mem_nil _⟩
      · next bytes hi =>
        split at h
        · next hrest =>
          obtain rfl := Except.error.inj h
          obtain ⟨pre, j, post, rfl, hj, hpre⟩ := ih hrest
          exact ⟨i :: pre, j, post, rfl, hj, List.forall_mem_cons.mpr ⟨⟨bytes, hi⟩, hpre⟩⟩
        · cases h

/-- Encoding that gets as far as the push of a label without an address fails for
the label of that push, or for that of an earlier one. -/
theorem exists_encodeAll_unplaced (hi : i.mnemonic = .pushLabel)
    (haddress : addressOf? i.label placed = none)
    (hpre : ∀ j ∈ pre, j.mnemonic ≠ .pushLabel → ∃ bytes, j.encode = .ok bytes) :
    ∃ label, encodeAll placed (pre ++ i :: post) = .error (.unplaced label) := by
  induction pre with
  | nil => exact ⟨i.label, by rw [List.nil_append, encodeAll, encode_eq_unplaced hi haddress]⟩
  | cons j pre ih =>
      obtain ⟨hj, hpre⟩ := List.forall_mem_cons.mp hpre
      obtain ⟨label, hrest⟩ := ih hpre
      rw [List.cons_append, encodeAll, hrest]
      by_cases hpush : j.mnemonic = .pushLabel
      · cases hfound : addressOf? j.label placed with
        | none => exact ⟨j.label, by rw [encode_eq_unplaced hpush hfound]⟩
        | some address => exact ⟨label, by rw [encode_pushLabel hpush hfound]⟩
      · obtain ⟨bytes, hbytes⟩ := hj hpush
        exact ⟨label, by rw [encode_of_ne hpush, hbytes]; rfl⟩

theorem addressOf?_eq_none_iff (h : placements is = .ok placed) {label : Option Int} :
    addressOf? label placed = none ↔ label ∉ placedLabels is := by
  rw [mem_placedLabels, Option.eq_none_iff_forall_ne_some]
  simp only [ne_eq, addressOf?_eq_some_iff h, not_exists]

/-- When placing succeeds, encoding fails for a label exactly if it gets as far as the
push of one that is placed nowhere. -/
theorem exists_labelFault_iff (h : placements is = .ok placed) :
    (∃ e fault, encodeAll placed is = .error e ∧ e.labelFault? = some fault) ↔
      PushesUnplaced is := by
  constructor
  · rintro ⟨e, fault, he, hfault⟩
    obtain ⟨pre, i, post, his, hi, hpre⟩ := exists_of_encodeAll_error he
    obtain ⟨hpush, hnone⟩ := encode_labelFault hi hfault
    refine ⟨pre, i, post, his, hpush, (addressOf?_eq_none_iff h).mp hnone, fun j hj hne => ?_⟩
    obtain ⟨bytes, hbytes⟩ := hpre j hj
    have hencode := (encode_ok hbytes).1
    rw [resolve, if_neg hne] at hencode
    exact ⟨bytes, hencode⟩
  · rintro ⟨pre, i, post, his, hpush, hmissing, hpre⟩
    have hnone := (addressOf?_eq_none_iff h).mpr hmissing
    subst his
    obtain ⟨label, hlabel⟩ := exists_encodeAll_unplaced hpush hnone hpre
    exact ⟨_, _, hlabel, rfl⟩

/-- Assembling any stream. If there are bytes, those of every instruction stand where
the instruction is placed. And there are none for the sake of a label exactly if one
is placed twice, or with 65536 bytes before it, or if the assembler gets as far as the
push of a label that is placed nowhere. -/
theorem assemble_lays_out (is : List Instruction) :
    (∀ code, assemble is = .ok code → LaidOut is code) ∧
    ((∃ e fault, assemble is = .error e ∧ e.labelFault? = some fault) ↔
      (∃ label, 1 < (placedLabels is).count label) ∨
      (∃ label offset, LabelAt is label offset ∧ 0x10000 ≤ offset) ∨ PushesUnplaced is) := by
  refine ⟨fun code h => laidOut_of_assemble h, ?_⟩
  have hplacing : (∃ e, placements is = .error e) ↔
      (∃ label, 1 < (placedLabels is).count label) ∨
        ∃ label offset, LabelAt is label offset ∧ 0x10000 ≤ offset := exists_placements_error_iff
  rw [← or_assoc]
  cases hplaced : placements is with
  | error e =>
      obtain ⟨fault, he⟩ := labelFault_of_placements hplaced
      refine iff_of_true ⟨e, fault, ?_, he⟩ (Or.inl (hplacing.mp ⟨e, hplaced⟩))
      rw [assemble, hplaced]
  | ok placed =>
      have hnone : ¬ ∃ e, placements is = .error e := by simp [hplaced]
      rw [hplacing] at hnone
      rw [or_iff_right hnone, ← exists_labelFault_iff hplaced, assemble, hplaced]

/-- Data that looks like a jump destination, and the push of a label forward over
more data. -/
theorem assemble_lays_out_data :
    assemble [.raw [0x5b], .pushLabel 7, .raw [], .raw [0x61, 0x00], ⟨.jumpdest, [0xff], some 7⟩]
        = .ok [0x5b, 0x61, 0x00, 0x06, 0x61, 0x00, 0x5b] ∧
      LaidOut [.raw [0x5b], .pushLabel 7, .raw [], .raw [0x61, 0x00], ⟨.jumpdest, [0xff], some 7⟩]
        [0x5b, 0x61, 0x00, 0x06, 0x61, 0x00, 0x5b] := by
  have hassemble : assemble [.raw [0x5b], .pushLabel 7, .raw [], .raw [0x61, 0x00],
      ⟨.jumpdest, [0xff], some 7⟩] = .ok [0x5b, 0x61, 0x00, 0x06, 0x61, 0x00, 0x5b] := rfl
  exact ⟨hassemble, (assemble_lays_out _).1 _ hassemble⟩

end Assembly

end EvmToolchain
