import EvmToolchain.Assembly
import EvmToolchain.Proofs.Code.Blocks

/-!
# EvmToolchain.Proofs.Code.Assembled

What stands where in assembled code.

A part of a stream is placed at the total length of what comes before it
(`Assembly.PlacedAt`). In the assembled code the encodings of the stream are
walked over one after the other (`Assembly.walk_of_encodeAll`). So an instruction
is read again where it is placed (`Assembled.decodeAt_placed`), with labels
resolved to the offsets of the jump destinations that place them, and no
instruction is read anywhere else (`Assembled.exists_placedAt`).
-/

namespace EvmToolchain

open Instruction

/-- What can stand in a stream: an instruction that can be read from code, or
the push of a label. -/
def Instruction.Assemblable (i : Instruction) : Prop :=
  i.Readable ∨ ∃ label, i = .pushLabel label

/-- The instructions of a program without data: pushes of one to 32 bytes, label
pushes and jump destinations with whatever label, and plain opcodes. -/
inductive Instruction.Linkable : Instruction → Prop
  | push {data : List UInt8} : 1 ≤ data.length → data.length ≤ maxImmediate → Linkable (.push data)
  | push0 : Linkable .push0
  | pushLabel (data : List UInt8) (label : Option Int) : Linkable ⟨.pushLabel, data, label⟩
  | jumpdest (data : List UInt8) (label : Option Int) : Linkable ⟨.jumpdest, data, label⟩
  | op (o : Opcode) : Linkable (.op o)

theorem Instruction.Assemblable.linkable {i : Instruction} (h : i.Assemblable) : i.Linkable := by
  rcases h with h | ⟨label, rfl⟩
  · cases h with
    | push hpos hle => exact .push hpos hle
    | push0 => exact .push0
    | jumpdest label => exact .jumpdest [] (some label)
    | op o => exact .op o
  · exact .pushLabel [] (some label)

theorem Instruction.Linkable.whole {i : Instruction} (h : i.Linkable) : i.Whole := by
  cases h with
  | push _ hle => exact whole_of_not_data Mnemonic.noConfusion (fun _ => hle) nofun
  | _ => exact whole_of_not_data Mnemonic.noConfusion nofun nofun

namespace Assembly

/-! ### Parts of a stream -/

/-- The part of a stream stands at an offset: the total length of what comes
before it. -/
def PlacedAt (is : List Instruction) (pc : Nat) (part : List Instruction) : Prop :=
  ∃ pre post, is = pre ++ part ++ post ∧ pc = codeSize pre

namespace PlacedAt

variable {is a b : List Instruction} {pc : Nat} {i : Instruction}

theorem left (h : PlacedAt is pc (a ++ b)) : PlacedAt is pc a := by
  obtain ⟨pre, post, rfl, rfl⟩ := h
  exact ⟨pre, b ++ post, by simp only [List.append_assoc], rfl⟩

theorem right (h : PlacedAt is pc (a ++ b)) : PlacedAt is (pc + codeSize a) b := by
  obtain ⟨pre, post, rfl, rfl⟩ := h
  exact ⟨pre ++ a, post, by simp only [List.append_assoc], (codeSize_append pre a).symm⟩

theorem head (h : PlacedAt is pc (i :: a)) : PlacedAt is pc [i] := left (b := a) h

theorem tail (h : PlacedAt is pc (i :: a)) : PlacedAt is (pc + i.length) a :=
  right (a := [i]) h

theorem le_codeSize (h : PlacedAt is pc a) : pc + codeSize a ≤ codeSize is := by
  obtain ⟨pre, post, rfl, rfl⟩ := h
  rw [codeSize_append, codeSize_append]
  omega

theorem mem (h : PlacedAt is pc [i]) : i ∈ is := by
  obtain ⟨pre, post, rfl, -⟩ := h
  simp

theorem exists_of_mem (h : PlacedAt is pc a) (hi : i ∈ a) : ∃ pc', PlacedAt is pc' [i] := by
  obtain ⟨pre, post, rfl⟩ := List.append_of_mem hi
  exact ⟨_, h.right.head⟩

end PlacedAt

/-! ### Label addresses -/

/-- The label is placed at an offset. -/
def LabelAt (is : List Instruction) (label : Option Int) (pc : Nat) : Prop :=
  ∃ i, i.mnemonic = .jumpdest ∧ i.label = label ∧ PlacedAt is pc [i]

theorem addressOf?_cons (label label' : Option Int) (pc : Nat) (placed : Placements) :
    addressOf? label ((label', pc) :: placed)
      = if label' = label then some pc else addressOf? label placed := by
  rw [addressOf?, List.find?_cons]
  by_cases h : label' = label
  · rw [if_pos h, show (label' == label) = true from beq_iff_eq.mpr h]
    rfl
  · rw [if_neg h, show (label' == label) = false from beq_eq_false_iff_ne.mpr h]
    rfl

/-- The labels of a stream are those of its first instruction and of the rest. -/
theorem labelAt_cons {i : Instruction} {rest : List Instruction} {label : Option Int}
    {offset : Nat} :
    LabelAt (i :: rest) label offset ↔
      (i.mnemonic = .jumpdest ∧ i.label = label ∧ offset = 0) ∨
        ∃ offset', LabelAt rest label offset' ∧ offset = i.length + offset' := by
  constructor
  · rintro ⟨j, hj, hlabel, pre, post, heq, rfl⟩
    cases pre with
    | nil =>
        obtain ⟨rfl, -⟩ := List.cons.inj heq
        exact Or.inl ⟨hj, hlabel, rfl⟩
    | cons first pre =>
        obtain ⟨hfirst, hrest⟩ := List.cons.inj heq
        subst hfirst
        exact Or.inr ⟨codeSize pre, ⟨j, hj, hlabel, pre, post, hrest, rfl⟩, rfl⟩
  · rintro (⟨hi, hlabel, rfl⟩ | ⟨_, ⟨j, hj, hlabel, pre, post, rfl, rfl⟩, rfl⟩)
    · exact ⟨i, hi, hlabel, [], rest, rfl, rfl⟩
    · exact ⟨j, hj, hlabel, i :: pre, post, rfl, rfl⟩

theorem not_labelAt_nil {label : Option Int} {offset : Nat} : ¬ LabelAt [] label offset := by
  rintro ⟨i, -, -, hi⟩
  exact absurd hi.mem List.not_mem_nil

/-- One step of placing: a jump destination is placed below the limit, under a
label that was free, and nothing else is placed. -/
theorem placeFrom_cons {placed after : Placements} {pc : Nat} {i : Instruction}
    {rest : List Instruction} (h : placeFrom placed pc (i :: rest) = .ok after) :
    (i.mnemonic = .jumpdest ∧ addressOf? i.label placed = none ∧ pc < addressLimit ∧
        placeFrom ((i.label, pc) :: placed) (pc + i.length) rest = .ok after) ∨
      (i.mnemonic ≠ .jumpdest ∧ placeFrom placed (pc + i.length) rest = .ok after) := by
  rw [placeFrom] at h
  by_cases hjump : i.mnemonic = .jumpdest
  · rw [if_pos hjump] at h
    split at h
    · cases h
    · next hnew =>
      split at h
      · cases h
      · next hlimit =>
        exact Or.inl ⟨hjump, by simpa using hnew, Nat.not_le.mp hlimit, h⟩
  · rw [if_neg hjump] at h
    exact Or.inr ⟨hjump, h⟩

/-- Everything is placed below the limit. -/
theorem lt_addressLimit_of_labelAt {is : List Instruction} {placed after : Placements} {pc : Nat}
    (h : placeFrom placed pc is = .ok after) {label : Option Int} {offset : Nat}
    (hlabel : LabelAt is label offset) : pc + offset < addressLimit := by
  induction is generalizing placed pc offset with
  | nil => exact absurd hlabel not_labelAt_nil
  | cons i rest ih =>
      rcases placeFrom_cons h with ⟨-, -, hlimit, hrest⟩ | ⟨hjump, hrest⟩
      · rcases labelAt_cons.mp hlabel with ⟨-, -, rfl⟩ | ⟨offset', hoffset, rfl⟩
        · exact hlimit
        · have := ih hrest hoffset
          omega
      · rcases labelAt_cons.mp hlabel with ⟨hi, -⟩ | ⟨offset', hoffset, rfl⟩
        · exact absurd hi hjump
        · have := ih hrest hoffset
          omega

/-- Placing adds the jump destinations of the stream to what is placed. -/
theorem addressOf?_placeFrom {is : List Instruction} {placed after : Placements} {pc : Nat}
    (h : placeFrom placed pc is = .ok after) (label : Option Int) (address : Nat) :
    addressOf? label after = some address ↔
      addressOf? label placed = some address ∨
        ∃ offset, LabelAt is label offset ∧ address = pc + offset := by
  induction is generalizing placed pc with
  | nil =>
      obtain rfl := Except.ok.inj h
      simp [not_labelAt_nil]
  | cons i rest ih =>
      simp only [labelAt_cons]
      rcases placeFrom_cons h with ⟨hjump, hfree, -, hrest⟩ | ⟨hjump, hrest⟩
      · rw [ih hrest, addressOf?_cons]
        constructor
        · rintro (hplaced | ⟨offset, hoffset, rfl⟩)
          · split at hplaced
            · next hlabel =>
              obtain rfl := Option.some.inj hplaced
              exact Or.inr ⟨0, Or.inl ⟨hjump, hlabel, rfl⟩, rfl⟩
            · exact Or.inl hplaced
          · exact Or.inr ⟨_, Or.inr ⟨offset, hoffset, rfl⟩, Nat.add_assoc ..⟩
        · rintro (hplaced | ⟨_, ⟨-, hlabel, rfl⟩ | ⟨offset, hoffset, rfl⟩, rfl⟩)
          · -- the new entry hides no earlier one: its label was free
            have hne : i.label ≠ label := by
              rintro rfl
              rw [hplaced] at hfree
              cases hfree
            rw [if_neg hne]
            exact Or.inl hplaced
          · rw [if_pos hlabel]
            exact Or.inl rfl
          · exact Or.inr ⟨offset, hoffset, (Nat.add_assoc ..).symm⟩
      · rw [ih hrest]
        constructor
        · rintro (hplaced | ⟨offset, hoffset, rfl⟩)
          · exact Or.inl hplaced
          · exact Or.inr ⟨_, Or.inr ⟨offset, hoffset, rfl⟩, Nat.add_assoc ..⟩
        · rintro (hplaced | ⟨_, ⟨hi, -⟩ | ⟨offset, hoffset, rfl⟩, rfl⟩)
          · exact Or.inl hplaced
          · exact absurd hi hjump
          · exact Or.inr ⟨offset, hoffset, (Nat.add_assoc ..).symm⟩

/-- The address of a label is where it is placed. -/
theorem addressOf?_eq_some_iff {is : List Instruction} {placed : Placements}
    (h : placements is = .ok placed) {label : Option Int} {address : Nat} :
    addressOf? label placed = some address ↔ LabelAt is label address := by
  rw [addressOf?_placeFrom h]
  constructor
  · rintro (hplaced | ⟨offset, hoffset, rfl⟩)
    · cases hplaced
    · rwa [Nat.zero_add]
  · exact fun hlabel => Or.inr ⟨address, hlabel, (Nat.zero_add _).symm⟩

/-! ### Encoding a stream -/

/-- The instruction that is encoded in the place of one of the stream. -/
def resolve (placed : Placements) (i : Instruction) : Instruction :=
  if i.mnemonic = .pushLabel then
    .push (BigEndian.ofNat labelWidth ((addressOf? i.label placed).getD 0))
  else i

theorem length_resolve (placed : Placements) (i : Instruction) :
    (resolve placed i).length = i.length := by
  unfold resolve
  split
  · next h => simp [length, push, h]
  · rfl

theorem encode_ok {placed : Placements} {i : Instruction} {bytes : List UInt8}
    (h : encode placed i = .ok bytes) :
    (resolve placed i).encode = .ok bytes ∧
      (i.mnemonic = .pushLabel → ∃ address, addressOf? i.label placed = some address) := by
  have hmap : ∀ {j : Instruction},
      Except.mapError AssemblyError.instruction j.encode = .ok bytes → j.encode = .ok bytes := by
    intro j hj
    cases hcode : j.encode with
    | error e =>
        rw [hcode] at hj
        cases hj
    | ok b =>
        rw [hcode] at hj
        exact congrArg _ (Except.ok.inj hj)
  rw [encode] at h
  by_cases hlabel : i.mnemonic = .pushLabel
  · rw [if_pos hlabel] at h
    cases haddress : addressOf? i.label placed with
    | none =>
        rw [haddress] at h
        cases h
    | some address =>
        rw [haddress] at h
        refine ⟨?_, fun _ => ⟨address, rfl⟩⟩
        rw [resolve, if_pos hlabel, haddress]
        exact hmap h
  · rw [if_neg hlabel] at h
    rw [resolve, if_neg hlabel]
    exact ⟨hmap h, fun h => absurd h hlabel⟩

/-- The encoding of an instruction is as long as the instruction: resolving a
label does not change the length of its push. -/
theorem length_of_encode {placed : Placements} {i : Instruction} {bytes : List UInt8}
    (h : encode placed i = .ok bytes) : bytes.length = i.length := by
  rw [length_encode (encode_ok h).1, length_resolve]

/-- The first encoding of a stream, and those after it. -/
theorem encodeAll_cons {placed : Placements} {i : Instruction} {rest : List Instruction}
    {bytes : List UInt8} (h : encodeAll placed (i :: rest) = .ok bytes) :
    ∃ head more, encode placed i = .ok head ∧ encodeAll placed rest = .ok more ∧
      bytes = head ++ more := by
  rw [encodeAll] at h
  split at h
  · cases h
  · next head hhead =>
    split at h
    · cases h
    · next more hmore => exact ⟨head, more, hhead, hmore, (Except.ok.inj h).symm⟩

/-- In a stream that was encoded every instruction has an encoding. -/
theorem exists_encode_of_mem {placed : Placements} {is : List Instruction} {bytes : List UInt8}
    (h : encodeAll placed is = .ok bytes) {i : Instruction} (hi : i ∈ is) :
    ∃ encoded, encode placed i = .ok encoded := by
  induction is generalizing bytes with
  | nil => cases hi
  | cons first rest ih =>
      obtain ⟨head, more, hhead, hmore, -⟩ := encodeAll_cons h
      rcases List.mem_cons.mp hi with rfl | hi
      · exact ⟨head, hhead⟩
      · exact ih hmore hi

theorem length_encodeAll {placed : Placements} {is : List Instruction} {bytes : List UInt8}
    (h : encodeAll placed is = .ok bytes) : bytes.length = codeSize is := by
  induction is generalizing bytes with
  | nil =>
      obtain rfl := Except.ok.inj h
      rfl
  | cons i rest ih =>
      obtain ⟨head, more, hhead, hmore, rfl⟩ := encodeAll_cons h
      rw [List.length_append, ih hmore, codeSize_cons, length_of_encode hhead]

/-! ### Decoding what was encoded -/

variable {placed : Placements}

/-- An instruction of the stream is read where its encoding stands. -/
theorem decodeAt_resolve {code : Bytes} {pc : Nat} {i : Instruction} {bytes : List UInt8}
    (hi : i.Linkable) (h : encode placed i = .ok bytes) (hholds : code.Holds pc bytes) :
    decodeAt code pc = (resolve placed i).readAt pc := by
  have hencode := (encode_ok h).1
  cases hi with
  | push hpos hle => exact decodeAt_encode (.push hpos hle) hencode hholds
  | push0 => exact decodeAt_encode .push0 hencode hholds
  | pushLabel data label =>
      refine decodeAt_encode (.push ?_ ?_) hencode hholds <;> rw [BigEndian.length_ofNat] <;> decide
  | jumpdest data label =>
      obtain rfl := Except.ok.inj hencode
      exact decodeAt_jumpdest hholds.byteAt_head
  | op o => exact decodeAt_encode (.op o) hencode hholds

/-- The push of a label is a whole instruction once the label is resolved. -/
theorem whole_resolve {i : Instruction} (hi : i.Whole) : (resolve placed i).Whole := by
  unfold resolve
  split
  · refine Linkable.whole (.push ?_ ?_) <;> rw [BigEndian.length_ofNat] <;> decide
  · exact hi

theorem length_decodeAt_resolve {code : Bytes} {pc : Nat} {i : Instruction} {bytes : List UInt8}
    (hi : i.Whole) (h : encode placed i = .ok bytes) (hholds : code.Holds pc bytes) :
    (decodeAt code pc).length = i.length := by
  rw [(whole_resolve hi).length_decodeAt (encode_ok h).1 hholds, length_resolve]

/-- The encodings of a stream are walked over one after the other. -/
theorem walk_of_encodeAll {code : Bytes} {pc : Nat} {pre post : List Instruction}
    {bytes : List UInt8} (hpre : ∀ i ∈ pre, i.Whole)
    (h : encodeAll placed (pre ++ post) = .ok bytes) (hholds : code.Holds pc bytes) :
    Walk code pc (pc + codeSize pre) ∧ ∃ back, encodeAll placed post = .ok back ∧
      code.Holds (pc + codeSize pre) back := by
  induction pre generalizing pc bytes with
  | nil => exact ⟨.refl pc, bytes, h, hholds⟩
  | cons i pre ih =>
      obtain ⟨head, more, hhead, hmore, rfl⟩ := encodeAll_cons h
      have hlen := length_decodeAt_resolve (hpre i List.mem_cons_self) hhead hholds.left
      obtain ⟨hwalk, hback⟩ := ih (fun j hj => hpre j (List.mem_cons_of_mem _ hj)) hmore
        (length_of_encode hhead ▸ hholds.right)
      rw [codeSize_cons, ← Nat.add_assoc]
      exact ⟨.step (hlen.symm ▸ hwalk), hback⟩

/-- Every part of the stream starts at an instruction boundary, where the
encodings of the part stand. -/
theorem walk_of_placedAt {code : Bytes} {is part : List Instruction} {bytes : List UInt8} {pc : Nat}
    (his : ∀ i ∈ is, i.Whole) (h : encodeAll placed is = .ok bytes)
    (hholds : code.Holds 0 bytes) (hpart : PlacedAt is pc part) :
    Walk code 0 pc ∧ ∃ post back, encodeAll placed (part ++ post) = .ok back ∧
      code.Holds pc back := by
  obtain ⟨pre, post, rfl, rfl⟩ := hpart
  rw [List.append_assoc] at h his
  obtain ⟨hwalk, back, hback, hheld⟩ :=
    walk_of_encodeAll (fun i hi => his i (List.mem_append_left _ hi)) h hholds
  rw [Nat.zero_add] at hwalk hheld
  exact ⟨hwalk, post, back, hback, hheld⟩

/-- An instruction of the stream has its encoding where it is placed. -/
theorem holds_of_placedAt {code : Bytes} {is : List Instruction} {bytes : List UInt8} {pc : Nat}
    (his : ∀ i ∈ is, i.Whole) (h : encodeAll placed is = .ok bytes)
    (hholds : code.Holds 0 bytes) {i : Instruction} (hi : PlacedAt is pc [i]) :
    ∃ encoded, encode placed i = .ok encoded ∧ code.Holds pc encoded := by
  obtain ⟨-, post, back, hback, hheld⟩ := walk_of_placedAt his h hholds hi
  obtain ⟨encoded, _, hencoded, -, rfl⟩ := encodeAll_cons hback
  exact ⟨encoded, hencoded, hheld.left⟩

end Assembly

open Assembly

/-- The code is what a stream of instructions is assembled to. -/
structure Assembled (is : List Instruction) (code : Bytes) : Prop where
  whole : ∀ i ∈ is, i.Whole
  assemble_eq : ∃ bytes, assemble is = .ok bytes ∧ code = .ofList bytes

namespace Assembled

variable {is : List Instruction} {code : Bytes}

theorem exists_placements (h : Assembled is code) :
    ∃ placed bytes, placements is = .ok placed ∧ encodeAll placed is = .ok bytes ∧
      code = .ofList bytes := by
  obtain ⟨bytes, hbytes, hcode⟩ := h.assemble_eq
  rw [assemble] at hbytes
  split at hbytes
  · cases hbytes
  · next placed hplaced => exact ⟨placed, bytes, hplaced, hbytes, hcode⟩

theorem size_eq (h : Assembled is code) : code.size = codeSize is := by
  obtain ⟨placed, bytes, -, hencode, rfl⟩ := h.exists_placements
  rw [Bytes.size_ofList, length_encodeAll hencode]

/-- Every part of the stream starts at an instruction boundary. -/
theorem walk (h : Assembled is code) {pc : Nat} {part : List Instruction}
    (hpart : PlacedAt is pc part) : Walk code 0 pc := by
  obtain ⟨placed, bytes, -, hencode, rfl⟩ := h.exists_placements
  exact (walk_of_placedAt h.whole hencode (.ofList bytes) hpart).1

/-- The encoding of an instruction of the stream stands where it is placed. -/
theorem holds {placed : Placements} (h : Assembled is code)
    (hplaced : placements is = .ok placed) {pc : Nat} {i : Instruction} (hi : PlacedAt is pc [i]) :
    ∃ encoded, encode placed i = .ok encoded ∧ code.Holds pc encoded := by
  obtain ⟨placed', bytes, hplaced', hencode, rfl⟩ := h.exists_placements
  obtain rfl := Except.ok.inj (hplaced.symm.trans hplaced')
  exact holds_of_placedAt h.whole hencode (.ofList bytes) hi

/-- An instruction of the stream is read again where it is placed, with its
label resolved. -/
theorem decodeAt_placed {placed : Placements} (h : Assembled is code)
    (hplaced : placements is = .ok placed) {pc : Nat} {i : Instruction} (hlinkable : i.Linkable)
    (hi : PlacedAt is pc [i]) : decodeAt code pc = (resolve placed i).readAt pc := by
  obtain ⟨encoded, hencoded, hheld⟩ := h.holds hplaced hi
  exact decodeAt_resolve hlinkable hencoded hheld

theorem length_decodeAt (h : Assembled is code) {pc : Nat} {i : Instruction}
    (hi : PlacedAt is pc [i]) : (decodeAt code pc).length = i.length := by
  obtain ⟨placed, -, hplaced, -⟩ := h.exists_placements
  obtain ⟨encoded, hencoded, hheld⟩ := h.holds hplaced hi
  exact length_decodeAt_resolve (h.whole i hi.mem) hencoded hheld

theorem lt_size (h : Assembled is code) {pc : Nat} {i : Instruction} (hi : PlacedAt is pc [i]) :
    pc < code.size := by
  have hle := hi.le_codeSize
  have hpos := length_decodeAt_pos code pc
  rw [h.length_decodeAt hi] at hpos
  rw [codeSize_cons, codeSize_nil] at hle
  rw [h.size_eq]
  omega

/-! ### The instructions of the code -/

/-- An opcode is read where it is placed. -/
theorem decodeAt_op (h : Assembled is code) {pc : Nat} {o : Opcode}
    (hi : PlacedAt is pc [.op o]) : decodeAt code pc = .op o := by
  obtain ⟨placed, -, hplaced, -⟩ := h.exists_placements
  exact h.decodeAt_placed hplaced (.op o) hi

/-- A push is read where it is placed. -/
theorem decodeAt_push (h : Assembled is code) {pc : Nat} {data : List UInt8}
    (hpos : 1 ≤ data.length) (hle : data.length ≤ maxImmediate)
    (hi : PlacedAt is pc [.push data]) : decodeAt code pc = .push data := by
  obtain ⟨placed, -, hplaced, -⟩ := h.exists_placements
  exact h.decodeAt_placed hplaced (.push hpos hle) hi

/-- A jump destination is read where it is placed. -/
theorem decodeAt_labelAt (h : Assembled is code) {pc : Nat} {label : Option Int}
    (hlabel : LabelAt is label pc) : decodeAt code pc = .jumpdest pc := by
  obtain ⟨placed, -, hplaced, -⟩ := h.exists_placements
  obtain ⟨⟨mnemonic, data, label'⟩, rfl, -, hi⟩ := hlabel
  rw [h.decodeAt_placed hplaced (.jumpdest data label') hi]
  rfl

/-- The push of a label is read as the push of the address where it is placed. -/
theorem decodeAt_pushLabel (h : Assembled is code) {pc : Nat} {label : Int}
    (hi : PlacedAt is pc [.pushLabel label]) :
    ∃ address, LabelAt is (some label) address ∧ address < addressLimit ∧
      decodeAt code pc = .push (BigEndian.ofNat labelWidth address) := by
  obtain ⟨placed, bytes, hplaced, hencode, -⟩ := h.exists_placements
  have hread : decodeAt code pc = (resolve placed (.pushLabel label)).readAt pc :=
    h.decodeAt_placed hplaced (.pushLabel [] (some label)) hi
  obtain ⟨encoded, hencoded⟩ := exists_encode_of_mem hencode hi.mem
  obtain ⟨address, haddress⟩ := (encode_ok hencoded).2 rfl
  have hlabel := (addressOf?_eq_some_iff hplaced).mp haddress
  refine ⟨address, hlabel, ?_, ?_⟩
  · have := lt_addressLimit_of_labelAt hplaced hlabel
    omega
  · have hresolve : resolve placed (.pushLabel label)
        = .push (BigEndian.ofNat labelWidth ((addressOf? (some label) placed).getD 0)) := rfl
    have haddress : addressOf? (some label) placed = some address := haddress
    rw [hread, hresolve, haddress]
    rfl

/-- A label is placed only once. -/
theorem labelAt_unique (h : Assembled is code) {label : Option Int} {a b : Nat}
    (ha : LabelAt is label a) (hb : LabelAt is label b) : a = b := by
  obtain ⟨placed, -, hplaced, -⟩ := h.exists_placements
  have ha' := (addressOf?_eq_some_iff hplaced).mpr ha
  have hb' := (addressOf?_eq_some_iff hplaced).mpr hb
  exact Option.some.inj (ha'.symm.trans hb')

/-- Every instruction of the code is one of the stream. -/
theorem exists_placedAt (h : Assembled is code) {pc : Nat} (hwalk : Walk code 0 pc)
    (hlt : pc < code.size) : ∃ i, PlacedAt is pc [i] := by
  have hboundary : ∀ {start stop : Nat}, Walk code start stop → stop < code.size →
      (∃ pre post, is = pre ++ post ∧ start = codeSize pre) → ∃ i, PlacedAt is stop [i] := by
    intro start stop hwalk
    induction hwalk with
    | refl pc =>
        rintro hlt ⟨pre, post, rfl, rfl⟩
        cases post with
        | nil =>
            rw [h.size_eq, List.append_nil] at hlt
            exact absurd hlt (Nat.lt_irrefl _)
        | cons i post => exact ⟨i, pre, post, by simp, rfl⟩
    | @step pc stop rest ih =>
        rintro hlt ⟨pre, post, heq, rfl⟩
        cases post with
        | nil =>
            have hle := rest.le
            rw [h.size_eq, heq, List.append_nil] at hlt
            omega
        | cons i post =>
            have hi : PlacedAt is (codeSize pre) [i] := ⟨pre, post, by rw [heq]; simp, rfl⟩
            refine ih hlt ⟨pre ++ [i], post, by rw [heq]; simp, ?_⟩
            rw [h.length_decodeAt hi, codeSize_append, codeSize_cons, codeSize_nil, Nat.add_zero]
  exact hboundary hwalk hlt ⟨[], is, rfl, rfl⟩

end Assembled

end EvmToolchain
