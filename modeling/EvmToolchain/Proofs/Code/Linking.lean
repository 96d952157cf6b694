import EvmToolchain.Proofs.Code.Assembled
import EvmToolchain.Proofs.Machine.Steps

/-!
# EvmToolchain.Proofs.Code.Linking

Assembled code decodes back to the program.

`Assembly.linkFrom` says what becomes of a stream in the code: the push of a
label turns into the push of the position where a jump destination of the
stream places the label (`Assembly.positionOf?`), and a jump destination is
labelled with its own offset. Decoding the assembled bytes one instruction after
the other gives just that (`Assembly.decodeAll_assemble`). Encoder, decoder and
the pass that places labels have to agree on every length for this; the
induction over the stream carries the offset reached so far.
-/

namespace EvmToolchain

open Instruction

namespace Assembly

/-! ### What becomes of a stream -/

/-- The offset of the first jump destination with a label. -/
def positionOf? (label : Option Int) : List Instruction → Option Nat
  | [] => none
  | i :: rest =>
    if i.mnemonic = .jumpdest ∧ i.label = label then some 0
    else (positionOf? label rest).map (i.length + ·)

/-- The instruction that stands in the code for one of the stream, at an offset
and given the positions of labels. -/
def link (position : Option Int → Option Nat) (pc : Nat) (i : Instruction) : Option Instruction :=
  match i.mnemonic with
  | .pushLabel => (position i.label).map fun target => .push (BigEndian.ofNat labelWidth target)
  | .jumpdest => some (.jumpdest pc)
  | _ => some i

/-- The instructions that stand in the code for those of a stream that starts
at an offset. -/
def linkFrom (position : Option Int → Option Nat) : (pc : Nat) → List Instruction →
    Option (List Instruction)
  | _, [] => some []
  | pc, i :: rest =>
    match link position pc i, linkFrom position (pc + i.length) rest with
    | some j, some js => some (j :: js)
    | _, _ => none

/-! ### Positions and addresses -/

variable {is : List Instruction} {placed : Placements} {label : Option Int}

theorem labelAt_of_positionOf? {offset : Nat} (h : positionOf? label is = some offset) :
    LabelAt is label offset := by
  induction is generalizing offset with
  | nil => cases h
  | cons i rest ih =>
      rw [positionOf?] at h
      split at h
      · next hi =>
        obtain rfl := Option.some.inj h
        exact labelAt_cons.mpr (Or.inl ⟨hi.1, hi.2, rfl⟩)
      · obtain ⟨offset', hoffset, rfl⟩ := Option.map_eq_some_iff.mp h
        exact labelAt_cons.mpr (Or.inr ⟨offset', ih hoffset, rfl⟩)

theorem not_labelAt_of_positionOf? (h : positionOf? label is = none) (offset : Nat) :
    ¬ LabelAt is label offset := by
  induction is generalizing offset with
  | nil => exact not_labelAt_nil
  | cons i rest ih =>
      rw [positionOf?] at h
      split at h
      · cases h
      · next hi =>
        rw [labelAt_cons]
        rintro (⟨hjump, hlabel, -⟩ | ⟨offset', hoffset, -⟩)
        · exact hi ⟨hjump, hlabel⟩
        · exact ih (Option.map_eq_none_iff.mp h) offset' hoffset

/-- Where labels are placed only once, the addresses that the assembler computes
are the positions of labels. -/
theorem positionOf?_eq_addressOf? (h : placements is = .ok placed) (label : Option Int) :
    positionOf? label is = addressOf? label placed := by
  cases hposition : positionOf? label is with
  | some offset =>
      exact ((addressOf?_eq_some_iff h).mpr (labelAt_of_positionOf? hposition)).symm
  | none =>
      cases haddress : addressOf? label placed with
      | none => rfl
      | some address =>
          exact absurd ((addressOf?_eq_some_iff h).mp haddress)
            (not_labelAt_of_positionOf? hposition address)

/-! ### Decoding what was encoded -/

/-- An instruction that has an encoding is linked to what is read in its place. -/
theorem link_eq {i : Instruction} {bytes : List UInt8} (h : encode placed i = .ok bytes)
    (pc : Nat) : link (addressOf? · placed) pc i = some ((resolve placed i).readAt pc) := by
  obtain ⟨-, hplaced⟩ := encode_ok h
  rw [link, resolve]
  split
  · next hlabel =>
    obtain ⟨address, haddress⟩ := hplaced hlabel
    rw [if_pos hlabel, haddress]
    rfl
  · next hjump =>
    rw [if_neg (by rw [hjump]; exact Mnemonic.noConfusion), readAt, if_pos hjump]
  · next hlabel hjump => rw [if_neg hlabel, readAt, if_neg hjump]

/-- Decoding the encodings of a stream reads the stream linked. -/
theorem linkFrom_eq_sweep {code : Bytes} {pc : Nat} {bytes : List UInt8}
    (his : ∀ i ∈ is, i.Linkable) (h : encodeAll placed is = .ok bytes)
    (hholds : code.Holds pc bytes) :
    linkFrom (addressOf? · placed) pc is
      = some ((sweep code pc (pc + codeSize is)).map (·.instruction)) := by
  induction is generalizing pc bytes with
  | nil => rw [codeSize_nil, Nat.add_zero, sweep_self]; rfl
  | cons i rest ih =>
      obtain ⟨head, more, hhead, hmore, rfl⟩ := encodeAll_cons h
      have hi := his i List.mem_cons_self
      have hlen := length_decodeAt_resolve hi.whole hhead hholds.left
      have hpos := length_decodeAt_pos code pc
      have hrest := ih (fun j hj => his j (List.mem_cons_of_mem _ hj)) hmore
        (length_of_encode hhead ▸ hholds.right)
      rw [codeSize_cons, ← Nat.add_assoc, sweep_of_lt (by omega), hlen, linkFrom, link_eq hhead,
        hrest, ← decodeAt_resolve hi hhead hholds.left]
      rfl

/-- Where a label is placed, the machine finds a jump destination. -/
theorem isJumpdest_of_labelAt {bytes : List UInt8} (his : ∀ i ∈ is, i.Whole)
    (h : encodeAll placed is = .ok bytes) {target : Nat} (htarget : LabelAt is label target)
    (calldata : Bytes) :
    (Machine.Program.load (.ofList bytes) calldata).isJumpdest target = true := by
  obtain ⟨⟨mnemonic, data, label'⟩, rfl, -, hi⟩ := htarget
  obtain ⟨hwalk, -⟩ := walk_of_placedAt his h (.ofList bytes) hi
  obtain ⟨encoded, hencoded, hheld⟩ := holds_of_placedAt his h (.ofList bytes) hi
  have hread := decodeAt_resolve (.jumpdest data label') hencoded hheld
  refine Machine.Program.isJumpdest_iff.mpr ⟨hwalk, ?_, ?_⟩
  · have hle := hi.le_codeSize
    have hlen : Instruction.length ⟨.jumpdest, data, label'⟩ = 1 := rfl
    rw [codeSize_cons, codeSize_nil] at hle
    rw [Bytes.size_ofList, length_encodeAll h]
    omega
  · rw [IsJumpdestAt, hread]
    rfl

/-- Assembled code decodes back to the program: decoding the bytes gives the
stream with every label push replaced by the push of the two bytes of its
label's position, and every jump destination labelled with its offset. The
position of a pushed label is the only place of the label and a valid jump
destination. -/
theorem decodeAll_assemble {bytes : List UInt8} (his : ∀ i ∈ is, i.Linkable)
    (h : assemble is = .ok bytes) :
    linkFrom (positionOf? · is) 0 is = some (decodeAll (.ofList bytes)) ∧
      ∀ i ∈ is, i.mnemonic = .pushLabel →
        ∃ target, positionOf? i.label is = some target ∧
          (∀ offset, LabelAt is i.label offset ↔ offset = target) ∧
          (Instruction.push (BigEndian.ofNat labelWidth target)).value? = some target ∧
          ∀ calldata,
            (Machine.Program.load (.ofList bytes) calldata).isJumpdest target = true := by
  rw [assemble] at h
  split at h
  · cases h
  next placed hplaced =>
  have hsize : (Bytes.ofList bytes).size = codeSize is := by
    rw [Bytes.size_ofList, length_encodeAll h]
  have hlink := linkFrom_eq_sweep his h (.ofList bytes)
  rw [Nat.zero_add, ← hsize] at hlink
  have hposition : (fun label => positionOf? label is) = fun label => addressOf? label placed :=
    funext (positionOf?_eq_addressOf? hplaced)
  refine ⟨by rw [hposition, hlink]; rfl, fun i hi hlabel => ?_⟩
  -- the label of a push that was encoded has an address
  obtain ⟨target, htarget⟩ : ∃ target, addressOf? i.label placed = some target := by
    obtain ⟨encoded, hencoded⟩ := exists_encode_of_mem h hi
    exact (encode_ok hencoded).2 hlabel
  have hplace := (addressOf?_eq_some_iff hplaced).mp htarget
  refine ⟨target, by rw [positionOf?_eq_addressOf? hplaced, htarget], fun offset => ?_, ?_,
    isJumpdest_of_labelAt (fun i hi => (his i hi).whole) h hplace⟩
  · constructor
    · intro hoffset
      exact Option.some.inj (((addressOf?_eq_some_iff hplaced).mpr hoffset).symm.trans htarget)
    · rintro rfl
      exact hplace
  · have hlimit := lt_addressLimit_of_labelAt hplaced hplace
    rw [Nat.zero_add] at hlimit
    have hvalue : BigEndian.toNat (BigEndian.ofNat labelWidth target) = target := by
      rw [BigEndian.toNat_ofNat]
      exact Nat.mod_eq_of_lt hlimit
    exact congrArg some hvalue

/-- A jump forward over a stop, assembled and decoded. -/
theorem decodeAll_assemble_forward :
    (∀ i ∈ [.pushLabel 7, .op .jump, .op .stop, .jumpdest 7, .push [0xff]], Linkable i) ∧
      assemble [.pushLabel 7, .op .jump, .op .stop, .jumpdest 7, .push [0xff]]
        = .ok [0x61, 0x00, 0x05, 0x56, 0x00, 0x5b, 0x60, 0xff] ∧
      decodeAll (.ofList [0x61, 0x00, 0x05, 0x56, 0x00, 0x5b, 0x60, 0xff])
        = [.push [0x00, 0x05], .op .jump, .op .stop, .jumpdest 5, .push [0xff]] := by
  have hlinkable :
      ∀ i ∈ [.pushLabel 7, .op .jump, .op .stop, .jumpdest 7, .push [0xff]], Linkable i := by
    simp only [List.forall_mem_cons]
    exact ⟨.pushLabel [] (some 7), .op .jump, .op .stop, .jumpdest [] (some 7),
      .push (by decide) (by decide), List.forall_mem_nil _⟩
  have hassemble : assemble [.pushLabel 7, .op .jump, .op .stop, .jumpdest 7, .push [0xff]]
      = .ok [0x61, 0x00, 0x05, 0x56, 0x00, 0x5b, 0x60, 0xff] := rfl
  refine ⟨hlinkable, hassemble, ?_⟩
  exact (Option.some.inj (decodeAll_assemble hlinkable hassemble).1).symm

end Assembly

end EvmToolchain
