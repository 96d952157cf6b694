import EvmToolchain.Proofs.Code.Assembled

/-!
# EvmToolchain.Proofs.Code.Positioned

Assembling instructions that come with their offsets.

A stream that was read from code stands one instruction after the other between
two offsets (`Spans`), and its jump destinations are labelled with where they
stand (`OwnLabels`). So no label is placed twice, and all that such a stream can
fail with is a jump destination that lies too far away
(`Spans.assemble_iff`). In the assembled code the encoding of every instruction
is back at its offset (`Spans.exists_holds`); encodings that are read off a buffer
in this way are put together to what the buffer holds
(`Spans.exists_mapM_encode`).
-/

namespace EvmToolchain

open Instruction Assembly

/-- The instructions stand one after the other between two offsets. -/
inductive Spans : Nat → List Located → Nat → Prop
  | nil (pc : Nat) : Spans pc [] pc
  | cons {pc stop : Nat} {l : Located} {rest : List Located} :
      l.offset = pc → Spans l.next rest stop → Spans pc (l :: rest) stop

/-- Jump destinations are labelled with their own offsets. -/
def OwnLabels (ls : List Located) : Prop :=
  ∀ l ∈ ls, l.instruction.mnemonic = .jumpdest → l.instruction.label = some (l.offset : Int)

namespace Spans

variable {a b m : Nat} {ls ms : List Located} {l : Located}

theorem append (h₁ : Spans a ls m) (h₂ : Spans m ms b) : Spans a (ls ++ ms) b := by
  induction h₁ with
  | nil => exact h₂
  | cons hl _ ih => exact .cons hl (ih h₂)

theorem add_codeSize (h : Spans a ls b) : a + codeSize (ls.map (·.instruction)) = b := by
  induction h with
  | nil => rfl
  | cons hl _ ih =>
      rw [List.map_cons, codeSize_cons, ← Nat.add_assoc, ← hl]
      exact ih

theorem split (h : Spans a (ls ++ ms) b) : ∃ m, Spans a ls m ∧ Spans m ms b := by
  induction ls generalizing a with
  | nil => exact ⟨a, .nil a, h⟩
  | cons l ls ih =>
      cases h with
      | cons hl hrest =>
          obtain ⟨m, hls, hms⟩ := ih hrest
          exact ⟨m, .cons hl hls, hms⟩

/-- An instruction is the last one if none starts where it ends. -/
theorem stop_eq (h : Spans a ls b) (hl : l ∈ ls) (hlast : ∀ l' ∈ ls, l'.offset < l.next) :
    b = l.next := by
  obtain ⟨pre, post, rfl⟩ := List.append_of_mem hl
  obtain ⟨m, -, hrest⟩ := h.split
  cases hrest with
  | cons _ hpost =>
      cases hpost with
      | nil => rfl
      | @cons _ _ l' _ hl' _ =>
          have hlt := hlast l' (by simp)
          omega

/-- In the stream every instruction is placed at its offset. -/
theorem exists_placedAt (h : Spans a ls b) (hl : l ∈ ls) :
    ∃ pc, l.offset = a + pc ∧ PlacedAt (ls.map (·.instruction)) pc [l.instruction] := by
  obtain ⟨pre, post, rfl⟩ := List.append_of_mem hl
  obtain ⟨m, hpre, hrest⟩ := h.split
  cases hrest with
  | cons hm _ =>
      refine ⟨codeSize (pre.map (·.instruction)), ?_, pre.map (·.instruction),
        post.map (·.instruction), by simp, rfl⟩
      rw [hpre.add_codeSize, hm]

/-- A sweep ends at the first offset on its walk that is not before the bound. -/
theorem exists_of_sweep (code : Bytes) (a b : Nat) :
    ∃ stop, Spans a (sweep code a b) stop ∧ b ≤ stop ∧
      ∀ pc, Walk code a pc → b ≤ pc → stop ≤ pc := by
  fun_induction sweep code a b with
  | case1 pc hlt insn ih =>
      obtain ⟨stop, hspans, hle, hfirst⟩ := ih
      refine ⟨stop, .cons rfl hspans, hle, fun q hwalk hq => ?_⟩
      cases hwalk with
      | refl => omega
      | step hrest => exact hfirst q hrest hq
  | case2 pc hge => exact ⟨pc, .nil pc, Nat.not_lt.mp hge, fun q hwalk _ => hwalk.le⟩

/-! ### Encodings -/

/-- The encoding of every instruction, with labels resolved, stands at its
offset. -/
theorem exists_holds {code : Bytes} {placed : Placements} {bytes : List UInt8}
    (h : Spans a ls b) (hencode : encodeAll placed (ls.map (·.instruction)) = .ok bytes)
    (hholds : code.Holds a bytes) (hl : l ∈ ls) :
    ∃ encoded, encode placed l.instruction = .ok encoded ∧ code.Holds l.offset encoded := by
  induction h generalizing bytes with
  | nil => cases hl
  | @cons pc stop first rest hfirst _ ih =>
      obtain ⟨head, more, hhead, hmore, rfl⟩ := encodeAll_cons hencode
      rcases List.mem_cons.mp hl with rfl | hl
      · exact ⟨head, hhead, hfirst ▸ hholds.left⟩
      · have hmore' := hholds.right
        rw [length_of_encode hhead, ← hfirst] at hmore'
        exact ih hmore hmore' hl

/-- If every instruction is encoded as a buffer shows it at its offset, then the
encodings make up what the buffer shows between the two offsets. -/
theorem exists_mapM_encode {code : Bytes} (h : Spans a ls b)
    (hencode : ∀ l ∈ ls,
      l.instruction.encode = .ok (code.window l.offset l.instruction.length)) :
    ∃ encodings, (ls.map (·.instruction)).mapM Instruction.encode = .ok encodings ∧
      encodings.flatten = code.window a (b - a) := by
  induction h with
  | nil => exact ⟨[], rfl, by rw [Nat.sub_self]; rfl⟩
  | @cons pc stop l rest hl hrest ih =>
      obtain ⟨encodings, hencodings, hflatten⟩ := ih fun l' hl' =>
        hencode l' (List.mem_cons_of_mem _ hl')
      refine ⟨code.window l.offset l.instruction.length :: encodings, ?_, ?_⟩
      · rw [List.map_cons, List.mapM_cons, hencode l List.mem_cons_self, hencodings]
        rfl
      · have hle : l.next ≤ stop := by
          rw [← hrest.add_codeSize]
          exact Nat.le_add_right _ _
        have hcount : stop - pc = l.instruction.length + (stop - l.next) := by
          rw [Located.next] at hle ⊢
          omega
        rw [List.flatten_cons, hflatten, hcount, Bytes.window_add, ← hl]
        rfl

end Spans

namespace Assembly

/-- A stream can be encoded if all its instructions can. -/
theorem exists_encodeAll {placed : Placements} {is : List Instruction}
    (h : ∀ i ∈ is, ∃ bytes, encode placed i = .ok bytes) :
    ∃ bytes, encodeAll placed is = .ok bytes := by
  induction is with
  | nil => exact ⟨[], rfl⟩
  | cons i rest ih =>
      obtain ⟨head, hhead⟩ := h i List.mem_cons_self
      obtain ⟨more, hmore⟩ := ih fun j hj => h j (List.mem_cons_of_mem _ hj)
      exact ⟨head ++ more, by rw [encodeAll, hhead, hmore]⟩

/-- An instruction without a label to resolve is encoded as it is. -/
theorem encode_of_ne {placed : Placements} {i : Instruction} (h : i.mnemonic ≠ .pushLabel) :
    encode placed i = i.encode.mapError .instruction := by
  rw [encode, if_neg h]

end Assembly

/-! ### Labels -/

namespace Spans

variable {a b : Nat} {ls : List Located}

/-- Every jump destination that was placed lies below the limit. -/
theorem lt_of_placeFrom (h : Spans a ls b) {placed after : Placements}
    (hplaced : placeFrom placed a (ls.map (·.instruction)) = .ok after) :
    ∀ l ∈ ls, l.instruction.mnemonic = .jumpdest → l.offset < addressLimit := by
  intro l hl hjump
  obtain ⟨pc, hpc, hplace⟩ := h.exists_placedAt hl
  rw [hpc]
  exact lt_addressLimit_of_labelAt hplaced ⟨_, hjump, rfl, hplace⟩

/-- Placing succeeds if all jump destinations lie below the limit: the label of
each is above those of lower offsets. -/
theorem exists_placeFrom (h : Spans a ls b) (hlabels : OwnLabels ls)
    (hlimit : ∀ l ∈ ls, l.instruction.mnemonic = .jumpdest → l.offset < addressLimit)
    (placed : Placements)
    (hfree : ∀ pc : Nat, a ≤ pc → addressOf? (some (pc : Int)) placed = none) :
    ∃ after, placeFrom placed a (ls.map (·.instruction)) = .ok after := by
  induction h generalizing placed with
  | nil => exact ⟨placed, rfl⟩
  | @cons pc stop l rest hl _ ih =>
      subst hl
      have hrest := ih (fun l' hl' => hlabels l' (List.mem_cons_of_mem _ hl'))
        fun l' hl' => hlimit l' (List.mem_cons_of_mem _ hl')
      rw [List.map_cons, placeFrom]
      by_cases hjump : l.instruction.mnemonic = .jumpdest
      · have hlabel := hlabels l List.mem_cons_self hjump
        have hfar := Nat.not_le.mpr (hlimit l List.mem_cons_self hjump)
        have hnext : l.offset < l.next := by simp [Located.next, length, hjump]
        rw [if_pos hjump, hlabel, hfree l.offset (Nat.le_refl _), if_neg (by simp), if_neg hfar]
        refine hrest _ fun pc hpc => ?_
        rw [addressOf?_cons, if_neg (by rw [Option.some.injEq]; omega), hfree pc (by omega)]
      · rw [if_neg hjump]
        exact hrest _ fun pc hpc => hfree pc (Nat.le_trans (Nat.le_add_right _ _) hpc)

/-- A stream whose instructions have encodings and whose jump destinations carry
their own offsets is assembled unless one of them lies too far away. -/
theorem assemble_iff (h : Spans 0 ls b) (hlabels : OwnLabels ls)
    (hencode : ∀ l ∈ ls, l.instruction.mnemonic ≠ .pushLabel ∧
      ∃ bytes, l.instruction.encode = .ok bytes) :
    (∃ bytes, assemble (ls.map (·.instruction)) = .ok bytes) ↔
      ∀ l ∈ ls, l.instruction.mnemonic = .jumpdest → l.offset < addressLimit := by
  constructor
  · rintro ⟨bytes, hbytes⟩
    rw [assemble] at hbytes
    split at hbytes
    · cases hbytes
    · next placed hplaced => exact h.lt_of_placeFrom hplaced
  · intro hlimit
    obtain ⟨placed, hplaced⟩ := h.exists_placeFrom hlabels hlimit [] fun _ _ => rfl
    have hplacements : placements (ls.map (·.instruction)) = .ok placed := hplaced
    rw [assemble, hplacements]
    refine exists_encodeAll fun i hi => ?_
    obtain ⟨l, hl, rfl⟩ := List.mem_map.mp hi
    obtain ⟨hne, bytes, hbytes⟩ := hencode l hl
    exact ⟨bytes, by rw [encode_of_ne hne, hbytes]; rfl⟩

/-- Assembled code ends where the stream does, and has the encoding of every
instruction at its offset. -/
theorem holds_of_assemble (h : Spans 0 ls b)
    (hlabels : ∀ l ∈ ls, l.instruction.mnemonic ≠ .pushLabel) {bytes : List UInt8}
    (hbytes : assemble (ls.map (·.instruction)) = .ok bytes) :
    (Bytes.ofList bytes).size = b ∧ ∀ l ∈ ls, ∃ encoded,
      l.instruction.encode = .ok encoded ∧ (Bytes.ofList bytes).Holds l.offset encoded := by
  rw [assemble] at hbytes
  split at hbytes
  · cases hbytes
  next placed _ =>
  refine ⟨?_, fun l hl => ?_⟩
  · rw [Bytes.size_ofList, length_encodeAll hbytes, ← h.add_codeSize, Nat.zero_add]
  · obtain ⟨encoded, hencoded, hholds⟩ := h.exists_holds hbytes (.ofList bytes) hl
    have hplain := (encode_ok hencoded).1
    rw [resolve, if_neg (hlabels l hl)] at hplain
    exact ⟨encoded, hplain, hholds⟩

end Spans

end EvmToolchain
