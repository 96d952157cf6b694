import EvmToolchain.Analysis.Disassembly
import EvmToolchain.Proofs.Code.Encoding
import EvmToolchain.Proofs.Code.Walk

/-!
# EvmToolchain.Proofs.Code.Blocks

What the split of code into blocks guarantees.

The blocks tile the code (`Block.Tiles`), and each one is basic
(`Block.IsBasic`): it starts at an instruction boundary, a jump destination can
only be its first instruction and an instruction that never falls through only
its last one. The scan is followed by one invariant (`Block.Open`), about the
block that is still open at the offset which it has reached.
-/

namespace EvmToolchain

namespace Instruction

/-- The instruction at an offset is a jump destination. -/
def IsJumpdestAt (code : Bytes) (pc : Nat) : Prop :=
  (decodeAt code pc).mnemonic = .jumpdest

/-- Instructions that end a block are single bytes, and no jump destinations. -/
theorem length_of_isTerminator {i : Instruction} (h : i.isTerminator = true) : i.length = 1 := by
  unfold isTerminator at h
  split at h <;> simp_all [length]

theorem not_jumpdest_of_isTerminator {i : Instruction} (h : i.isTerminator = true) :
    i.mnemonic ≠ .jumpdest := by
  intro hj
  simp [isTerminator, hj] at h

end Instruction

open Instruction

namespace Block

/-- Where a block may start: at the start of the code, at a jump destination,
or after an instruction that never falls through. -/
def MayStart (code : Bytes) (start : Nat) : Prop :=
  start = 0 ∨ IsJumpdestAt code start ∨
    ∃ pc, Walk code 0 pc ∧ (decodeAt code pc).isTerminator = true ∧
      pc + (decodeAt code pc).length = start

/-- A basic block of some code. -/
structure IsBasic (code : Bytes) (b : Block) : Prop where
  /-- The block starts at an instruction boundary. -/
  walk : Walk code 0 b.start
  stop_le : b.stop ≤ code.size
  /-- The block stops at an instruction boundary, or where the code ends. -/
  boundary : b.stop = code.size ∨ Walk code b.start b.stop
  mayStart : MayStart code b.start
  /-- A jump destination is the first instruction. -/
  jumpdest_first : ∀ {pc}, Walk code b.start pc → pc < b.stop → IsJumpdestAt code pc →
    pc = b.start
  /-- An instruction that never falls through is the last one. -/
  terminator_last : ∀ {pc}, Walk code b.start pc → pc < b.stop →
    (decodeAt code pc).isTerminator = true → b.stop ≤ pc + (decodeAt code pc).length

/-- Basic blocks, one after the other, from an offset to the end of the code. -/
inductive Tiles (code : Bytes) : Nat → List Block → Prop
  | nil : Tiles code code.size []
  | cons {b : Block} {rest : List Block} :
      b.IsBasic code → Tiles code b.stop rest → Tiles code b.start (b :: rest)

/-- The invariant of the scan: the block that starts at `start` is still open
at `pc`. -/
structure Open (code : Bytes) (start pc : Nat) : Prop where
  walk : Walk code 0 start
  reaches : Walk code start pc
  start_le : start ≤ code.size
  mayStart : MayStart code start
  jumpdest_first : ∀ {q}, Walk code start q → q < pc → IsJumpdestAt code q → q = start
  no_terminator : ∀ {q}, Walk code start q → q < pc → (decodeAt code q).isTerminator = false

namespace Open

variable {code : Bytes} {start pc : Nat}

/-- A block of which nothing has been scanned is open. -/
theorem fresh (hwalk : Walk code 0 start) (hle : start ≤ code.size)
    (hstart : MayStart code start) : Open code start start where
  walk := hwalk
  reaches := .refl start
  start_le := hle
  mayStart := hstart
  jumpdest_first := by
    intro q hq hlt _
    exact absurd hq.le (Nat.not_le.mpr hlt)
  no_terminator := by
    intro q hq hlt
    exact absurd hq.le (Nat.not_le.mpr hlt)

/-- On the walk from the start of the open block, what comes before the
instruction after `pc` is at `pc` or before it. -/
theorem lt_or_eq (h : Open code start pc) {q : Nat} (hq : Walk code start q)
    (hlt : q < pc + (decodeAt code pc).length) : q < pc ∨ q = pc := by
  rcases Nat.lt_trichotomy q pc with hcase | hcase | hcase
  · exact Or.inl hcase
  · exact Or.inr hcase
  · have := h.reaches.next_le_of_lt hq hcase
    omega

/-- An instruction that neither starts nor ends a block keeps the block open. -/
theorem extend (h : Open code start pc)
    (hj : IsJumpdestAt code pc → pc = start)
    (ht : (decodeAt code pc).isTerminator = false) :
    Open code start (pc + (decodeAt code pc).length) where
  walk := h.walk
  reaches := h.reaches.snoc
  start_le := h.start_le
  mayStart := h.mayStart
  jumpdest_first := by
    intro q hq hlt hjq
    rcases h.lt_or_eq hq hlt with hcase | rfl
    · exact h.jumpdest_first hq hcase hjq
    · exact hj hjq
  no_terminator := by
    intro q hq hlt
    rcases h.lt_or_eq hq hlt with hcase | rfl
    · exact h.no_terminator hq hcase
    · exact ht

/-- The open block closes before `pc`. -/
theorem close (h : Open code start pc) (hlt : start < pc) (hle : pc ≤ code.size) :
    IsBasic code ⟨start, pc, hlt⟩ where
  walk := h.walk
  stop_le := hle
  boundary := Or.inr h.reaches
  mayStart := h.mayStart
  jumpdest_first := h.jumpdest_first
  terminator_last := by
    intro q hq hq' ht
    rw [h.no_terminator hq hq'] at ht
    cases ht

/-- The open block closes at the end of the code. -/
theorem closeAtEnd (h : Open code start pc) (hlt : start < code.size) (hle : code.size ≤ pc) :
    IsBasic code ⟨start, code.size, hlt⟩ where
  walk := h.walk
  stop_le := Nat.le_refl _
  boundary := Or.inl rfl
  mayStart := h.mayStart
  jumpdest_first := fun hq hq' => h.jumpdest_first hq (Nat.lt_of_lt_of_le hq' hle)
  terminator_last := by
    intro q hq hq' ht
    rw [h.no_terminator hq (Nat.lt_of_lt_of_le hq' hle)] at ht
    cases ht

/-- The open block closes after an instruction that never falls through. -/
theorem closeAfter (h : Open code start pc) (hpc : pc < code.size)
    (ht : (decodeAt code pc).isTerminator = true) (hlt : start < pc + 1) :
    IsBasic code ⟨start, pc + 1, hlt⟩ := by
  have hlen := length_of_isTerminator ht
  have hsplit : ∀ {q}, Walk code start q → q < pc + 1 → q < pc ∨ q = pc := fun hq hq' =>
    h.lt_or_eq hq (by omega)
  refine ⟨h.walk, hpc, Or.inr ?_, h.mayStart, ?_, ?_⟩
  · have := h.reaches.snoc
    rwa [hlen] at this
  · intro q hq hq' hj
    rcases hsplit hq hq' with hcase | rfl
    · exact h.jumpdest_first hq hcase hj
    · exact absurd hj (not_jumpdest_of_isTerminator ht)
  · intro q hq hq' htq
    rcases hsplit hq hq' with hcase | rfl
    · rw [h.no_terminator hq hcase] at htq
      cases htq
    · exact Nat.le_of_eq (by rw [hlen])

end Open

theorem between_of_lt {start stop : Nat} (h : start < stop) :
    between start stop = [⟨start, stop, h⟩] := dif_pos h

@[simp] theorem between_self (start : Nat) : between start start = [] :=
  dif_neg (Nat.lt_irrefl start)

/-- The scan, from an open block on, yields basic blocks that tile the rest of
the code. -/
theorem split_tiles {code : Bytes} {start pc : Nat} (h : Open code start pc) :
    Tiles code start (split code.size start (sweep code pc code.size)) := by
  by_cases hpc : pc < code.size
  · rw [sweep_of_lt hpc, split]
    by_cases hj : (decodeAt code pc).mnemonic = .jumpdest
    · -- the open block, unless it is empty, ends here and one starts here
      have hwalk := h.walk.trans h.reaches
      have hnt : (decodeAt code pc).isTerminator = false := by simp [isTerminator, hj]
      have hopen : Open code pc (pc + (decodeAt code pc).length) :=
        (Open.fresh hwalk (Nat.le_of_lt hpc) (Or.inr (Or.inl hj))).extend (fun _ => rfl) hnt
      have hrest := split_tiles hopen
      dsimp only
      rw [if_pos hj, hnt, if_neg (by simp)]
      rcases Nat.lt_or_eq_of_le h.reaches.le with hlt | rfl
      · rw [between_of_lt hlt]
        exact .cons (h.close hlt (Nat.le_of_lt hpc)) hrest
      · rw [between_self]
        exact hrest
    · dsimp only
      rw [if_neg hj, between_self, List.nil_append]
      cases ht : (decodeAt code pc).isTerminator with
      | true =>
          -- the block ends behind the terminator, and the scan goes on with a fresh one
          have hlen := length_of_isTerminator ht
          have hnext : min (Located.next ⟨pc, decodeAt code pc⟩) code.size = pc + 1 := by
            rw [Located.next, hlen]
            exact Nat.min_eq_left hpc
          have hstart : start < pc + 1 := Nat.lt_succ_of_le h.reaches.le
          have hwalk := (h.walk.trans h.reaches).snoc
          have hrest := split_tiles (Open.fresh hwalk (by omega)
            (Or.inr (Or.inr ⟨pc, h.walk.trans h.reaches, ht, rfl⟩)))
          rw [if_pos rfl, hnext, between_of_lt hstart, List.singleton_append]
          rw [hlen] at hrest ⊢
          exact .cons (h.closeAfter hpc ht hstart) hrest
      | false =>
          -- neither a start nor an end: the block stays open
          rw [if_neg (by simp)]
          exact split_tiles (h.extend (fun hj' => absurd hj' hj) ht)
  · have hle := Nat.not_lt.mp hpc
    rw [sweep_of_le hle, split]
    rcases Nat.lt_or_eq_of_le h.start_le with hlt | rfl
    · rw [between_of_lt hlt]
      exact .cons (h.closeAtEnd hlt hle) .nil
    · rw [between_self]
      exact .nil
termination_by code.size - pc
decreasing_by
  all_goals
    have := Instruction.length_decodeAt_pos code pc
    omega

/-- The blocks of some code tile it. -/
theorem ofCode_tiles (code : Bytes) : Tiles code 0 (ofCode code) :=
  split_tiles (Open.fresh (.refl 0) (Nat.zero_le _) (Or.inl rfl))

namespace Tiles

variable {code : Bytes} {start : Nat} {bs : List Block}

theorem isBasic (h : Tiles code start bs) {b : Block} (hb : b ∈ bs) : b.IsBasic code := by
  induction h with
  | nil => cases hb
  | cons hfirst _ ih =>
      rcases List.mem_cons.mp hb with rfl | hb
      · exact hfirst
      · exact ih hb

theorem start_le_of_mem (h : Tiles code start bs) {b : Block} (hb : b ∈ bs) : start ≤ b.start := by
  induction h with
  | nil => cases hb
  | @cons first rest _ _ ih =>
      rcases List.mem_cons.mp hb with rfl | hb
      · exact Nat.le_refl _
      · exact Nat.le_trans (Nat.le_of_lt first.start_lt_stop) (ih hb)

/-- The first block starts where the tiling starts. -/
theorem start_head (h : Tiles code start bs) {b : Block} (hb : bs[0]? = some b) :
    b.start = start := by
  cases h with
  | nil => simp at hb
  | cons => simp_all

theorem length_pos (h : Tiles code start bs) (hlt : start < code.size) : 0 < bs.length := by
  cases h with
  | nil => exact absurd hlt (Nat.lt_irrefl _)
  | cons => simp

/-- Nothing tiles the empty rest of the code. -/
theorem eq_nil (h : Tiles code start bs) (hle : code.size ≤ start) : bs = [] := by
  cases h with
  | nil => rfl
  | @cons b _ hb _ =>
      have hlt := b.start_lt_stop
      have hstop := hb.stop_le
      omega

/-- The block after another one starts where that one stops. -/
theorem start_next (h : Tiles code start bs) {id : Nat} {b next : Block}
    (hb : bs[id]? = some b) (hnext : bs[id + 1]? = some next) : next.start = b.stop := by
  induction h generalizing id with
  | nil => simp at hb
  | @cons first rest _ hrest ih =>
      cases id with
      | zero =>
          obtain rfl : first = b := by simpa using hb
          exact hrest.start_head (by simpa using hnext)
      | succ id => exact ih (by simpa using hb) (by simpa using hnext)

/-- A block that stops before the end of the code has one after it. -/
theorem exists_next (h : Tiles code start bs) {id : Nat} {b : Block} (hb : bs[id]? = some b)
    (hstop : b.stop < code.size) : id + 1 < bs.length := by
  induction h generalizing id with
  | nil => simp at hb
  | @cons first rest _ hrest ih =>
      cases id with
      | zero =>
          obtain rfl : first = b := by simpa using hb
          have := hrest.length_pos hstop
          simpa using this
      | succ id =>
          have := ih (by simpa using hb)
          simpa using this

/-- The search for the block that encloses an offset finds a block. -/
theorem findIdx?_encloses (h : Tiles code start bs) {pc : Nat} (hle : start ≤ pc)
    (hlt : pc < code.size) :
    ∃ id b, bs.findIdx? (·.encloses pc) = some id ∧ bs[id]? = some b ∧ b.start ≤ pc
      ∧ pc < b.stop := by
  induction h with
  | nil => exact absurd hlt (Nat.not_lt.mpr hle)
  | @cons first rest _ hrest ih =>
      by_cases hpc : pc < first.stop
      · have henc : first.encloses pc = true := encloses_iff.mpr (by omega)
        exact ⟨0, first, by rw [List.findIdx?_cons, henc]; rfl, rfl, hle, hpc⟩
      · have henc : first.encloses pc = false := by
          rw [Bool.eq_false_iff, Ne, encloses_iff]
          omega
        obtain ⟨id, b, hfind, hb, hbounds⟩ := ih (by omega)
        exact ⟨id + 1, b, by rw [List.findIdx?_cons, henc, hfind]; rfl, by simpa using hb, hbounds⟩

/-- The search for an enclosing block finds the only one that there is. -/
theorem findIdx?_eq (h : Tiles code start bs) {id pc : Nat} {b : Block} (hb : bs[id]? = some b)
    (hle : b.start ≤ pc) (hlt : pc < b.stop) : bs.findIdx? (·.encloses pc) = some id := by
  induction h generalizing id with
  | nil => simp at hb
  | @cons first rest hfirst hrest ih =>
      cases id with
      | zero =>
          obtain rfl : first = b := by simpa using hb
          have henc : first.encloses pc = true := encloses_iff.mpr (by omega)
          rw [List.findIdx?_cons, henc]
          rfl
      | succ id =>
          have hb : rest[id]? = some b := by simpa using hb
          -- the block lies behind the first one, which therefore does not enclose the offset
          have hpast := hrest.start_le_of_mem (List.mem_of_getElem? hb)
          have henc : first.encloses pc = false := by
            rw [Bool.eq_false_iff, Ne, encloses_iff]
            omega
          rw [List.findIdx?_cons, henc, ih hb]
          rfl

end Tiles

end Block

/-! ### The blocks of a layout -/

section Disassembly

variable {σ : Type} {d : Disassembly σ} {code : Bytes}

theorem Disassembly.code_eq (h : d.toLayout = Layout.ofCode code) : d.code = code := by
  rw [h]
  rfl

theorem Disassembly.blocks_eq (h : d.toLayout = Layout.ofCode code) :
    d.blocks.toList = Block.ofCode code := by
  rw [h]
  rfl

theorem Disassembly.mem_zipIdx_blocks (h : d.toLayout = Layout.ofCode code) {b : Block} {id : Nat} :
    (b, id) ∈ d.blocks.toList.zipIdx ↔ (Layout.ofCode code).blocks[id]? = some b := by
  rw [h, List.mk_mem_zipIdx_iff_getElem?, Array.getElem?_toList]

end Disassembly

namespace Layout

variable {code : Bytes} {id : Nat} {b : Block}

theorem getElem?_blocks (code : Bytes) (id : Nat) :
    (ofCode code).blocks[id]? = (Block.ofCode code)[id]? := by
  simp [ofCode]

theorem isBasic (hb : (ofCode code).blocks[id]? = some b) : b.IsBasic code := by
  rw [getElem?_blocks] at hb
  exact (Block.ofCode_tiles code).isBasic (List.mem_of_getElem? hb)

theorem start_next {next : Block} (hb : (ofCode code).blocks[id]? = some b)
    (hnext : (ofCode code).blocks[id + 1]? = some next) : next.start = b.stop := by
  rw [getElem?_blocks] at hb hnext
  exact (Block.ofCode_tiles code).start_next hb hnext

theorem exists_next (hb : (ofCode code).blocks[id]? = some b) (hstop : b.stop < code.size) :
    ∃ next, (ofCode code).blocks[id + 1]? = some next ∧ next.start = b.stop := by
  have hid : id + 1 < (ofCode code).blocks.size := by
    have := (Block.ofCode_tiles code).exists_next (by rwa [getElem?_blocks] at hb) hstop
    simpa [ofCode] using this
  have hnext := Array.getElem?_eq_getElem hid
  exact ⟨_, hnext, start_next hb hnext⟩

/-- Every offset of the code lies in a block. -/
theorem exists_blockIndex {pc : Nat} (hpc : pc < code.size) :
    ∃ id b, (ofCode code).blockIndex pc = .ok id ∧ (ofCode code).blocks[id]? = some b
      ∧ b.start ≤ pc ∧ pc < b.stop := by
  obtain ⟨id, b, hfind, hb, hbounds⟩ :=
    (Block.ofCode_tiles code).findIdx?_encloses (Nat.zero_le pc) hpc
  refine ⟨id, b, ?_, by rw [getElem?_blocks]; exact hb, hbounds⟩
  simp [blockIndex, ofCode, hfind]

/-- An offset that a block encloses lies in no other block. -/
theorem blockIndex_eq {pc : Nat} (hb : (ofCode code).blocks[id]? = some b) (hle : b.start ≤ pc)
    (hlt : pc < b.stop) : (ofCode code).blockIndex pc = .ok id := by
  rw [getElem?_blocks] at hb
  have hfind := (Block.ofCode_tiles code).findIdx?_eq hb hle hlt
  simp [blockIndex, ofCode, hfind]

/-- The first block of code that is not empty starts at its first byte. -/
theorem exists_first (hcode : 0 < code.size) :
    ∃ b, (ofCode code).blocks[0]? = some b ∧ b.start = 0 := by
  have htiles := Block.ofCode_tiles code
  have hb := List.getElem?_eq_getElem (htiles.length_pos hcode)
  exact ⟨_, by rw [getElem?_blocks]; exact hb, htiles.start_head hb⟩

/-- What comes after an instruction of a block: the next instruction of the
block, or the end of the block. -/
theorem next_le_or_eq {pc : Nat} (hb : b.IsBasic code) (hpc : Walk code b.start pc)
    (hlt : pc < b.stop) :
    pc + (decodeAt code pc).length ≤ b.stop ∨ b.stop = code.size := by
  rcases hb.boundary with hend | hwalk
  · exact Or.inr hend
  · exact Or.inl (hpc.next_le_of_lt hwalk hlt)

/-- An instruction at which a block may start is the first one of its block. -/
theorem eq_start_of_jumpdest {pc : Nat} (hb : b.IsBasic code) (hpc : Walk code 0 pc)
    (hle : b.start ≤ pc) (hlt : pc < b.stop) (hj : IsJumpdestAt code pc) : pc = b.start :=
  hb.jumpdest_first (hb.walk.tail_of_le hpc hle) hlt hj

/-! ### A layout with a jump -/

/-- A push, a jump to the jump destination behind it, and a stop. -/
def hop : Bytes := ⟨#[0x60, 0x03, 0x56, 0x5b, 0x00]⟩

theorem decodeAt_hop :
    decodeAt hop 0 = push [3] ∧ decodeAt hop 2 = op .jump ∧ decodeAt hop 3 = jumpdest 3 ∧
      decodeAt hop 4 = op .stop :=
  ⟨rfl, decodeAt_op rfl, rfl, decodeAt_op rfl⟩

theorem sweep_hop : sweep hop 0 3 = [⟨0, push [3]⟩, ⟨2, op .jump⟩] ∧
    sweep hop 3 5 = [⟨3, jumpdest 3⟩, ⟨4, op .stop⟩] := by
  obtain ⟨hpush, hjump, hdest, hstop⟩ := decodeAt_hop
  constructor
  · rw [sweep_of_lt (by decide), hpush]
    show _ :: sweep hop 2 3 = _
    rw [sweep_of_lt (by decide), hjump, sweep_of_le (by decide)]
  · rw [sweep_of_lt (by decide), hdest]
    show _ :: sweep hop 4 5 = _
    rw [sweep_of_lt (by decide), hstop, sweep_of_le (by decide)]

theorem listing_hop : listing hop = sweep hop 0 3 ++ sweep hop 3 5 := by
  refine sweep_append (.step ?_) (by decide)
  rw [decodeAt_hop.1]
  refine .step ?_
  show Walk hop (2 + (decodeAt hop 2).length) 3
  rw [decodeAt_hop.2.1]
  exact .refl 3

theorem blocks_hop : (ofCode hop).blocks = #[⟨0, 3, by decide⟩, ⟨3, 5, by decide⟩] := by
  rw [ofCode, Block.ofCode, listing_hop, sweep_hop.1, sweep_hop.2]
  rfl

end Layout

end EvmToolchain
