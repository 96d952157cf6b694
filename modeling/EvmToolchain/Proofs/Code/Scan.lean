import EvmToolchain.Proofs.Code.Positioned
import EvmToolchain.Proofs.Machine.Steps
import Mathlib.Logic.ExistsUnique

/-!
# EvmToolchain.Proofs.Code.Scan

The scan for blocks, and what it finds.

`Block.ofCode` reads the blocks off the listing of the code and leaves out
blocks in which nothing lies. `Block.scan` is the loop behind it, which makes
every block with its bounds checked, and so could fail. It never does, and
yields the same blocks (`Block.scan_eq`). These are the maximal ones: they start
just where the linear decoding says that a block has to start, and each of them
stops where the next one starts (`Block.Divides`).
-/

namespace EvmToolchain

open Instruction Assembly

namespace Block

/-! ### The loop -/

/-- The block between two offsets, with its bounds checked, if it is to be
closed. -/
def closeIf (close : Bool) (start stop : Nat) : Except EmptyRange (List AddressRange) :=
  if close then (AddressRange.ofBounds start stop).map ([·]) else .ok []

/-- The blocks from `start` on, where a block is open, if `pc` is the offset to
read next. -/
def scanFrom (code : Bytes) (start pc : Nat) : Except EmptyRange (List AddressRange) :=
  if pc < code.size then do
    let insn := decodeAt code pc
    let cut := insn.mnemonic == .jumpdest && pc != start
    let first := if cut then pc else start
    let next := min (pc + insn.length) code.size
    let last := if insn.isTerminator then next else first
    let before ← closeIf cut start pc
    let behind ← closeIf insn.isTerminator first next
    let rest ← scanFrom code last next
    return before ++ (behind ++ rest)
  else closeIf (start != pc) start pc
termination_by code.size - pc
decreasing_by
  have := length_decodeAt_pos code pc
  omega

/-- The scan of some code for its blocks. -/
def scan (code : Bytes) : Except EmptyRange (List AddressRange) := scanFrom code 0 0

theorem closeIf_eq {close : Bool} {start stop : Nat} (h : close = true → start < stop) :
    closeIf close start stop
      = .ok ((between start (if close then stop else start)).map range) := by
  cases close with
  | false => rw [if_neg Bool.false_ne_true, between_self]; rfl
  | true =>
      have hlt := h rfl
      have hcast : (start : Int) < stop := by omega
      rw [if_pos rfl, between_of_lt hlt, closeIf, if_pos rfl, AddressRange.ofBounds, dif_pos hcast]
      rfl

theorem sweep_min (code : Bytes) (pc stop : Nat) :
    sweep code (min pc stop) stop = sweep code pc stop := by
  rcases Nat.le_total pc stop with h | h
  · rw [Nat.min_eq_left h]
  · rw [Nat.min_eq_right h, sweep_self, sweep_of_le h]

/-- What the split of a listing does at its first instruction, in the order in
which the loop does it. -/
theorem split_cons (size start : Nat) (l : Located) (rest : List Located) :
    let cut := l.instruction.mnemonic == .jumpdest && l.offset != start
    let first := if cut then l.offset else start
    let last := if l.instruction.isTerminator then min l.next size else first
    split size start (l :: rest)
      = between start first ++ (between first last ++ split size last rest) := by
  have hfirst : (if l.instruction.mnemonic == .jumpdest && l.offset != start then l.offset
      else start) = if l.instruction.mnemonic = .jumpdest then l.offset else start := by
    by_cases heq : l.offset = start <;> simp [heq]
  dsimp only
  rw [hfirst, split]
  cases l.instruction.isTerminator <;> simp

/-- No bounds that the scan checks are found empty: the open block starts at
`pc` or before it, and a jump destination only closes it if it starts before. -/
theorem scanFrom_eq {code : Bytes} {start pc : Nat} (hstart : start ≤ pc) (hpc : pc ≤ code.size) :
    scanFrom code start pc
      = .ok ((split code.size start (sweep code pc code.size)).map range) := by
  rw [scanFrom]
  by_cases hlt : pc < code.size
  · have hpos := length_decodeAt_pos code pc
    rw [if_pos hlt, sweep_of_lt hlt, split_cons, ← sweep_min]
    dsimp only [Located.next]
    generalize hcut : ((decodeAt code pc).mnemonic == .jumpdest && pc != start) = cut
    generalize hfirst : (if cut then pc else start) = first
    generalize hnext : min (pc + (decodeAt code pc).length) code.size = next
    generalize hlast : (if (decodeAt code pc).isTerminator then next else first) = last
    have hbefore : cut = true → start < pc := by
      rintro rfl
      have hne : pc ≠ start := by simp_all
      omega
    have hlow : first ≤ pc := by
      rw [← hfirst]
      split <;> omega
    have hhigh : last ≤ next := by
      rw [← hlast]
      split <;> omega
    rw [closeIf_eq hbefore, closeIf_eq (fun _ => by omega : _ → first < next), hfirst, hlast,
      scanFrom_eq hhigh (by omega)]
    rw [List.map_append, List.map_append]
    rfl
  · obtain rfl : pc = code.size := Nat.le_antisymm hpc (Nat.not_lt.mp hlt)
    have hend : (start != code.size) = true → start < code.size := by
      intro h
      have hne : start ≠ code.size := by simpa using h
      omega
    rw [if_neg hlt, sweep_self, split, closeIf_eq hend]
    by_cases heq : start = code.size <;> simp [heq]
termination_by code.size - pc

/-- The scan never fails, and finds the blocks of the code. -/
theorem scan_eq (code : Bytes) : scan code = .ok ((ofCode code).map range) :=
  scanFrom_eq (Nat.le_refl 0) (Nat.zero_le _)

/-! ### Where blocks have to start -/

/-- The linear decoding shows, at an offset, an instruction at which a block has
to start: the first one, a jump destination, or one that execution cannot fall
into from the instruction before it. -/
def Begins (code : Bytes) (pc : Nat) : Prop :=
  ∃ pre i post, decodeAll code = pre ++ i :: post ∧ codeSize pre = pc ∧
    (pc = 0 ∨ i.mnemonic = .jumpdest ∨
      ∃ before, pre.getLast? = some before ∧ before.isTerminator = true)

/-- The same on the listing, where instructions come with their offsets. -/
theorem begins_iff {code : Bytes} {pc : Nat} :
    Begins code pc ↔ ∃ pre l post, listing code = pre ++ l :: post ∧ l.offset = pc ∧
      (pc = 0 ∨ l.instruction.mnemonic = .jumpdest ∨
        ∃ before, pre.getLast? = some before ∧ before.instruction.isTerminator = true) := by
  have hoffset : ∀ {pre l post}, listing code = pre ++ l :: post →
      codeSize (pre.map (·.instruction)) = l.offset := by
    intro pre l post h
    obtain ⟨stop, hspans, -⟩ := Spans.exists_of_sweep code 0 code.size
    rw [← listing, h] at hspans
    obtain ⟨m, hpre, hrest⟩ := hspans.split
    cases hrest with
    | cons hl _ => rw [hl, ← hpre.add_codeSize, Nat.zero_add]
  constructor
  · rintro ⟨pre, i, post, h, hsize, hwhy⟩
    obtain ⟨pre, rest, hlisting, rfl, hrest⟩ := List.map_eq_append_iff.mp h
    obtain ⟨l, post, rfl, rfl, rfl⟩ := List.map_eq_cons_iff.mp hrest
    refine ⟨pre, l, post, hlisting, (hoffset hlisting).symm.trans hsize, ?_⟩
    rcases hwhy with hzero | hjump | ⟨before, hlast, hterm⟩
    · exact Or.inl hzero
    · exact Or.inr (Or.inl hjump)
    · rw [List.getLast?_map, Option.map_eq_some_iff] at hlast
      obtain ⟨l', hl', rfl⟩ := hlast
      exact Or.inr (Or.inr ⟨l', hl', hterm⟩)
  · rintro ⟨pre, l, post, h, rfl, hwhy⟩
    refine ⟨pre.map (·.instruction), l.instruction, post.map (·.instruction), ?_, hoffset h, ?_⟩
    · rw [decodeAll, h, List.map_append, List.map_cons]
    · refine hwhy.imp_right (Or.imp_right ?_)
      rintro ⟨l', hl', hterm⟩
      exact ⟨l'.instruction, by rw [List.getLast?_map, hl']; rfl, hterm⟩

theorem IsBasic.begins {code : Bytes} {b : Block} (h : b.IsBasic code) : Begins code b.start := by
  have hlt : b.start < code.size := Nat.lt_of_lt_of_le b.start_lt_stop h.stop_le
  refine begins_iff.mpr ⟨_, _, _, sweep_eq_cons h.walk hlt, rfl, ?_⟩
  rcases h.mayStart with hzero | hjump | ⟨pc, hwalk, hterm, hnext⟩
  · exact Or.inl hzero
  · exact Or.inr (Or.inl hjump)
  · refine Or.inr (Or.inr ⟨⟨pc, decodeAt code pc⟩, ?_, hterm⟩)
    rw [← hnext, sweep_snoc hwalk, List.getLast?_concat]

/-- A block has no inner instruction at which one has to start. -/
theorem IsBasic.eq_start {code : Bytes} {b : Block} (h : b.IsBasic code) {pc : Nat}
    (hbegins : Begins code pc) (hle : b.start ≤ pc) (hlt : pc < b.stop) : pc = b.start := by
  obtain ⟨pre, l, post, hlisting, rfl, hwhy⟩ := begins_iff.mp hbegins
  obtain ⟨hwalk, -, hinsn, hpre, -⟩ := sweep_split hlisting
  rcases hwhy with hzero | hjump | ⟨before, hlast, hterm⟩
  · omega
  · rw [hinsn] at hjump
    exact Layout.eq_start_of_jumpdest h hwalk hle hlt hjump
  · refine Classical.byContradiction fun hne => ?_
    -- the instruction before it would be in the block, and its last one
    obtain ⟨front, rfl⟩ := List.getLast?_eq_some_iff.mp hlast
    rw [List.append_assoc, List.singleton_append] at hlisting
    have hnext : l.offset = before.next := offset_eq_next hlisting
    obtain ⟨hwalk', -, hinsn', -⟩ := sweep_split hlisting
    rw [Located.next, hinsn'] at hnext
    have hfrom : b.start ≤ before.offset := by
      refine Nat.le_of_not_lt fun hlow => ?_
      have := hwalk'.next_le_of_lt h.walk hlow
      omega
    rw [hinsn'] at hterm
    have hpos := length_decodeAt_pos code before.offset
    have := h.terminator_last (h.walk.tail_of_le hwalk' hfrom) (by omega) hterm
    omega

/-- An instruction that never falls through ends the block in which it is. -/
theorem IsBasic.next_eq_stop {code : Bytes} {b : Block} (h : b.IsBasic code) {l : Located}
    (hl : l ∈ listing code) (hle : b.start ≤ l.offset) (hlt : l.offset < b.stop)
    (hterm : l.instruction.isTerminator = true) : l.next = b.stop := by
  obtain ⟨pc, rfl, hwalk, -⟩ := exists_of_mem_sweep hl
  have hstop := h.terminator_last (h.walk.tail_of_le hwalk hle) hlt hterm
  -- it has one byte only, so it cannot reach past the block
  have hlength : (decodeAt code pc).length = 1 := length_of_isTerminator hterm
  refine Nat.le_antisymm ?_ hstop
  rw [Located.next, hlength]
  exact hlt

/-- The starts of blocks that tile code ascend. -/
theorem Tiles.pairwise_start {code : Bytes} {start : Nat} {bs : List Block}
    (h : Tiles code start bs) : (bs.map (·.start)).Pairwise (· < ·) := by
  induction h with
  | nil => exact .nil
  | @cons b rest _ hrest ih =>
      refine .cons (fun p hp => ?_) ih
      obtain ⟨b', hb', rfl⟩ := List.mem_map.mp hp
      exact Nat.lt_of_lt_of_le b.start_lt_stop (hrest.start_le_of_mem hb')

/-- Blocks that tile code stop where the next one starts, and the last one where
the code ends. -/
theorem Tiles.stop_eq {code : Bytes} {start id : Nat} {bs : List Block} {b : Block}
    (h : Tiles code start bs) (hb : bs[id]? = some b) :
    b.stop = (bs[id + 1]?.map (·.start)).getD code.size := by
  cases hnext : bs[id + 1]? with
  | some next => exact (h.start_next hb hnext).symm
  | none =>
      refine Nat.le_antisymm (h.isBasic (List.mem_of_getElem? hb)).stop_le
        (Nat.le_of_not_lt fun hlt => ?_)
      have hid := h.exists_next hb hlt
      rw [List.getElem?_eq_getElem hid] at hnext
      cases hnext

/-! ### The blocks of some code -/

section OfCode

variable {code : Bytes} {pc : Nat}

theorem exists_block (hpc : pc < code.size) :
    ∃ (id : Nat) (b : Block), (ofCode code)[id]? = some b ∧ b.start ≤ pc ∧ pc < b.stop := by
  obtain ⟨id, b, -, hb, hbounds⟩ := (ofCode_tiles code).findIdx?_encloses (Nat.zero_le pc) hpc
  exact ⟨id, b, hb, hbounds⟩

theorem existsUnique_block (hpc : pc < code.size) :
    ∃! id : Nat, ∃ b : Block, (ofCode code)[id]? = some b ∧ b.start ≤ pc ∧ pc < b.stop := by
  have htiles := ofCode_tiles code
  obtain ⟨id, b, hb, hle, hlt⟩ := exists_block hpc
  refine ⟨id, ⟨b, hb, hle, hlt⟩, ?_⟩
  rintro id' ⟨b', hb', hle', hlt'⟩
  have hid' := htiles.findIdx?_eq hb' hle' hlt'
  exact Option.some.inj (hid'.symm.trans (htiles.findIdx?_eq hb hle hlt))

theorem isBasic_of_mem {b : Block} (hb : b ∈ ofCode code) : b.IsBasic code :=
  (ofCode_tiles code).isBasic hb

/-- An offset at which a block has to start is the start of the one in which it
lies. -/
theorem exists_of_begins (h : Begins code pc) : ∃ b ∈ ofCode code, b.start = pc := by
  obtain ⟨pre, l, post, hlisting, hoffset, -⟩ := begins_iff.mp h
  obtain ⟨-, hsize, -⟩ := sweep_split hlisting
  obtain ⟨id, b, hb, hle, hlt⟩ := exists_block (hoffset ▸ hsize)
  have hmem := List.mem_of_getElem? hb
  exact ⟨b, hmem, ((isBasic_of_mem hmem).eq_start h hle hlt).symm⟩

theorem mem_starts_iff : pc ∈ (ofCode code).map (·.start) ↔ Begins code pc := by
  rw [List.mem_map]
  constructor
  · rintro ⟨b, hb, rfl⟩
    exact (isBasic_of_mem hb).begins
  · exact exists_of_begins

theorem ofCode_eq_nil_iff : ofCode code = [] ↔ code.size = 0 := by
  constructor
  · intro hnil
    refine Nat.eq_zero_of_not_pos fun hpos => ?_
    have hlength := (ofCode_tiles code).length_pos hpos
    rw [hnil] at hlength
    exact Nat.lt_irrefl 0 hlength
  · exact fun hzero => (ofCode_tiles code).eq_nil (Nat.le_of_eq hzero)

/-- Jumps may go to the starts of blocks that start with a jump destination, and
nowhere else. -/
theorem isJumpdest_iff_start {calldata : Bytes} {dest : Nat} :
    (Machine.Program.load code calldata).isJumpdest dest = true ↔
      ∃ b ∈ ofCode code, b.start = dest ∧ IsJumpdestAt code dest := by
  rw [Machine.Program.isJumpdest_iff]
  constructor
  · rintro ⟨hwalk, hlt, hjump⟩
    obtain ⟨b, hb, hdest⟩ := exists_of_begins (begins_iff.mpr
      ⟨_, _, _, sweep_eq_cons hwalk hlt, rfl, Or.inr (Or.inl hjump)⟩)
    exact ⟨b, hb, hdest, hjump⟩
  · rintro ⟨b, hb, rfl, hjump⟩
    have hbasic := isBasic_of_mem hb
    exact ⟨hbasic.walk, Nat.lt_of_lt_of_le b.start_lt_stop hbasic.stop_le, hjump⟩

end OfCode

/-! ### What the scan finds -/

/-- Blocks are the maximal stretches of code that is entered only at the first
instruction and left only behind the last one. -/
structure Divides (code : Bytes) (bs : List Block) : Prop where
  /-- The starts ascend, and are the offsets at which a block has to start. -/
  ascending : (bs.map (·.start)).Pairwise (· < ·)
  starts : ∀ pc, pc ∈ bs.map (·.start) ↔ Begins code pc
  /-- A block stops where the next one starts, the last one where the code ends. -/
  stops : ∀ id b, bs[id]? = some b → b.stop = (bs[id + 1]?.map (·.start)).getD code.size
  empty : bs = [] ↔ code.size = 0
  /-- Every byte lies in exactly one block. -/
  covers : ∀ pc < code.size, ∃! id : Nat, ∃ b : Block, bs[id]? = some b ∧ b.start ≤ pc ∧
    pc < b.stop
  /-- A jump destination is the first instruction of its block. -/
  jumpdest_first : ∀ b ∈ bs, ∀ l ∈ listing code, b.start ≤ l.offset → l.offset < b.stop →
    l.instruction.mnemonic = .jumpdest → l.offset = b.start
  /-- An instruction that never falls through is the last one of its block. -/
  terminator_last : ∀ b ∈ bs, ∀ l ∈ listing code, b.start ≤ l.offset → l.offset < b.stop →
    l.instruction.isTerminator = true → l.next = b.stop
  /-- Jumps may go to the starts of the blocks whose first instruction is a jump
  destination. -/
  jumpdests : ∀ calldata dest, (Machine.Program.load code calldata).isJumpdest dest = true ↔
    ∃ b ∈ bs, b.start = dest ∧ IsJumpdestAt code dest

/-- The scan for blocks does not fail, and the blocks that it finds are the
maximal ones. -/
theorem scan_divides (code : Bytes) :
    scan code = .ok ((ofCode code).map range) ∧ Divides code (ofCode code) := by
  have htiles := ofCode_tiles code
  refine ⟨scan_eq code, ?_⟩
  exact {
    ascending := htiles.pairwise_start
    starts := fun _ => mem_starts_iff
    stops := fun _ _ => htiles.stop_eq
    empty := ofCode_eq_nil_iff
    covers := fun _ => existsUnique_block
    jumpdest_first := fun b hb l hl hle hlt hjump => by
      obtain ⟨hwalk, -, hinsn⟩ := mem_sweep.mp hl
      rw [hinsn] at hjump
      exact Layout.eq_start_of_jumpdest (isBasic_of_mem hb) hwalk hle hlt hjump
    terminator_last := fun b hb l => (isBasic_of_mem hb).next_eq_stop
    jumpdests := fun _ _ => isJumpdest_iff_start }

end Block

end EvmToolchain
