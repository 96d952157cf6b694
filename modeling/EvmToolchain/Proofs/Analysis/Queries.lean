import EvmToolchain.Proofs.Analysis.Resolved
import EvmToolchain.Proofs.Code.Scan

/-!
# EvmToolchain.Proofs.Analysis.Queries

What a disassembly says of an address.

The block that encloses an address is looked up among the starts of the blocks by
halving (`Layout.searchIndex`). Since the starts ascend and each block stops where
the next one starts, the search finds the only block there is
(`Layout.searchIndex_eq`). The state before an address is rebuilt by replaying that
block: up to the instruction which covers the address, and past it if the address
lies within the instruction. Since only the last instruction of a block may be one
that never falls through, the replay of a block that is entered reaches each of its
instructions (`Disassembly.queries_agree`).
-/

namespace EvmToolchain

open Instruction StackState

/-! ### Search -/

/-- How many of some ascending starts are not past an address, if this holds of those
before `lo` and of none from `hi` on. -/
def startsUpTo (starts : List Nat) (pc : Int) (lo hi : Nat) : Nat :=
  if lo < hi then
    let mid := (lo + hi) / 2
    if pc < starts.getD mid 0 then startsUpTo starts pc lo mid
    else startsUpTo starts pc (mid + 1) hi
  else lo
termination_by hi - lo
decreasing_by all_goals omega

/-- The number of the block that encloses an address, found among the starts of the
blocks. -/
def Layout.searchIndex (l : Layout) (pc : Int) : Except AnalysisError Nat :=
  match startsUpTo (l.blocks.toList.map (·.start)) pc 0 l.blocks.size with
  | 0 => .error (.invalidAddress pc)
  | id + 1 =>
    match l.blocks[id]? with
    | some b => if b.encloses pc then .ok id else .error (.invalidAddress pc)
    | none => .error (.invalidAddress pc)

/-- The starts before `lo` are not past an address, and those from `hi` on are. -/
structure Separates (starts : List Nat) (pc : Int) (lo hi : Nat) : Prop where
  le : ∀ {k start : Nat}, starts[k]? = some start → k < lo → start ≤ pc
  lt : ∀ {k start : Nat}, starts[k]? = some start → hi ≤ k → pc < start

variable {starts : List Nat} {pc : Int} {lo mid hi : Nat}

theorem start_le_start (hsorted : starts.Pairwise (· < ·)) {k k' a b : Nat}
    (ha : starts[k]? = some a) (hb : starts[k']? = some b) (hle : k ≤ k') : a ≤ b := by
  obtain ⟨hk, rfl⟩ := List.getElem?_eq_some_iff.mp ha
  obtain ⟨hk', rfl⟩ := List.getElem?_eq_some_iff.mp hb
  rcases Nat.lt_or_eq_of_le hle with hlt | rfl
  · exact Nat.le_of_lt (List.pairwise_iff_getElem.mp hsorted k k' hk hk' hlt)
  · exact Nat.le_refl _

namespace Separates

/-- The lower half is kept if the start in the middle is past the address. -/
theorem lower (h : Separates starts pc lo hi) (hsorted : starts.Pairwise (· < ·))
    (hmid : mid < starts.length) (hpast : pc < starts[mid]) : Separates starts pc lo mid where
  le := h.le
  lt := by
    intro k start hk hle
    have hstart := start_le_start hsorted (List.getElem?_eq_getElem hmid) hk hle
    omega

/-- The upper half is kept if it is not. -/
theorem upper (h : Separates starts pc lo hi) (hsorted : starts.Pairwise (· < ·))
    (hmid : mid < starts.length) (hnot : starts[mid] ≤ pc) : Separates starts pc (mid + 1) hi where
  le := by
    intro k start hk hlt
    have hstart :=
      start_le_start hsorted hk (List.getElem?_eq_getElem hmid) (Nat.le_of_lt_succ hlt)
    omega
  lt := h.lt

end Separates

/-- The search ends where the starts that are not past the address end. -/
theorem startsUpTo_spec (hsorted : starts.Pairwise (· < ·)) (hhi : hi ≤ starts.length)
    (hle : lo ≤ hi) (h : Separates starts pc lo hi) :
    startsUpTo starts pc lo hi ≤ hi ∧
      Separates starts pc (startsUpTo starts pc lo hi) (startsUpTo starts pc lo hi) := by
  have hget : ∀ {mid : Nat} (hmid : mid < starts.length), starts.getD mid 0 = starts[mid] :=
    fun hmid => by rw [List.getD_eq_getElem?_getD, List.getElem?_eq_getElem hmid, Option.getD_some]
  fun_induction startsUpTo starts pc lo hi with
  | case1 lo hi hlt mid hpast ih =>
      have hmid : mid < starts.length := by omega
      rw [hget hmid] at hpast
      obtain ⟨hend, hsep⟩ := ih (by omega) (by omega) (h.lower hsorted hmid hpast)
      exact ⟨by omega, hsep⟩
  | case2 lo hi hlt mid hnot ih =>
      have hmid : mid < starts.length := by omega
      rw [hget hmid, Int.not_lt] at hnot
      exact ih hhi (by omega) (h.upper hsorted hmid hnot)
  | case3 lo hi hge =>
      obtain rfl : lo = hi := Nat.le_antisymm hle (Nat.not_lt.mp hge)
      exact ⟨Nat.le_refl _, h⟩

namespace Layout

variable {code : Bytes} {id : Nat} {b : Block}

/-- A block encloses addresses of the code only. -/
theorem lt_size_of_encloses (hb : (ofCode code).blocks[id]? = some b) (h : b.encloses pc = true) :
    0 ≤ pc ∧ pc < code.size := by
  have hstop := (isBasic hb).stop_le
  rw [Block.encloses_iff] at h
  omega

/-- No block encloses an address outside of the code. -/
theorem blockIndex_invalid (h : ¬ (0 ≤ pc ∧ pc < code.size)) :
    (ofCode code).blockIndex pc = .error (.invalidAddress pc) := by
  have hnone : (ofCode code).blocks.findIdx? (·.encloses pc) = none := by
    rw [Array.findIdx?_eq_none_iff]
    intro b hb
    obtain ⟨id, hid⟩ := Array.getElem?_of_mem hb
    exact Bool.eq_false_iff.mpr fun henc => h (lt_size_of_encloses hid henc)
  rw [blockIndex, hnone]

/-- An address of the code is found in the one block that encloses it. -/
theorem exists_blockIndex_iff (hpos : 0 ≤ pc) (hlt : pc < code.size) :
    ∃ id, (ofCode code).blockIndex pc = .ok id ∧
      ∀ id', id' = id ↔ ∃ b, (ofCode code).blocks[id']? = some b ∧ b.start ≤ pc ∧ pc < b.stop := by
  lift pc to Nat using hpos
  obtain ⟨id, b, hindex, hb, hle, hlt'⟩ := exists_blockIndex (Int.ofNat_lt.mp hlt)
  refine ⟨id, hindex, fun id' => ⟨?_, ?_⟩⟩
  · rintro rfl
    exact ⟨b, hb, Int.ofNat_le.mpr hle, Int.ofNat_lt.mpr hlt'⟩
  · rintro ⟨b', hb', hle', hlt''⟩
    have hindex' := blockIndex_eq hb' (Int.ofNat_le.mp hle') (Int.ofNat_lt.mp hlt'')
    exact Except.ok.inj (hindex'.symm.trans hindex)

/-- The start of a block, where all starts are listed. -/
theorem getElem?_starts (hb : (ofCode code).blocks[id]? = some b) :
    ((ofCode code).blocks.toList.map (·.start))[id]? = some b.start := by
  rw [List.getElem?_map, Array.getElem?_toList, hb, Option.map_some]

/-- The search among the starts finds what a search through all blocks does. -/
theorem searchIndex_eq (code : Bytes) (pc : Int) :
    (ofCode code).searchIndex pc = (ofCode code).blockIndex pc := by
  have hlength : ((ofCode code).blocks.toList.map (·.start)).length
      = (ofCode code).blocks.size := by
    rw [List.length_map, Array.length_toList]
  have hnone : Separates ((ofCode code).blocks.toList.map (·.start)) pc 0
      (ofCode code).blocks.size :=
    { le := fun _ hk => absurd hk (Nat.not_lt_zero _)
      lt := fun hk hle => by
        rw [List.getElem?_eq_none (hlength ▸ hle)] at hk
        cases hk }
  obtain ⟨hend, hsep⟩ := startsUpTo_spec (Block.ofCode_tiles code).pairwise_start
    (Nat.le_of_eq hlength.symm) (Nat.zero_le _) hnone
  unfold searchIndex
  by_cases hpc : 0 ≤ pc ∧ pc < code.size
  · obtain ⟨id, hindex, hid⟩ := exists_blockIndex_iff hpc.1 hpc.2
    obtain ⟨b, hb, hle, hlt⟩ := (hid id).mp rfl
    -- the block starts up to the address, and the next one, if there is one, behind it
    have hcount : startsUpTo ((ofCode code).blocks.toList.map (·.start)) pc 0
        (ofCode code).blocks.size = id + 1 := by
      refine Nat.le_antisymm (Nat.le_of_not_lt fun hmore => ?_) (Nat.lt_of_not_le fun hless => ?_)
      · have hnext := Array.getElem?_eq_getElem (Nat.lt_of_lt_of_le hmore hend)
        have hstart := start_next hb hnext
        have hup := hsep.le (getElem?_starts hnext) hmore
        omega
      · have hpast := hsep.lt (getElem?_starts hb) hless
        omega
    rw [hcount, hindex]
    simp only [hb, Block.encloses_iff.mpr ⟨hle, hlt⟩, if_true]
  · rw [blockIndex_invalid hpc]
    split
    · rfl
    · split
      · next id _ b hb =>
        rw [if_neg fun henc => hpc (lt_size_of_encloses hb henc)]
      · rfl

end Layout

/-! ### The state before an address -/

variable {code : Bytes}

/-- Every address of the code lies in one instruction of the listing. -/
theorem exists_located_iff {pc : Nat} (hpc : pc < code.size) :
    ∃ l : Located, ∀ l', l' = l ↔ l' ∈ listing code ∧ l'.offset ≤ pc ∧ pc < l'.next := by
  obtain ⟨offset, hwalk, hle, hlt⟩ : ∃ offset, Walk code 0 offset ∧ offset ≤ pc ∧
      pc < offset + (decodeAt code offset).length := Walk.exists_covering (Nat.zero_le pc)
  refine ⟨⟨offset, decodeAt code offset⟩, fun l' => ⟨?_, ?_⟩⟩
  · rintro rfl
    exact ⟨mem_sweep.mpr ⟨hwalk, Nat.lt_of_le_of_lt hle hpc, rfl⟩, hle, hlt⟩
  · rintro ⟨hmem, hle', hlt'⟩
    obtain ⟨offset', rfl, hwalk', -⟩ := exists_of_mem_sweep hmem
    obtain rfl := hwalk'.eq_of_covering hwalk hle' hlt' hle hlt
    rfl

/-- The instruction that covers an address of a block starts in the block. -/
theorem Block.IsBasic.start_le {b : Block} (hb : b.IsBasic code) {offset pc : Nat}
    (hwalk : Walk code 0 offset) (hlt : pc < offset + (decodeAt code offset).length)
    (hstart : b.start ≤ pc) : b.start ≤ offset := by
  refine Nat.le_of_not_lt fun hbefore => ?_
  have hnext := hwalk.next_le_of_lt hb.walk hbefore
  omega

/-- Within an instruction, the state is the one after it. -/
theorem Layout.stateBefore_within {b : Block} {offset pc : Nat} (context : StackState)
    (hwalk : Walk code b.start offset) (hlt : offset < pc)
    (hnext : pc ≤ offset + (decodeAt code offset).length) :
    stateBefore code b context pc
      = after (decodeAt code offset) (stateBefore code b context offset) := by
  have hsweep : sweep code b.start pc
      = sweep code b.start offset ++ [⟨offset, decodeAt code offset⟩] := by
    rw [sweep_eq_cons hwalk hlt, sweep_of_le hnext]
  rw [stateBefore, hsweep, afterAll_append]
  rfl

/-- The states of a disassembly agree with its blocks. Before the instruction that
covers an address, nothing is reached just if the block is not entered, and the state
before the address is that state or, within the instruction, the one after it. -/
structure Disassembly.Answers (d : Disassembly StackState) (code : Bytes) (pc : Nat)
    (l : Located) : Prop where
  decodes : decode code l.offset = .ok l.instruction
  state : ∃ (id : Nat) (b : Block) (context t : StackState),
    d.blockIndex l.offset = .ok id ∧ d.blockIndex pc = .ok id ∧ d.blocks[id]? = some b ∧
      d.contexts[id]? = some context ∧
      (∀ l' ∈ sweep code b.start pc, decode code l'.offset = .ok l'.instruction) ∧
      d.stateAt l.offset = .ok t ∧ (t = bottom ↔ context = bottom) ∧
      (pc = l.offset → d.stateAt pc = .ok t) ∧
      (pc ≠ l.offset → ∃ t', t.transfer l.instruction = .ok t' ∧ d.stateAt pc = .ok t')

namespace Disassembly

/-- A live disassembly with a state for each block has an answer for each address. -/
theorem answers {d : Disassembly StackState} (hlayout : d.toLayout = .ofCode code)
    (hlive : d.isRetired = false) (hcontexts : d.contexts.size = d.blocks.size) {pc : Nat}
    (hpc : pc < code.size) {l : Located} (hmem : l ∈ listing code) (hle : l.offset ≤ pc)
    (hlt : pc < l.next) : d.Answers code pc l := by
  obtain ⟨offset, rfl, hwalk, hoffset⟩ := exists_of_mem_sweep hmem
  obtain ⟨id, b, hindex, hb, hstart, hstop⟩ := Layout.exists_blockIndex hpc
  have hbasic := Layout.isBasic hb
  have hstart' := hbasic.start_le hwalk hlt hstart
  have hwalk' := hbasic.walk.tail_of_le hwalk hstart'
  have hstop' : offset < b.stop := Nat.lt_of_le_of_lt hle hstop
  have hid : id < d.contexts.size := by
    rw [hcontexts, hlayout]
    exact (Array.getElem?_eq_some_iff.mp hb).1
  have hcontext := Array.getElem?_eq_getElem hid
  have hstate := stateAt_eq hlayout hlive hb hcontext hstart' hstop'
  have hstate' := stateAt_eq hlayout hlive hb hcontext hstart hstop
  refine ⟨decode_of_lt hoffset, id, b, _, _, ?_, ?_, ?_, hcontext, ?_, hstate, ?_, ?_, ?_⟩
  · rw [hlayout]
    exact Layout.blockIndex_eq hb hstart' hstop'
  · rw [hlayout]
    exact hindex
  · rw [hlayout]
    exact hb
  · intro l' hl'
    obtain ⟨offset', rfl, -, hoffset'⟩ := exists_of_mem_sweep hl'
    exact decode_of_lt (Nat.lt_trans hoffset' hpc)
  · constructor
    · intro hbottom
      by_contra hne
      exact Layout.stateBefore_ne_bottom hbasic hne hwalk' hstop' hbottom
    · intro hbottom
      rw [hbottom, Layout.stateBefore_bottom]
  · rintro rfl
    exact hstate
  · intro hne
    refine ⟨_, transfer_eq (readable_decodeAt code offset) _, ?_⟩
    rw [hstate', Layout.stateBefore_within _ hwalk' (Nat.lt_of_le_of_ne hle (Ne.symm hne))
      (Nat.le_of_lt hlt)]

/-- Lookups and states agree with the blocks. An address of the code is found in the
one block that encloses it, and any other address in none, by halving as well as by
trying all blocks. Each address of the code lies in one instruction of the listing, and
a live disassembly with a state for each block tells the state before the address from
the one before that instruction. -/
theorem queries_agree (code : Bytes) :
    (∀ (σ : Type) (d : Disassembly σ), d.toLayout = .ofCode code → ∀ pc : Int,
      d.searchIndex pc = d.blockIndex pc ∧
        (0 ≤ pc ∧ pc < code.size → ∃ id, d.blockIndex pc = .ok id ∧
          ∀ id', id' = id ↔ ∃ b, d.blocks[id']? = some b ∧ b.start ≤ pc ∧ pc < b.stop) ∧
        (¬ (0 ≤ pc ∧ pc < code.size) → d.blockIndex pc = .error (.invalidAddress pc))) ∧
    ∀ d : Disassembly StackState, d.toLayout = .ofCode code → d.isRetired = false →
      d.contexts.size = d.blocks.size → ∀ pc < code.size, ∃ l : Located,
        (∀ l', l' = l ↔ l' ∈ listing code ∧ l'.offset ≤ pc ∧ pc < l'.next) ∧
          d.Answers code pc l := by
  refine ⟨fun σ d hlayout pc => ?_, fun d hlayout hlive hcontexts pc hpc => ?_⟩
  · rw [hlayout]
    exact ⟨Layout.searchIndex_eq code pc, fun h => Layout.exists_blockIndex_iff h.1 h.2,
      Layout.blockIndex_invalid⟩
  · obtain ⟨l, hl⟩ := exists_located_iff hpc
    obtain ⟨hmem, hle, hlt⟩ := (hl l).mp rfl
    exact ⟨l, hl, answers hlayout hlive hcontexts hpc hmem hle hlt⟩

/-- Addresses of a block that is entered and of one that is not, one of them within a
push, and addresses past both ends of the code. -/
theorem queries_agree_hop :
    let d : Disassembly StackState :=
      { Layout.ofCode Layout.hop with contexts := #[.stack [], .bottom], options := {} }
    d.searchIndex 4 = .ok 1 ∧ d.blockIndex (-1) = .error (.invalidAddress (-1)) ∧
      d.blockIndex 5 = .error (.invalidAddress 5) ∧
      d.Answers Layout.hop 1 ⟨0, push [3]⟩ ∧ d.Answers Layout.hop 4 ⟨4, op .stop⟩ := by
  intro d
  obtain ⟨hlookup, hanswers⟩ := queries_agree Layout.hop
  have hcontexts : d.contexts.size = d.blocks.size := by
    rw [show d.blocks = _ from Layout.blocks_hop]
    rfl
  have hlisting : listing Layout.hop = [⟨0, push [3]⟩, ⟨2, op .jump⟩, ⟨3, jumpdest 3⟩,
      ⟨4, op .stop⟩] := by
    rw [Layout.listing_hop, Layout.sweep_hop.1, Layout.sweep_hop.2]
    rfl
  refine ⟨?_, (hlookup _ d rfl (-1)).2.2 (by decide), (hlookup _ d rfl 5).2.2 (by decide), ?_, ?_⟩
  · obtain ⟨hsearch, hfound, -⟩ := hlookup _ d rfl 4
    obtain ⟨id, hindex, hid⟩ := hfound (by decide)
    have hblock : d.blocks[1]? = some ⟨3, 5, by decide⟩ := by
      rw [show d.blocks = _ from Layout.blocks_hop]
      rfl
    rw [hsearch, hindex, (hid 1).mpr ⟨_, hblock, by decide, by decide⟩]
  · obtain ⟨l, hl, hanswer⟩ := hanswers d rfl rfl hcontexts 1 (by decide)
    rwa [(hl ⟨0, push [3]⟩).mpr ⟨by rw [hlisting]; simp, by decide, by decide⟩]
  · obtain ⟨l, hl, hanswer⟩ := hanswers d rfl rfl hcontexts 4 (by decide)
    rwa [(hl ⟨4, op .stop⟩).mpr ⟨by rw [hlisting]; simp, by decide, by decide⟩]

end Disassembly

end EvmToolchain
