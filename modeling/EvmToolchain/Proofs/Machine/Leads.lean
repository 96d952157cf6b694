import EvmToolchain.Proofs.Machine.Configs

/-!
# EvmToolchain.Proofs.Machine.Leads

Where the instructions of assembled code lead.

There is one lemma for every instruction that terms are lowered to. It says
where the run gets to from a configuration at which the instruction is placed,
for a stack that has room for what the instruction pushes. Operands are words of
the language.
-/

namespace EvmToolchain.Assembled

open Instruction Assembly Machine Semantics

variable {is : List Instruction} {code calldata : Bytes} {pc : Nat} {stack : List Nat}
  {memory : Nat → UInt8} {storage : Storage}

/-! ### From execution to targets -/

theorem leads_of_execute (h : Assembled is code) {T : Target} {i j : Instruction}
    (hi : PlacedAt is pc [i]) (hdecode : decodeAt code pc = j)
    (hexec : ∀ buffer steps, memory = Bytes.byteAt buffer →
      (execute (.load code calldata) j ⟨pc, stack, buffer, storage, steps⟩).Meets T) :
    Leads (.load code calldata) ⟨pc, stack, memory, storage⟩ T := by
  refine Leads.of_meets (h.lt_size hi) ?_
  rintro ⟨_, _, buffer, _, steps⟩ hs
  obtain ⟨rfl, rfl, hbuffer, rfl⟩ := Config.mk.inj hs
  show (execute _ (decodeAt code _) _).Meets T
  rw [hdecode]
  exact hexec buffer steps hbuffer.symm

theorem leads_op (h : Assembled is code) {o : Opcode} {T : Target}
    (hi : PlacedAt is pc [.op o])
    (hexec : ∀ buffer steps, memory = Bytes.byteAt buffer →
      (executeOp (.load code calldata) o (pc + 1) ⟨pc, stack, buffer, storage, steps⟩).Meets T) :
    Leads (.load code calldata) ⟨pc, stack, memory, storage⟩ T :=
  h.leads_of_execute hi (h.decodeAt_op hi) hexec

/-! ### Pushes and jumps -/

theorem leads_push_of_decodeAt (h : Assembled is code) {i : Instruction} {data : List UInt8}
    (hi : PlacedAt is pc [i]) (hdecode : decodeAt code pc = .push data)
    (hdata : data.length ≤ wordBytes) (hlen : stack.length < maxStack) :
    Leads (.load code calldata) ⟨pc, stack, memory, storage⟩
      (.config ⟨pc + i.length, BigEndian.toNat data :: stack, memory, storage⟩) := by
  have hv : BigEndian.toNat data < Word.modulus :=
    Nat.lt_of_lt_of_le (BigEndian.toNat_lt data) (BigEndian.capacity_mono hdata)
  have hnext : (Instruction.push data).length = i.length := by
    rw [← hdecode, h.length_decodeAt hi]
  refine h.leads_of_execute hi hdecode fun buffer steps hbuffer => ?_
  subst hbuffer
  show (State.push _ (pc + (Instruction.push data).length) (BigEndian.toNat data)).Meets _
  rw [hnext, ← toNat_ofNat hv]
  exact State.push_meets hlen _

theorem leads_push (h : Assembled is code) {data : List UInt8}
    (hi : PlacedAt is pc [.push data]) (hpos : 1 ≤ data.length)
    (hdata : data.length ≤ wordBytes) (hlen : stack.length < maxStack) :
    Leads (.load code calldata) ⟨pc, stack, memory, storage⟩
      (.config ⟨pc + (Instruction.push data).length, BigEndian.toNat data :: stack, memory,
        storage⟩) :=
  h.leads_push_of_decodeAt hi (h.decodeAt_push hpos hdata hi) hdata hlen

/-- The push of a label pushes the address at which it is placed. -/
theorem leads_pushLabel (h : Assembled is code) {label : Int} {dest : Nat}
    (hi : PlacedAt is pc [.pushLabel label]) (hlabel : LabelAt is (some label) dest)
    (hlen : stack.length < maxStack) :
    Leads (.load code calldata) ⟨pc, stack, memory, storage⟩
      (.config ⟨pc + (Instruction.pushLabel label).length, dest :: stack, memory, storage⟩) := by
  obtain ⟨address, haddress, hlimit, hdecode⟩ := h.decodeAt_pushLabel hi
  obtain rfl := h.labelAt_unique hlabel haddress
  have hv : BigEndian.toNat (BigEndian.ofNat labelWidth dest) = dest := by
    rw [BigEndian.toNat_ofNat]
    exact Nat.mod_eq_of_lt hlimit
  have hdata : (BigEndian.ofNat labelWidth dest).length ≤ wordBytes := by
    rw [BigEndian.length_ofNat]
    decide
  have hpush : Leads (.load code calldata) ⟨pc, stack, memory, storage⟩
      (.config ⟨pc + (Instruction.pushLabel label).length, _, memory, storage⟩) :=
    h.leads_push_of_decodeAt hi hdecode hdata hlen
  rwa [hv] at hpush

/-- A label that is placed can be jumped to. -/
theorem isJumpdest (h : Assembled is code) {label : Option Int} {dest : Nat}
    (hlabel : LabelAt is label dest) :
    (Program.load code calldata).isJumpdest dest = true := by
  have hdecode := h.decodeAt_labelAt hlabel
  obtain ⟨i, -, -, hi⟩ := hlabel
  refine Program.isJumpdest_iff.mpr ⟨h.walk hi, h.lt_size hi, ?_⟩
  rw [IsJumpdestAt, hdecode]
  rfl

theorem leads_jump (h : Assembled is code) {label : Option Int} {dest : Nat}
    (hi : PlacedAt is pc [.op .jump]) (hlabel : LabelAt is label dest) :
    Leads (.load code calldata) ⟨pc, dest :: stack, memory, storage⟩
      (.config ⟨dest, stack, memory, storage⟩) := by
  refine h.leads_op hi fun buffer steps hbuffer => ?_
  subst hbuffer
  show (State.jump _ _ _).Meets _
  rw [State.jump, if_pos (h.isJumpdest hlabel)]
  exact .next _

theorem leads_jumpi (h : Assembled is code) {label : Option Int} {dest : Nat}
    (hi : PlacedAt is pc [.op .jumpi]) (hlabel : LabelAt is label dest) (v : Semantics.Word) :
    Leads (.load code calldata) ⟨pc, dest :: v.toNat :: stack, memory, storage⟩
      (.config ⟨if v = 0 then pc + 1 else dest, stack, memory, storage⟩) := by
  refine h.leads_op hi fun buffer steps hbuffer => ?_
  subst hbuffer
  show (ite (v.toNat = 0) (.next _) (State.jump _ _ _)).Meets _
  by_cases hv : v = 0
  · rw [if_pos hv, if_pos (toNat_eq_zero.mpr hv)]
    exact .next _
  · rw [if_neg hv, if_neg fun h0 => hv (toNat_eq_zero.mp h0), State.jump,
      if_pos (h.isJumpdest hlabel)]
    exact .next _

theorem leads_jumpdest (h : Assembled is code) {label : Int}
    (hi : PlacedAt is pc [.jumpdest label]) :
    Leads (.load code calldata) ⟨pc, stack, memory, storage⟩
      (.config ⟨pc + 1, stack, memory, storage⟩) := by
  have hdecode := h.decodeAt_labelAt ⟨_, rfl, rfl, hi⟩
  refine h.leads_of_execute hi hdecode fun buffer steps hbuffer => ?_
  subst hbuffer
  exact .next _

/-! ### Operations on the stack -/

theorem leads_dupTop (h : Assembled is code) (hi : PlacedAt is pc [dupTop])
    (v : Semantics.Word) (hlen : stack.length + 1 < maxStack) :
    Leads (.load code calldata) ⟨pc, v.toNat :: stack, memory, storage⟩
      (.config ⟨pc + 1, v.toNat :: v.toNat :: stack, memory, storage⟩) := by
  refine h.leads_op hi fun buffer steps hbuffer => ?_
  subst hbuffer
  exact State.push_meets (s := ⟨pc, v.toNat :: stack, buffer, storage, steps⟩) hlen v

theorem leads_pop (h : Assembled is code) (hi : PlacedAt is pc [.op .pop]) (v : Nat) :
    Leads (.load code calldata) ⟨pc, v :: stack, memory, storage⟩
      (.config ⟨pc + 1, stack, memory, storage⟩) := by
  refine h.leads_op hi fun buffer steps hbuffer => ?_
  subst hbuffer
  exact .next _

theorem leads_isZero (h : Assembled is code) (hi : PlacedAt is pc [.op .isZero])
    (v : Semantics.Word) (hlen : stack.length < maxStack) :
    Leads (.load code calldata) ⟨pc, v.toNat :: stack, memory, storage⟩
      (.config ⟨pc + 1, (truth (v = 0)).toNat :: stack, memory, storage⟩) := by
  refine h.leads_op hi fun buffer steps hbuffer => ?_
  subst hbuffer
  show (State.push _ _ (Word.isZero v.toNat)).Meets _
  rw [← toNat_isZero]
  exact State.push_meets hlen _

theorem executeOp_binary {p : Machine.Program} {o : Opcode} {f : Nat → Nat → Nat}
    (hf : binary? o = some f) (next : Nat) (s : Machine.State) :
    executeOp p o next s = s.withTwo fun a b s => s.push next (f a b) := by
  cases o with
  | add | sub | mul | div | mod | exp | lt | gt | eq | and | or | xor =>
      obtain rfl := Option.some.inj hf
      rfl
  | _ => cases hf

theorem leads_binary (h : Assembled is code) {o : Opcode} {f : Nat → Nat → Nat}
    {g : Semantics.Word → Semantics.Word → Semantics.Word} (hi : PlacedAt is pc [.op o])
    (hf : binary? o = some f) (hg : ∀ a b, (g a b).toNat = f a.toNat b.toNat)
    (a b : Semantics.Word) (hlen : stack.length < maxStack) :
    Leads (.load code calldata) ⟨pc, a.toNat :: b.toNat :: stack, memory, storage⟩
      (.config ⟨pc + 1, (g a b).toNat :: stack, memory, storage⟩) := by
  refine h.leads_op hi fun buffer steps hbuffer => ?_
  subst hbuffer
  rw [executeOp_binary hf]
  show (State.push _ _ (f a.toNat b.toNat)).Meets _
  rw [← hg]
  exact State.push_meets hlen _

/-! ### Regions -/

theorem leads_mload (h : Assembled is code) (hi : PlacedAt is pc [.op .mload])
    (offset : Nat) (hlen : stack.length < maxStack) :
    Leads (.load code calldata) ⟨pc, offset :: stack, memory, storage⟩
      (if offset + wordBytes ≤ maxMemory then
        .config ⟨pc + 1, (readWord memory offset).toNat :: stack, memory, storage⟩
      else .memoryBound stack memory storage) := by
  refine h.leads_op hi fun buffer steps hbuffer => ?_
  subst hbuffer
  exact State.load_meets hlen

theorem leads_sload (h : Assembled is code) (hi : PlacedAt is pc [.op .sload])
    (key : Nat) (hlen : stack.length < maxStack) :
    Leads (.load code calldata) ⟨pc, key :: stack, memory, storage⟩
      (.config ⟨pc + 1, (BitVec.ofInt 256 (storage.getD key 0)).toNat :: stack, memory,
        storage⟩) := by
  refine h.leads_op hi fun buffer steps hbuffer => ?_
  subst hbuffer
  show (State.push _ _ (Word.ofInt (storage.getD key 0))).Meets _
  rw [← toNat_ofInt]
  exact State.push_meets hlen _

theorem leads_callDataLoad (h : Assembled is code) (hi : PlacedAt is pc [.op .callDataLoad])
    (offset : Nat) (hlen : stack.length < maxStack) :
    Leads (.load code calldata) ⟨pc, offset :: stack, memory, storage⟩
      (.config ⟨pc + 1, (readWord calldata.byteAt offset).toNat :: stack, memory, storage⟩) := by
  refine h.leads_op hi fun buffer steps hbuffer => ?_
  subst hbuffer
  show (State.push _ _ (calldata.number offset wordBytes)).Meets _
  rw [← toNat_readWord]
  exact State.push_meets hlen _

theorem leads_mstore (h : Assembled is code) (hi : PlacedAt is pc [.op .mstore])
    (offset : Nat) (v : Semantics.Word) :
    Leads (.load code calldata) ⟨pc, offset :: v.toNat :: stack, memory, storage⟩
      (if offset + wordBytes ≤ maxMemory then
        .config ⟨pc + 1, stack, writeWord memory offset v, storage⟩
      else .trapped storage) := by
  refine h.leads_op hi fun buffer steps hbuffer => ?_
  subst hbuffer
  exact State.store_meets v

theorem leads_sstore (h : Assembled is code) (hi : PlacedAt is pc [.op .sstore])
    (key v : Nat) :
    Leads (.load code calldata) ⟨pc, key :: v :: stack, memory, storage⟩
      (.config ⟨pc + 1, stack, memory, storage.insert key v⟩) := by
  refine h.leads_op hi fun buffer steps hbuffer => ?_
  subst hbuffer
  exact .next _

/-! ### The end of a run -/

theorem leads_invalid (h : Assembled is code) (hi : PlacedAt is pc [.op .invalid]) :
    Leads (.load code calldata) ⟨pc, stack, memory, storage⟩ (.trapped storage) := by
  refine h.leads_op hi fun buffer steps _ => ?_
  exact State.fault_meets _ _

theorem leads_stop (h : Assembled is code) (hi : PlacedAt is pc [.op .stop]) :
    Leads (.load code calldata) ⟨pc, [], memory, storage⟩ (.ended ⟨.stopped, storage⟩) := by
  refine h.leads_op hi fun buffer steps _ => ?_
  exact .halt ⟨rfl, rfl, fun _ => rfl⟩

/-- A run past the end of the code has stopped. -/
theorem leads_past_end (h : Assembled is code) (hpc : codeSize is ≤ pc) :
    Leads (.load code calldata) ⟨pc, [], memory, storage⟩ (.ended ⟨.stopped, storage⟩) := by
  rintro ⟨_, _, buffer, _, steps⟩ hs
  obtain ⟨rfl, rfl, rfl, rfl⟩ := Config.mk.inj hs
  refine ⟨0, _, .of_le ?_, rfl, rfl, fun _ => rfl⟩
  show code.size ≤ _
  rw [h.size_eq]
  exact hpc

/-- The instructions that hand back the front of the memory. -/
theorem leads_finish (h : Assembled is code) {o : Opcode} {ending : Bytes → Machine.Ending}
    {ending' : List UInt8 → Semantics.Ending} (hi : PlacedAt is pc [.op o])
    (ho : ∀ p next s, executeOp p o next s
      = s.withTwo fun offset size s => s.finish offset size ending)
    (hseen : ∀ b, (ending b).seen = ending' b.contents) (size : Nat) :
    Leads (.load code calldata) ⟨pc, [0, size], memory, storage⟩
      (if size ≤ maxMemory then .ended ⟨ending' ((List.range size).map memory), storage⟩
      else .trapped storage) := by
  refine h.leads_op hi fun buffer steps hbuffer => ?_
  subst hbuffer
  rw [ho]
  have hbound : size ≤ maxMemory ↔ size = 0 ∨ 0 + size ≤ maxMemory := by omega
  have hbytes : buffer.byteAt = fun k => Bytes.byteAt buffer (0 + k) := by
    simp only [Nat.zero_add]
  simp only [hbound]
  rw [hbytes]
  exact State.finish_meets (s := ⟨pc, [], buffer, storage, steps⟩) hseen rfl

end EvmToolchain.Assembled
