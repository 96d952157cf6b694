import EvmToolchain.Proofs.Compiler.Expression

/-!
# EvmToolchain.Proofs.Compiler.HandBack

The code that hands back values.

The code stores each value in its slot and then ends the run with all slots. Placed
anywhere in assembled code, it leads from an empty stack to what the language says
(`Semantics.Program.storeAll`): each value is computed when those before it have been
stored. Whether the code belongs to a whole program makes no difference; all that is
asked of the program is that it keeps its slots as far apart as the code does.
-/

namespace EvmToolchain

open Instruction Assembly Machine Emitter

namespace Assembled

variable {stream code rest : List Instruction} {bytecode : Bytes} {options : CompilerOptions}
  {p : Semantics.Program} {before after : Labels} {values : List Term} {slot pc : Nat}
  {memory : Nat → UInt8} {storage : Storage} {T : (Nat → UInt8) → Target}

/-- Values are computed and stored one after the other, and then the rest of the
code is run. -/
theorem leads_slots (h : Assembled stream bytecode)
    (hsize : p.slotSize = options.slotSize.getD 0) (hvalues : ∀ t ∈ values, t.IsExpression)
    (hyields : (lowerSlots options slot values).Yields before code after)
    (hplaced : PlacedAt stream pc (code ++ rest)) (hpeak : peak 0 (code ++ rest) ≤ maxStack)
    (hrest : ∀ memory', PlacedAt stream (pc + codeSize code) rest → peak 0 rest ≤ maxStack →
      Leads (.load bytecode p.calldata) ⟨pc + codeSize code, [], memory', storage⟩ (T memory')) :
    Leads (.load bytecode p.calldata) ⟨pc, [], memory, storage⟩
      (.orTrap (.trapped storage) (p.storeAll storage slot memory values) T) := by
  induction values generalizing slot pc memory before code with
  | nil =>
      rw [lowerSlots] at hyields
      obtain ⟨rfl, -⟩ := yields_emit.mp hyields
      exact hrest memory hplaced hpeak
  | cons t values ih =>
      let x : Site := ⟨stream, bytecode, h, p.calldata, memory, storage⟩
      have ht := hvalues t List.mem_cons_self
      have hcorrect := ht.correct x options
      rw [lowerSlots] at hyields
      obtain ⟨_, _, last, hslot, hlast, rfl⟩ := yields_append.mp hyields
      obtain ⟨_, _, store, haddress, hstore, rfl⟩ := yields_append.mp hslot
      obtain ⟨front, _, push, hfront, hpush, rfl⟩ := yields_append.mp haddress
      obtain ⟨rfl, rfl⟩ := yields_emit.mp hstore
      have hcode : pc + codeSize (front ++ push ++ [.op .mstore] ++ last)
          = pc + codeSize front + codeSize push + 1 + codeSize last := by
        rw [codeSize_append, codeSize_append, codeSize_append, ← Nat.add_assoc, ← Nat.add_assoc,
          ← Nat.add_assoc]
        rfl
      simp only [hcode] at hrest
      rw [List.append_assoc, List.append_assoc, List.append_assoc] at hplaced hpeak
      rw [Semantics.Program.storeAll, Target.orTrap_bind]
      refine hcorrect.value.andThen hcorrect.balanced.value .trapped hfront hplaced hpeak
        fun v _ hplaced hpeak => ?_
      have hpush := yields_pushSlot hpush
      rw [← hsize] at hpush
      refine Emitter.leads_push hpush hplaced hpeak fun hplaced hpeak => ?_
      have hmstore : Leads (.load bytecode p.calldata)
          ⟨_, [slot * p.slotSize, v.toNat], memory, storage⟩ _ :=
        h.leads_mstore hplaced.head _ v
      -- a slot past the end of memory traps here as it does in the program
      by_cases hbound : slot * p.slotSize + wordBytes ≤ maxMemory
      · rw [if_pos hbound]
        refine Leads.trans (by rwa [if_pos hbound] at hmstore) ?_
        exact ih (fun u hu => hvalues u (List.mem_cons_of_mem _ hu)) hlast hplaced.tail
          (peak_cons_le.mp hpeak).2 hrest
      · rw [if_neg hbound]
        rwa [if_neg hbound] at hmstore

/-- All values are stored, and the run ends by handing back their slots. -/
theorem leads_handBack (h : Assembled stream bytecode)
    (hsize : p.slotSize = options.slotSize.getD 0) (hvalues : ∀ t ∈ values, t.IsExpression)
    {o : Opcode} {ending : Bytes → Machine.Ending} {ending' : List UInt8 → Semantics.Ending}
    (ho : ∀ p next s, executeOp p o next s
      = s.withTwo fun offset size s => s.finish offset size ending)
    (hseen : ∀ b, (ending b).seen = ending' b.contents)
    (hyields : (lowerResult options (.op o) values).Yields before code after)
    (hplaced : PlacedAt stream pc code) (hpeak : peak 0 code ≤ maxStack) :
    Leads (.load bytecode p.calldata) ⟨pc, [], memory, storage⟩
      (.orTrap (.trapped storage) (p.storeAll storage 0 memory values) fun memory' =>
        if values.length * p.slotSize ≤ maxMemory then
          .ended ⟨ending' ((List.range (values.length * p.slotSize)).map memory'), storage⟩
        else .trapped storage) := by
  rw [lowerResult] at hyields
  obtain ⟨_, _, last, hrange, hlast, rfl⟩ := yields_append.mp hyields
  obtain ⟨_, _, start, hslots, hstart, rfl⟩ := yields_append.mp hrange
  obtain ⟨front, _, size, hfront, hpush, rfl⟩ := yields_append.mp hslots
  obtain ⟨rfl, rfl⟩ := yields_emit.mp hlast
  rw [List.append_assoc, List.append_assoc] at hplaced hpeak
  refine h.leads_slots hsize hvalues hfront hplaced hpeak fun memory' hplaced hpeak => ?_
  let x : Site := ⟨stream, bytecode, h, p.calldata, memory', storage⟩
  have hpush := yields_pushSlot hpush
  rw [← hsize] at hpush
  refine Emitter.leads_push (x := x) hpush hplaced hpeak fun hplaced hpeak => ?_
  refine Emitter.leads_push (x := x) hstart hplaced hpeak fun hplaced hpeak => ?_
  exact h.leads_finish hplaced ho hseen _

end Assembled

end EvmToolchain
