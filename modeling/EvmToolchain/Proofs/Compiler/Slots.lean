import EvmToolchain.Proofs.Compiler.HandBack
import EvmToolchain.Proofs.Compiler.Placed
import EvmToolchain.Proofs.Compiler.Reports
import EvmToolchain.Proofs.Lang.Slots

/-!
# EvmToolchain.Proofs.Compiler.Slots

Values that are handed back are laid out independently.

A statement that hands back values stores one after the other, so a value could see
those before it. If all memory that the values read lies behind the last word that is
stored, none of them does: the run ends with the values as they were before the
statement, each in a slot of its own, and between the slots with the memory as it was
(`Session.compile_lays_out`).
-/

namespace EvmToolchain

open Instruction Assembly Machine

/-- The statements that hand back values, with the way in which a run ends there. -/
inductive Term.HandsBack : Term → List Term → (Bytes → Machine.Ending) → Prop
  | succeed {values : List Term} : values ≠ [] → HandsBack (.succeed values) values .returned
  | revert (values : List Term) : HandsBack (.revert values) values .reverted

/-- An instruction that ends a run with a stretch of memory, in a way that is seen. -/
structure Opcode.Finishes (o : Opcode) (ending : Bytes → Machine.Ending)
    (ending' : List UInt8 → Semantics.Ending) : Prop where
  execute : ∀ p next s, executeOp p o next s
    = s.withTwo fun offset size s => s.finish offset size ending
  seen : ∀ b, (ending b).seen = ending' b.contents
  ne_trapped : ∀ data, ending' data ≠ .trapped
  exists_data : ∀ {e : Machine.Ending} {data}, e.seen = ending' data →
    ∃ b, e = ending b ∧ b.contents = data

/-- All that the two kinds of statements have in common. -/
theorem Term.HandsBack.exists_finishes {t : Term} {values : List Term}
    {ending : Bytes → Machine.Ending} (h : t.HandsBack values ending) (options : CompilerOptions) :
    ∃ o ending', Opcode.Finishes o ending ending' ∧
      (t.lower options).value = lowerResult options (.op o) values := by
  cases h with
  | @succeed values hne =>
      refine ⟨.ret, .returned, ⟨fun _ _ _ => rfl, fun _ => rfl, nofun, ?_⟩, ?_⟩
      · intro e data h
        cases e with
        | returned b => exact ⟨b, rfl, Semantics.Ending.returned.inj h⟩
        | _ => cases h
      · cases values with
        | nil => exact absurd rfl hne
        | cons t rest => simp only [Term.lower, Lowering.value_ofValue]
  | revert values =>
      refine ⟨.revert, .reverted, ⟨fun _ _ _ => rfl, fun _ => rfl, nofun, ?_⟩, ?_⟩
      · intro e data h
        cases e with
        | reverted b => exact ⟨b, rfl, Semantics.Ending.reverted.inj h⟩
        | _ => cases h
      · simp only [Term.lower, Lowering.value_ofValue]

namespace Session

variable {s after : Session} {t : Term} {code pre post : List Instruction} {bytecode : Bytes}

/-- Values that are handed back are laid out independently. Let the code of the
statement be placed in assembled code and run from an empty stack, and let all words
of memory that the values read lie behind the last word that is stored and within the
bound of the memory, as the slots do. Then the run ends with as many slots as there
are values. Each slot begins with the word that its value denotes before the
statement, and elsewhere shows the memory before the statement. The storage is the
same. -/
theorem compile_lays_out {values : List Term} {ending : Bytes → Machine.Ending}
    (ht : t.HandsBack values ending) (hvalues : ∀ v ∈ values, v.IsExpression)
    {size : Nat} (hslot : s.options.slotSize = some size)
    (hsize : wordBytes ≤ size) (hcompile : s.compile t = (after, .ok ()))
    (hcode : after.instructions = s.instructions ++ code)
    (hassembled : Assembled (pre ++ code ++ post) bytecode) (calldata : Bytes) {m : State}
    (hpc : m.pc = codeSize pre) (hstack : m.stack = []) (hroom : peak 0 code ≤ maxStack)
    (hreads : ∀ v ∈ values, ∀ offset,
      Semantics.Reads ⟨calldata, m.memory.byteAt, m.storage⟩ v offset →
        (values.length - 1) * size + wordBytes ≤ offset ∧ offset + wordBytes ≤ maxMemory)
    (hrange : values.length * size ≤ maxMemory) :
    ∃ n o data words, EndsAfter (.load bytecode calldata) n m o ∧ o.ending = ending data ∧
      values.mapM (Semantics.eval ⟨calldata, m.memory.byteAt, m.storage⟩) = some words ∧
      words.length = values.length ∧
      Semantics.LaidOut size words m.memory.byteAt data.contents ∧
      o.state.stack = [] ∧ o.state.storage = m.storage := by
  obtain ⟨op, ending', hop, hlower⟩ := ht.exists_finishes s.options
  obtain ⟨labels, hyields⟩ := yields_of_run hcompile hcode
  rw [hlower] at hyields
  let p : Semantics.Program := ⟨[], size, calldata⟩
  have hplaced : PlacedAt (pre ++ code ++ post) m.pc code := ⟨pre, post, rfl, hpc⟩
  have hslots : ∀ k < values.length,
      (0 + k) * size + wordBytes ≤ (values.length - 1) * size + wordBytes ∧
        (0 + k) * size + wordBytes ≤ maxMemory := by
    intro k hk
    have hlast : k * size ≤ (values.length - 1) * size :=
      Nat.mul_le_mul_right size (Nat.le_sub_one_of_lt hk)
    have hend : (k + 1) * size ≤ values.length * size := Nat.mul_le_mul_right size hk
    rw [Nat.succ_mul] at hend
    rw [Nat.zero_add]
    omega
  obtain ⟨words, hwords, hlength, hstore⟩ :=
    p.storeAll_eq hvalues hreads (fun _ _ => rfl) hslots
  have hspacing : p.slotSize = s.options.slotSize.getD 0 := by
    rw [hslot]
    rfl
  have hleads : Leads (.load bytecode p.calldata) ⟨m.pc, [], m.memory.byteAt, m.storage⟩
      (.orTrap (.trapped m.storage) (p.storeAll m.storage 0 m.memory.byteAt values) _) :=
    hassembled.leads_handBack hspacing hvalues hop.execute hop.seen hyields hplaced hroom
  rw [hstore, Target.orTrap_some, if_pos hrange] at hleads
  have hconfig : m.config = ⟨m.pc, [], m.memory.byteAt, m.storage⟩ := by
    rw [State.config, hstack]
  obtain ⟨n, o, hends, hshows⟩ := hleads m hconfig
  obtain ⟨data, hending, hdata⟩ := hop.exists_data hshows.ending
  refine ⟨n, o, data, words, hends, hending, hwords, hlength, ?_,
    hshows.stack (hop.ne_trapped _), hshows.storage⟩
  rw [hdata, ← hlength]
  exact Semantics.laidOut_writeSlots hsize words m.memory.byteAt

/-- Two slots of 33 bytes. The second value reads the word right behind its slot. -/
theorem compile_lays_out_gap :
    ∃ after, ({ options := { slotSize := some 33 } } : Session).compile (.succeed
        [.literal .one, .access (.region .memory) (.literal ⟨.decimal, "65", rfl⟩)])
        = (after, .ok ()) ∧
      Assembly.assemble ([] ++ after.instructions ++ []) = .ok [0x60, 0x01, 0x60, 0x00, 0x52,
        0x60, 0x41, 0x51, 0x60, 0x21, 0x52, 0x60, 0x42, 0x60, 0x00, 0xf3] ∧
      ∃ n o data, EndsAfter (.load (.ofList [0x60, 0x01, 0x60, 0x00, 0x52, 0x60, 0x41, 0x51,
          0x60, 0x21, 0x52, 0x60, 0x42, 0x60, 0x00, 0xf3]) .empty) n {} o ∧
        o.ending = .returned data ∧
        Semantics.LaidOut 33 [1, 0] (fun _ => 0) data.contents := by
  have hoptions : CompilerOptions.Valid { slotSize := some 33 } := ⟨by decide, by decide⟩
  have hcompile : ({ options := { slotSize := some 33 } } : Session).compile (.succeed
      [.literal .one, .access (.region .memory) (.literal ⟨.decimal, "65", rfl⟩)])
      = ({ options := { slotSize := some 33 }
           instructions := [.push [1], .push [0], op .mstore, .push [65], op .mload, .push [33],
             op .mstore, .push [66], .push [0], op .ret] }, .ok ()) := by
    simp (disch := decide) only [compile, run, Term.lower, lowerResult, lowerSlots,
      Lowering.ofValue, Emitter.pushLiteral, Emitter.pushSlot, Emitter.push_byte hoptions]
    rfl
  have hlinkable : ∀ i ∈ [] ++ [.push [1], .push [0], op .mstore, .push [65], op .mload,
      .push [33], op .mstore, .push [66], .push [0], op .ret] ++ [], Linkable i := by
    simp only [List.nil_append, List.append_nil, List.forall_mem_cons]
    exact ⟨.push (by decide) (by decide), .push (by decide) (by decide), .op _,
      .push (by decide) (by decide), .op _, .push (by decide) (by decide), .op _,
      .push (by decide) (by decide), .push (by decide) (by decide), .op _, List.forall_mem_nil _⟩
  have hassembled : Assembled ([] ++ [.push [1], .push [0], op .mstore, .push [65], op .mload,
      .push [33], op .mstore, .push [66], .push [0], op .ret] ++ []) (.ofList [0x60, 0x01, 0x60,
      0x00, 0x52, 0x60, 0x41, 0x51, 0x60, 0x21, 0x52, 0x60, 0x42, 0x60, 0x00, 0xf3]) :=
    ⟨fun i hi => (hlinkable i hi).whole, _, rfl, rfl⟩
  have hback : Term.HandsBack (.succeed [.literal .one,
      .access (.region .memory) (.literal ⟨.decimal, "65", rfl⟩)]) [.literal .one,
      .access (.region .memory) (.literal ⟨.decimal, "65", rfl⟩)] .returned :=
    .succeed (List.cons_ne_nil _ _)
  refine ⟨_, hcompile, rfl, ?_⟩
  obtain ⟨n, o, data, words, hends, hending, hwords, -, hlaid, -⟩ :=
    compile_lays_out hback
      (List.forall_mem_cons.mpr ⟨.literal _, List.forall_mem_singleton.mpr (.access _ (.literal _))⟩)
      rfl (by decide) hcompile rfl hassembled .empty (m := {}) rfl rfl (by decide)
      (List.forall_mem_cons.mpr ⟨fun _ h => absurd h Semantics.not_reads_literal,
        List.forall_mem_singleton.mpr fun offset h => by
          cases h with
          | word hi =>
              obtain rfl := Option.some.inj hi
              decide
          | index h => exact absurd h Semantics.not_reads_literal⟩)
      (by decide)
  obtain rfl : [1, 0] = words := Option.some.inj hwords
  exact ⟨n, o, data, hends, hending, hlaid⟩

end Session

end EvmToolchain
