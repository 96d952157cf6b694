import EvmToolchain.Proofs.Analysis.Resolved
import EvmToolchain.Proofs.Compiler.Emits

/-!
# EvmToolchain.Proofs.Compiler.Resolved

The analysis resolves all jumps of compiled code.

Lowered code is fed (`Term.emitsFed_lower`), and assembly turns the push of a
label into the push of the address of its jump destination, so every jump of
the assembled code is fed as well (`Assembled.feedsJumps`).
-/

namespace EvmToolchain

open Instruction Assembly StackState

namespace Assembled

variable {is : List Instruction} {code : Bytes}

/-- Jumps are read where jumps are placed, and nowhere else. -/
theorem canBranch_decodeAt (h : Assembled is code) {pc : Nat} {i : Instruction}
    (hi : PlacedAt is pc [i]) (hassemblable : i.Assemblable) :
    (decodeAt code pc).canBranch = i.canBranch := by
  obtain ⟨placed, -, hplaced, -⟩ := h.exists_placements
  rw [h.decodeAt_placed hplaced hassemblable.linkable hi]
  rcases hassemblable with hreadable | ⟨label, rfl⟩
  · cases hreadable <;> rfl
  · rfl

/-- Right behind the push of a label a jump is fed the place of the label. -/
theorem fedJump (h : Assembled is code) {push : Nat} {label : Int}
    (hpush : PlacedAt is push [.pushLabel label]) :
    ∃ data, FedJump code (push + 3) push data ∧
      LabelAt is (some label) (BigEndian.toNat data) := by
  obtain ⟨address, hlabel, hlimit, hdecode⟩ := h.decodeAt_pushLabel hpush
  have hvalue : BigEndian.toNat (BigEndian.ofNat labelWidth address) = address := by
    rw [BigEndian.toNat_ofNat]
    exact Nat.mod_eq_of_lt hlimit
  have hdest := h.decodeAt_labelAt hlabel
  obtain ⟨j, -, -, hj⟩ := id hlabel
  refine ⟨BigEndian.ofNat labelWidth address, ⟨h.walk hpush, hdecode,
    BigEndian.length_ofNat _ _, rfl, ?_, ?_, ?_⟩, hvalue.symm ▸ hlabel⟩
  · rw [hvalue]
    exact h.walk hj
  · rw [hvalue]
    exact h.lt_size hj
  · rw [hvalue, IsJumpdestAt, hdest]
    rfl

/-- In assembled code that was fed every jump comes right after the push of its
target. -/
theorem feedsJumps (h : Assembled is code) (hfed : Fed is) : FeedsJumps code := by
  intro pc hwalk hlt hbranch
  obtain ⟨i, hi⟩ := h.exists_placedAt hwalk hlt
  rw [h.canBranch_decodeAt hi (hfed.assemblable i hi.mem)] at hbranch
  obtain ⟨pre, post, heq, rfl⟩ := hi
  obtain ⟨front, label, rfl⟩ := hfed.exists_pushLabel
    (heq.trans (List.append_assoc pre [i] post)) hbranch
  have hpush : PlacedAt is (codeSize front) [.pushLabel label] :=
    ⟨front, [i] ++ post, by rw [heq]; simp, rfl⟩
  obtain ⟨data, hjump, -⟩ := h.fedJump hpush
  rw [codeSize_append]
  exact ⟨_, data, hjump⟩

end Assembled

namespace Session

/-- What compiled terms are assembled to. -/
theorem assembled_of_compileAll {options : CompilerOptions} {terms : List Term} {s : Session}
    {bytes : List UInt8} (hcompile : ({ options } : Session).compileAll terms = (s, .ok ()))
    (hassemble : s.assemble = .ok bytes) :
    Assembled s.instructions (.ofList bytes) ∧ Fed s.instructions := by
  obtain ⟨code, hcode, hinstructions⟩ := compileAll_ok hcompile
  rw [List.nil_append] at hinstructions
  have hfed : Fed s.instructions := by
    have := emitsFed_lowerAll options terms {}
    rw [hcode] at this
    rwa [hinstructions]
  have hwhole := fun i hi => (hfed.assemblable i hi).linkable.whole
  exact ⟨⟨hwhole, bytes, hassemble, rfl⟩, hfed⟩

/-- Compiled code is fully resolved by the analysis: for all terms that compile
to code that assembles, the analysis of the code knows the target of every jump,
and reaches just the blocks with a path in the control flow graph. -/
theorem compileAll_resolves {options : CompilerOptions} {terms : List Term} {s : Session}
    {bytes : List UInt8} (hcompile : ({ options } : Session).compileAll terms = (s, .ok ()))
    (hassemble : s.assemble = .ok bytes) {analysis : AnalysisOptions}
    (hlimit : analysis.maxPasses = none) :
    ∃ d, (Disassembly.ofCode (.ofList bytes) analysis : Disassembly Unit).refine
        (Lift.lift : Unit → StackState) = .ok d ∧
      (∃ passes, d.build.passes = .ok passes) ∧
      d.build.disassembly.Resolves (.ofList bytes) := by
  obtain ⟨hassembled, hfed⟩ := assembled_of_compileAll hcompile hassemble
  exact Disassembly.resolves_of_feedsJumps (hassembled.feedsJumps hfed) hlimit

/-- A jump over nothing, compiled and analysed. -/
theorem compileAll_resolves_goto :
    ∃ s, ({} : Session).compileAll [.goto "end", .label "end"] = (s, .ok ()) ∧
      s.assemble = .ok [0x61, 0x00, 0x04, 0x56, 0x5b] ∧
      ∃ d, (Disassembly.ofCode (.ofList [0x61, 0x00, 0x04, 0x56, 0x5b]) {}
          : Disassembly Unit).refine (Lift.lift : Unit → StackState) = .ok d ∧
        (∃ passes, d.build.passes = .ok passes) ∧
        d.build.disassembly.Resolves (.ofList [0x61, 0x00, 0x04, 0x56, 0x5b]) := by
  have hcompile : ({} : Session).compileAll [.goto "end", .label "end"]
      = ({ labels := { next := 1, names := [("end", 0)] }
           instructions := [.pushLabel 0, .op .jump, .jumpdest 0] }, .ok ()) := by
    simp [compileAll, compile, run, Term.lower, Lowering.ofValue, Emitter.withNamed, Labels.named,
      Labels.find?]
  have hassemble : Assembly.assemble [.pushLabel 0, .op .jump, .jumpdest 0]
      = .ok [0x61, 0x00, 0x04, 0x56, 0x5b] := by decide
  exact ⟨_, hcompile, hassemble, compileAll_resolves hcompile hassemble rfl⟩

end Session

end EvmToolchain
