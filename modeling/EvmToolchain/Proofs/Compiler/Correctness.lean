import EvmToolchain.Proofs.Compiler.Resolved
import EvmToolchain.Proofs.Compiler.Statement

/-!
# EvmToolchain.Proofs.Compiler.Correctness

Compiled programs do what their statements say.

A step of the program is at least one step of the machine on the compiled code
(`Compilation.leads_step`), so the machine follows any run of the program
(`Compilation.exists_steps`). A run that ends makes the machine end with the same
outcome, and a run that does not end uses up every step limit.
-/

namespace EvmToolchain

open Instruction Assembly Machine

namespace Compilation

variable {x : Compilation} {s t : Semantics.State} {m : Machine.State}

/-- A step of the program leads the machine to where the program gets to. -/
theorem leads_step (s : Semantics.State) :
    Leads x.machine (x.config s) (x.target (x.program.step s)) := by
  rw [Semantics.Program.step]
  cases hs : x.program.statements[s.index]? with
  | some t => exact leads_execute hs
  | none =>
      -- behind the last statement the machine is behind the code, where it stops
      have hle : x.statements.length ≤ s.index := List.getElem?_eq_none_iff.mp hs
      exact x.assembled.leads_past_end (Nat.le_of_eq (offset_of_le hle).symm)

/-- The machine follows a run of the program, by one step for each at least. -/
theorem exists_steps {n : Nat} (h : x.program.Steps n s t) (hm : m.config = x.config s) :
    ∃ k m', n ≤ k ∧ Machine.Steps x.machine k m m' ∧ m'.config = x.config t := by
  induction h generalizing m with
  | refl s => exact ⟨0, m, Nat.le_refl 0, .refl m, hm⟩
  | @head n s u t hstep _ ih =>
      have hleads := leads_step (x := x) s
      rw [hstep] at hleads
      -- one step of the program is one step of the machine at least
      obtain ⟨j, m₁, hsteps, hm₁⟩ := hleads m hm
      obtain ⟨k, m₂, hle, hsteps', hm₂⟩ := ih hm₁
      exact ⟨j + 1 + k, m₂, by omega, hsteps.trans hsteps', hm₂⟩

/-- If the program halts, so does the machine, with the same outcome. -/
theorem exists_endsAfter {o : Semantics.Outcome} (h : x.program.Halts s o)
    (hm : m.config = x.config s) : ∃ n o', EndsAfter x.machine n m o' ∧ o'.Shows o := by
  obtain ⟨n, t, hrun, hhalt⟩ := h
  obtain ⟨k, m', -, hsteps, hm'⟩ := exists_steps hrun hm
  have hleads := leads_step (x := x) t
  rw [hhalt] at hleads
  obtain ⟨j, o', hends, hshows⟩ := hleads m' hm'
  exact ⟨_, o', hsteps.exists_endsAfter hends, hshows⟩

/-- If the program goes on forever, so does the machine: it uses up any budget. -/
theorem runFrom_of_diverges (h : x.program.Diverges s) (hm : m.config = x.config s)
    (limit : Int) (k : Nat) : runFrom x.machine limit k m = .error (.stepLimit limit) := by
  obtain ⟨t, hrun⟩ := h (k + 1)
  obtain ⟨j, m', hle, hsteps, -⟩ := exists_steps hrun hm
  obtain ⟨j, rfl⟩ : ∃ i, j = i + 1 := ⟨j - 1, by omega⟩
  -- before its last step the machine is still within the code
  obtain ⟨m'', hsteps', hpc, -⟩ := hsteps.exists_last
  exact hsteps'.runFrom_stepLimit hpc limit (by omega)

/-- The machine starts where the program does. -/
theorem config_initial (storage : Storage) :
    (initial storage).config = x.config { storage } := by
  have hmemory : Bytes.byteAt ByteArray.empty = fun _ => 0 :=
    funext fun i => Bytes.byteAt_of_size_le (Nat.zero_le i)
  show Config.mk 0 [] (Bytes.byteAt ByteArray.empty) storage = _
  rw [hmemory]
  rfl

end Compilation

namespace Session

/-- Compiled programs do what their statements say. For all statements that
compile to code that assembles, if the code of none of them needs more than the
stack can hold: when the program halts, the machine ends with the outcome of the
program after a fixed number of steps, unless its limit is smaller; and when the
program goes on forever, the machine uses up any limit. -/
theorem compileAll_correct {options : CompilerOptions} {statements : List Term} {s : Session}
    {bytes : List UInt8} (hstatements : ∀ t ∈ statements, t.IsStatement)
    (hcompile : ({ options } : Session).compileAll statements = (s, .ok ()))
    (hassemble : s.assemble = .ok bytes)
    (hfits : ∀ code ∈ statementCodes options {} statements, peak 0 code ≤ maxStack)
    (calldata : Bytes) (storage : Storage) :
    (∀ o, (options.program statements calldata).Halts { storage } o →
      ∃ n o', o'.Shows o ∧ ∀ limit : Int,
        Machine.run (.load (.ofList bytes) calldata) storage limit
          = if n ≤ limit.toNat then .ok o' else .error (.stepLimit limit)) ∧
    ((options.program statements calldata).Diverges { storage } →
      ∀ limit : Int, Machine.run (.load (.ofList bytes) calldata) storage limit
        = .error (.stepLimit limit)) := by
  obtain ⟨code, hcode, hinstructions⟩ := compileAll_ok hcompile
  obtain ⟨hassembled, -⟩ := assembled_of_compileAll hcompile hassemble
  rw [List.nil_append] at hinstructions
  let x : Compilation := {
    options, statements, calldata
    stream := s.instructions
    labels := s.labels
    code := .ofList bytes
    isStatement := hstatements
    yields := by rw [hinstructions]; exact hcode
    assembled := hassembled
    fits := hfits }
  have hinitial : (initial storage).config = x.config { storage } :=
    Compilation.config_initial storage
  constructor
  · intro o hhalts
    obtain ⟨n, o', hends, hshows⟩ := Compilation.exists_endsAfter (x := x) hhalts hinitial
    exact ⟨n, o', hshows, fun limit => hends limit limit.toNat⟩
  · intro hdiverges limit
    exact Compilation.runFrom_of_diverges (x := x) hdiverges hinitial limit limit.toNat

/-- A jump over a failure, compiled and run. -/
theorem compileAll_correct_goto :
    ∃ s, ({} : Session).compileAll [.goto "end", .fail, .label "end"] = (s, .ok ()) ∧
      s.assemble = .ok [0x61, 0x00, 0x05, 0x56, 0xfe, 0x5b] ∧
      ∃ n o', o'.Shows ⟨.stopped, ∅⟩ ∧ ∀ limit : Int,
        Machine.run (.load (.ofList [0x61, 0x00, 0x05, 0x56, 0xfe, 0x5b]) .empty) ∅ limit
          = if n ≤ limit.toNat then .ok o' else .error (.stepLimit limit) := by
  have hstatements : ∀ t ∈ [.goto "end", .fail, .label "end"], Term.IsStatement t := by
    simp [Term.IsStatement.goto, Term.IsStatement.fail, Term.IsStatement.label]
  have hcompile : ({} : Session).compileAll [.goto "end", .fail, .label "end"]
      = ({ labels := { next := 1, names := [("end", 0)] }
           instructions := [.pushLabel 0, .op .jump, .op .invalid, .jumpdest 0] }, .ok ()) := by
    simp [compileAll, compile, run, Term.lower, Lowering.ofValue, Emitter.withNamed, Labels.named,
      Labels.find?]
  have hassemble : Assembly.assemble [.pushLabel 0, .op .jump, .op .invalid, .jumpdest 0]
      = .ok [0x61, 0x00, 0x05, 0x56, 0xfe, 0x5b] := by decide
  have hcodes : statementCodes {} {} [.goto "end", .fail, .label "end"]
      = [[.pushLabel 0, .op .jump], [.op .invalid], [.jumpdest 0]] := by
    simp [statementCodes, Term.lower, Lowering.ofValue, Emitter.withNamed, Labels.named,
      Labels.find?]
  have hfits : ∀ code ∈ statementCodes {} {} [.goto "end", .fail, .label "end"],
      peak 0 code ≤ maxStack := by
    rw [hcodes]
    decide
  have hcorrect := compileAll_correct hstatements hcompile hassemble hfits .empty ∅
  have hhalts : (CompilerOptions.program {} [.goto "end", .fail, .label "end"] .empty).Halts
      { storage := ∅ } ⟨.stopped, ∅⟩ :=
    ⟨2, { index := 3, storage := ∅ }, .head rfl (.head rfl (.refl _)), rfl⟩
  exact ⟨_, hcompile, hassemble, hcorrect.1 _ hhalts⟩

end Session

end EvmToolchain
