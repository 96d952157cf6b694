import EvmToolchain.Proofs.Code.LaidOut
import Mathlib.Data.Option.Basic

/-!
# EvmToolchain.Proofs.Code.Renaming

Assembling under other labels.

Labels are only compared with each other. So if the labels of a stream are renamed
injectively, it assembles to the same bytes, or fails in the same way
(`Assembly.assemble_rename`).
-/

namespace EvmToolchain

open Instruction

/-- The instruction with its label renamed. -/
def Instruction.rename (ρ : Int → Int) (i : Instruction) : Instruction :=
  { i with label := i.label.map ρ }

namespace Instruction

@[simp] theorem mnemonic_rename (ρ : Int → Int) (i : Instruction) :
    (i.rename ρ).mnemonic = i.mnemonic := rfl

@[simp] theorem label_rename (ρ : Int → Int) (i : Instruction) :
    (i.rename ρ).label = i.label.map ρ := rfl

@[simp] theorem length_rename (ρ : Int → Int) (i : Instruction) :
    (i.rename ρ).length = i.length := rfl

/-- Only label pushes are encoded by their labels. -/
theorem encode_rename (ρ : Int → Int) {i : Instruction} (h : i.mnemonic ≠ .pushLabel) :
    (i.rename ρ).encode = i.encode := by
  obtain ⟨mnemonic, data, label⟩ := i
  cases mnemonic with
  | pushLabel => exact absurd rfl h
  | _ => rfl

end Instruction

/-- The error with the label that it names renamed. -/
def AssemblyError.rename (ρ : Int → Int) : AssemblyError → AssemblyError
  | placedTwice label => placedTwice (label.map ρ)
  | tooFar label offset => tooFar (label.map ρ) offset
  | unplaced label => unplaced (label.map ρ)
  | instruction e => instruction e

/-- Renaming does not change what is wrong. -/
@[simp] theorem AssemblyError.labelFault?_rename (ρ : Int → Int) (e : AssemblyError) :
    (e.rename ρ).labelFault? = e.labelFault? := by
  cases e <;> rfl

namespace Assembly

/-- The placements with all labels renamed. -/
def renameAll (ρ : Int → Int) (placed : Placements) : Placements :=
  placed.map fun (label, offset) => (label.map ρ, offset)

variable {ρ : Int → Int} (hρ : Function.Injective ρ)

include hρ

theorem addressOf?_rename (label : Option Int) (placed : Placements) :
    addressOf? (label.map ρ) (renameAll ρ placed) = addressOf? label placed := by
  induction placed with
  | nil => rfl
  | cons entry placed ih =>
      obtain ⟨label', offset⟩ := entry
      have hiff : label'.map ρ = label.map ρ ↔ label' = label := (Option.map_injective hρ).eq_iff
      show addressOf? _ ((label'.map ρ, offset) :: renameAll ρ placed) = _
      rw [addressOf?_cons, addressOf?_cons, ih]
      simp only [hiff]

theorem placeFrom_rename (placed : Placements) (pc : Nat) (is : List Instruction) :
    placeFrom (renameAll ρ placed) pc (is.map (rename ρ))
      = ((placeFrom placed pc is).map (renameAll ρ)).mapError (AssemblyError.rename ρ) := by
  induction is generalizing placed pc with
  | nil => rfl
  | cons i rest ih =>
      have haddress := addressOf?_rename hρ i.label placed
      rw [List.map_cons, placeFrom, placeFrom]
      simp only [mnemonic_rename, label_rename, length_rename, haddress]
      split
      · split
        · rfl
        · split
          · rfl
          · exact ih ((i.label, pc) :: placed) _
      · exact ih placed _

theorem encode_rename (placed : Placements) (i : Instruction) :
    encode (renameAll ρ placed) (i.rename ρ)
      = (encode placed i).mapError (AssemblyError.rename ρ) := by
  by_cases hpush : i.mnemonic = .pushLabel
  · have haddress := addressOf?_rename hρ i.label placed
    cases h : addressOf? i.label placed with
    | none =>
        rw [encode_eq_unplaced hpush h,
          encode_eq_unplaced (i := i.rename ρ) hpush (haddress.trans h)]
        rfl
    | some address =>
        rw [encode_pushLabel hpush h, encode_pushLabel (i := i.rename ρ) hpush (haddress.trans h)]
        rfl
  · have hpush' : (i.rename ρ).mnemonic ≠ .pushLabel := hpush
    rw [encode_of_ne hpush, encode_of_ne hpush', Instruction.encode_rename ρ hpush]
    cases i.encode <;> rfl

theorem encodeAll_rename (placed : Placements) (is : List Instruction) :
    encodeAll (renameAll ρ placed) (is.map (rename ρ))
      = (encodeAll placed is).mapError (AssemblyError.rename ρ) := by
  induction is with
  | nil => rfl
  | cons i rest ih =>
      rw [List.map_cons, encodeAll, encodeAll, encode_rename hρ, ih]
      cases encode placed i with
      | error e => rfl
      | ok bytes => cases encodeAll placed rest <;> rfl

/-- A stream under other labels assembles to the same bytes, or fails with the same
error of the label that is then in its place. -/
theorem assemble_rename (is : List Instruction) :
    assemble (is.map (rename ρ)) = (assemble is).mapError (AssemblyError.rename ρ) := by
  have hplaced : placements (is.map (rename ρ))
      = ((placements is).map (renameAll ρ)).mapError (AssemblyError.rename ρ) :=
    placeFrom_rename hρ [] 0 is
  rw [assemble, assemble, hplaced]
  cases placements is with
  | error e => rfl
  | ok placed => exact encodeAll_rename hρ placed is

end Assembly

end EvmToolchain
