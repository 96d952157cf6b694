import EvmToolchain.Text.Hex

/-!
# EvmToolchain.Analysis.Slot

What an analysis knows of one stack slot: the value, or nothing.
-/

namespace EvmToolchain

/-- A statically known value, or an unknown one. -/
inductive Slot
  | unknown
  | known (value : Int)
  deriving Repr, DecidableEq

namespace Slot

/-- Whether the value is known. -/
def isKnown : Slot → Bool
  | unknown => false
  | known _ => true

/-- The value, if it is known. -/
def value? : Slot → Option Int
  | unknown => none
  | known v => some v

/-- What remains of two slots that may both occur: the value on which they
agree. -/
def join (a b : Slot) : Slot :=
  if a = b then a else unknown

/-- Why the value of an unknown slot cannot be taken. -/
def unknownMessage : String := "Abstract value is not statically known"

instance : ToString Slot where
  toString
    | unknown => "??"
    | known v => Hex.ofInt v

@[simp] theorem join_self (a : Slot) : a.join a = a := by simp [join]

@[simp] theorem join_unknown (a : Slot) : a.join unknown = unknown := by
  cases a <;> simp [join]

@[simp] theorem unknown_join (a : Slot) : unknown.join a = unknown := by
  cases a <;> simp [join]

theorem join_comm (a b : Slot) : a.join b = b.join a := by
  by_cases h : a = b
  · rw [h]
  · rw [join, if_neg h, join, if_neg (Ne.symm h)]

theorem join_assoc (a b c : Slot) : (a.join b).join c = a.join (b.join c) := by
  cases a <;> cases b <;> cases c <;> grind [join]

end Slot

end EvmToolchain
