import EvmToolchain.Analysis.Slot
import EvmToolchain.Instruction.Basic
import EvmToolchain.Limits

/-!
# EvmToolchain.Analysis.Domain

Abstract domains: what an analysis may know at a point of the code.

A domain has a state for a point that no execution reaches (`bottom`) and one
for the start of execution (`origin`). It tells the effect of an instruction
on a state, what a state becomes along a taken jump, and how two states that
reach the same point are merged. The analysis engine works over any domain.
A domain may also hold states that cannot all be merged with one another.

The domain `Unit` knows nothing and takes every point for reachable. It serves
to find blocks without analysing them.
-/

namespace EvmToolchain

/-- Why the effect of an instruction on a state is undefined. Decoded
instructions never run into one of these. -/
inductive TransferError
  | instruction (e : InstructionError)
  /-- The text after `DUP` or `SWAP` is no number. -/
  | depthNumeral (text : String)
  /-- A negative depth reaches past the bottom slot. -/
  | missingSlot (depth : Int)
  deriving Repr, DecidableEq

/-- The wording of an error. -/
def TransferError.message : TransferError → String
  | .instruction e => e.message
  | .depthNumeral text => "Malformed stack depth in " ++ text
  | .missingSlot depth => "No stack slot at depth " ++ toString depth

/-- An abstract domain with states `σ`. -/
class Domain (σ : Type) where
  /-- The name of the domain in messages. -/
  title : String
  /-- The state of a point that nothing reaches. -/
  bottom : σ
  /-- The state at the start of execution. -/
  origin : σ
  /-- Whether an execution may reach a point with this state. -/
  isReachable : σ → Bool
  /-- The state after an instruction. -/
  transfer : Instruction → σ → Except TransferError σ
  /-- The state at the target when a jump instruction is taken. -/
  branch : Instruction → σ → Except TransferError σ
  /-- Whether a state can be merged with another one. -/
  accepts : σ → σ → Bool := fun _ _ => true
  /-- The merge of a state with another that reaches the same point, and
  whether that changed the state. -/
  merge : σ → σ → σ × Bool
  /-- The slot at a position counted from the top. A negative position counts
  from the bottom slot upwards, and may miss the stack. -/
  peek? : σ → Int → Option Slot
  /-- The number of slots that the state keeps track of. -/
  height : σ → Nat
  text : σ → String

namespace Domain

/-- The merge of two states, if they can be merged. -/
def merge? {σ : Type} [Domain σ] (s t : σ) : Option (σ × Bool) :=
  if accepts s t then some (merge s t) else none

/-- The slot at the top of the stack. -/
def top {σ : Type} [Domain σ] (s : σ) : Slot := (peek? s 0).getD .unknown

end Domain

/-- Conversion of states of one domain to another. -/
class Lift (σ τ : Type) where
  lift : σ → τ

instance : Domain Unit where
  title := "UnitState"
  bottom := ()
  origin := ()
  isReachable _ := true
  transfer _ s := .ok s
  branch _ s := .ok s
  merge s _ := (s, false)
  peek? _ _ := some .unknown
  height _ := 0
  text _ := "()"

instance {σ : Type} : Lift σ Unit where
  lift _ := ()

end EvmToolchain
