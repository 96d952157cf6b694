import EvmToolchain.Instruction.Decoding
import EvmToolchain.Machine.Memory
import EvmToolchain.Machine.Word
import Std.Data.HashSet
import Std.Data.TreeMap

/-!
# EvmToolchain.Machine.State

Programs, machine states, and the ways in which execution can end.
-/

namespace EvmToolchain

/-- Words by key. The keys and values that a program finds may be any
integers; those that it stores are words. -/
abbrev Storage := Std.TreeMap Int Int

namespace Machine

/-- What a run executes, none of which it changes. -/
structure Program where
  code : Bytes
  calldata : Bytes
  /-- The offsets to which jumps may go. -/
  jumpdests : Std.HashSet Nat

namespace Program

/-- The offsets of the jump destinations among the instructions of the code. -/
def jumpdestOffsets (code : Bytes) : List Nat :=
  ((listing code).filter fun l => l.instruction.mnemonic == .jumpdest).map (·.offset)

/-- Code with its call data. -/
def load (code calldata : Bytes) : Program where
  code
  calldata
  jumpdests := Std.HashSet.ofList (jumpdestOffsets code)

/-- Whether a jump may go to an offset. -/
def isJumpdest (p : Program) (dest : Nat) : Bool := p.jumpdests.contains dest

theorem isJumpdest_load {code calldata : Bytes} {dest : Nat} :
    (load code calldata).isJumpdest dest = true ↔ dest ∈ jumpdestOffsets code := by
  simp [load, isJumpdest]

end Program

/-- The state of a run. -/
structure State where
  pc : Nat := 0
  /-- The operand stack, from the top down. -/
  stack : List Nat := []
  memory : Memory := ByteArray.empty
  storage : Storage := ∅
  /-- The number of instructions executed. -/
  steps : Nat := 0

/-- Why execution halts exceptionally. -/
inductive Fault
  | invalidInstruction
  | stackUnderflow
  | stackOverflow
  | memoryBound
  | invalidJump (dest : Nat)
  | unsupported (name : String)
  deriving Repr, DecidableEq

/-- The wording of a fault. -/
def Fault.message : Fault → String
  | invalidInstruction => "INVALID instruction"
  | stackUnderflow => "stack underflow"
  | stackOverflow => "stack overflow"
  | memoryBound => "memory access beyond " ++ Hex.ofNat maxMemory
  | invalidJump dest => "invalid jump destination " ++ Hex.ofNat dest
  | unsupported name => "unsupported instruction " ++ name

/-- How execution ends. -/
inductive Ending
  | stopped
  | returned (data : Bytes)
  | reverted (data : Bytes)
  | faulted (f : Fault)

/-- The bytes that an execution hands back. -/
def Ending.data : Ending → Bytes
  | returned data | reverted data => data
  | stopped | faulted _ => ByteArray.empty

/-- Why a run has no ending. Only the first can happen. -/
inductive RunError
  | stepLimit (limit : Int)
  | undecodable (e : DecodeError)
  /-- A value does not fit the bytes of a word. -/
  | wordTooWide (value : Nat)
  deriving Repr, DecidableEq

/-- The wording of an error. -/
def RunError.message : RunError → String
  | stepLimit limit => "Execution exceeded " ++ toString limit ++ " steps"
  | undecodable e => e.message
  | wordTooWide value => "No word: " ++ Hex.ofNat value

/-- A run that has ended. -/
structure Outcome where
  ending : Ending
  /-- The state in which it ended. -/
  state : State

end Machine

end EvmToolchain
