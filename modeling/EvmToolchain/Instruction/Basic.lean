import EvmToolchain.Bytes
import EvmToolchain.Instruction.Spelling

/-!
# EvmToolchain.Instruction.Basic

Instructions, shared by everything that reads or writes code.

Besides the opcodes there are pushes with an immediate and three pseudo
instructions: a push of the address of a label, a jump destination that
carries its label, and opaque data. Decoded jump destinations are labelled
with their own byte offset.

An instruction may also be built from any name, data and label; a name that
is none of the standard ones is kept as it is spelled (`Mnemonic.spelled`) and
looked up when its table row is needed.
-/

namespace EvmToolchain

/-- The kind of an instruction. -/
inductive Mnemonic
  /-- Push the immediate held as data. -/
  | push
  /-- Push zero. -/
  | push0
  /-- Push the address of the label. -/
  | pushLabel
  /-- A jump destination. -/
  | jumpdest
  /-- Opaque bytes. -/
  | data
  | op (o : Opcode)
  /-- Any other text in place of a mnemonic. -/
  | spelled (text : String)
  deriving Repr, DecidableEq

namespace Mnemonic

/-- The text of a mnemonic. -/
def name : Mnemonic → String
  | push => "PUSH"
  | push0 => "PUSH0"
  | pushLabel => "PUSHL"
  | jumpdest => "JUMPDEST"
  | data => "DATA"
  | op o => o.name
  | spelled text => text

/-- The mnemonic with the given text. -/
def ofName (s : String) : Mnemonic :=
  if s = "PUSH" then push
  else if s = "PUSH0" then push0
  else if s = "PUSHL" then pushLabel
  else if s = "JUMPDEST" then jumpdest
  else if s = "DATA" then data
  else
    match Opcode.ofName? s with
    | some o => op o
    | none => spelled s

theorem name_ofName (s : String) : (ofName s).name = s := by
  unfold ofName
  split
  · next h => exact h.symm
  split
  · next h => exact h.symm
  split
  · next h => exact h.symm
  split
  · next h => exact h.symm
  split
  · next h => exact h.symm
  split
  · next h => exact Opcode.name_of_ofName? h
  · rfl

end Mnemonic

/-- Why an instruction cannot be built, looked up or encoded. -/
inductive InstructionError
  /-- The mnemonic stands for no table instruction. -/
  | unknownMnemonic (text : String)
  /-- The immediate has no bytes, or more than a word. -/
  | immediateLength (length : Nat)
  | dupDepth (depth : Int)
  | swapDepth (depth : Int)
  /-- A label push has no encoding before its label is resolved. -/
  | unresolvedLabel (label : Option Int)
  /-- The opcode byte of so long an immediate would exceed a byte. -/
  | opcodeOverflow (length : Nat)
  deriving Repr, DecidableEq

/-- How many stack items an instruction consumes and produces. -/
structure StackEffect where
  pops : Nat
  pushes : Nat
  deriving Repr, DecidableEq

/-- A single instruction or pseudo instruction. -/
structure Instruction where
  mnemonic : Mnemonic
  data : List UInt8 := []
  label : Option Int := none
  deriving Repr, DecidableEq

namespace Instruction

/-- The most bytes an immediate can have: a word. -/
def maxImmediate : Nat := 32

/-- The number of bytes of an assembled label address. -/
def labelWidth : Nat := 2

/-! ### Building instructions -/

/-- Push an immediate. -/
def push (immediate : List UInt8) : Instruction := { mnemonic := .push, data := immediate }

/-- Push zero. -/
def push0 : Instruction := { mnemonic := .push0 }

/-- Push the address of a label. -/
def pushLabel (label : Int) : Instruction := { mnemonic := .pushLabel, label := some label }

/-- A jump destination. -/
def jumpdest (label : Int) : Instruction := { mnemonic := .jumpdest, label := some label }

/-- Opaque bytes in the code. -/
def raw (bytes : List UInt8) : Instruction := { mnemonic := .data, data := bytes }

/-- An opcode without immediate. -/
def op (o : Opcode) : Instruction := { mnemonic := .op o }

/-- Copy the top of the stack. -/
def dupTop : Instruction := op (.dup (Fin.ofNat 16 0))

/-- Push an immediate of one to 32 bytes. -/
def tryPush (immediate : List UInt8) : Except InstructionError Instruction :=
  if 1 ≤ immediate.length ∧ immediate.length ≤ maxImmediate then .ok (push immediate)
  else .error (.immediateLength immediate.length)

/-- Copy the item at a depth of 1 to 16. -/
def tryDup (depth : Int) : Except InstructionError Instruction :=
  if 1 ≤ depth ∧ depth ≤ 16 then .ok (op (.dup (Fin.ofNat 16 (depth.toNat - 1))))
  else .error (.dupDepth depth)

/-- Exchange the top with the item at a depth of 1 to 16 below it. -/
def trySwap (depth : Int) : Except InstructionError Instruction :=
  if 1 ≤ depth ∧ depth ≤ 16 then .ok (op (.swap (Fin.ofNat 16 (depth.toNat - 1))))
  else .error (.swapDepth depth)

/-! ### Properties -/

/-- The encoded size in bytes. -/
def length (i : Instruction) : Nat :=
  match i.mnemonic with
  | .push => 1 + i.data.length
  | .data => i.data.length
  | .pushLabel => 1 + labelWidth
  | _ => 1

/-- The number that a push pushes. -/
def value? (i : Instruction) : Option Nat :=
  match i.mnemonic with
  | .push => some (BigEndian.toNat i.data)
  | .push0 => some 0
  | _ => none

/-- Whether the instruction can jump. -/
def canBranch (i : Instruction) : Bool :=
  match i.mnemonic with
  | .op .jump | .op .jumpi => true
  | _ => false

/-- Whether control never reaches the next instruction. A conditional jump is
no terminator: it falls through when its condition is zero. -/
def isTerminator (i : Instruction) : Bool :=
  match i.mnemonic with
  | .op .jump | .op .ret | .op .revert | .op .stop | .op .invalid => true
  | _ => false

/-- The number of stack items consumed and produced. -/
def stackEffect (i : Instruction) : Except InstructionError StackEffect :=
  match i.mnemonic with
  | .push | .push0 | .pushLabel => .ok ⟨0, 1⟩
  | .jumpdest | .data => .ok ⟨0, 0⟩
  | .op o => .ok ⟨o.pops, o.pushes⟩
  | .spelled text =>
    match Spelling.row? text with
    | some row => .ok ⟨row.pops, row.pushes⟩
    | none => .error (.unknownMnemonic text)

end Instruction

/-- The text of a label; a jump destination may have none. -/
def labelText : Option Int → String
  | some label => toString label
  | none => "None"

instance : ToString Instruction where
  toString i :=
    match i.mnemonic with
    | .push => "PUSH" ++ toString i.data.length ++ " 0x" ++ Hex.ofBytes i.data
    | .data => "DATA 0x" ++ Hex.ofBytes i.data
    | .pushLabel => "PUSHL(" ++ labelText i.label ++ ")"
    | .jumpdest => "JUMPDEST(" ++ labelText i.label ++ ")"
    | m => m.name

namespace InstructionError

/-- The wording of an error. -/
def message : InstructionError → String
  | unknownMnemonic text => "Unknown EVM instruction: " ++ text
  | immediateLength length => "PUSH immediate must be 1-32 bytes, got " ++ toString length
  | dupDepth depth => "DUP depth must be 1-16, got " ++ toString depth
  | swapDepth depth => "SWAP depth must be 1-16, got " ++ toString depth
  | unresolvedLabel label =>
    "Cannot encode unresolved label push PUSHL(" ++ labelText label ++ ")"
  | opcodeOverflow length => "PUSH of " ++ toString length ++ " bytes has no opcode"

end InstructionError

end EvmToolchain
