import EvmToolchain.Instruction.Encoding
import EvmToolchain.Log

/-!
# EvmToolchain.Assembly

Assembly: the bytes of a stream of instructions in which labels stand for
addresses.

Every label push becomes a push of a two-byte address, whatever the address
is. So the offset of an instruction depends on the lengths of those before it
only, and the addresses of all labels are known (`placements`) before
anything is encoded.
-/

namespace EvmToolchain

/-- Why a stream of instructions cannot be assembled. -/
inductive AssemblyError
  | placedTwice (label : Option Int)
  /-- The address of the label does not fit a label push. -/
  | tooFar (label : Option Int) (offset : Nat)
  /-- The label is pushed and never placed. -/
  | unplaced (label : Option Int)
  | instruction (e : InstructionError)
  deriving Repr, DecidableEq

/-- The wording of an error. -/
def AssemblyError.message : AssemblyError → String
  | placedTwice label => "Label " ++ labelText label ++ " is placed more than once"
  | tooFar label offset =>
    "Label " ++ labelText label ++ " at offset " ++ toString offset ++ " does not fit in "
      ++ toString Instruction.labelWidth ++ " bytes"
  | unplaced label => "Label " ++ labelText label ++ " is used but never placed"
  | instruction e => e.message

/-- The offsets of placed labels. -/
abbrev Placements := List (Option Int × Nat)

namespace Assembly

/-- The total length of some instructions. -/
def codeSize : List Instruction → Nat
  | [] => 0
  | i :: rest => i.length + codeSize rest

@[simp] theorem codeSize_nil : codeSize [] = 0 := rfl

@[simp] theorem codeSize_cons (i : Instruction) (is : List Instruction) :
    codeSize (i :: is) = i.length + codeSize is := rfl

theorem codeSize_append (is js : List Instruction) :
    codeSize (is ++ js) = codeSize is + codeSize js := by
  induction is with
  | nil => exact (Nat.zero_add _).symm
  | cons i is ih => rw [List.cons_append, codeSize_cons, codeSize_cons, ih, Nat.add_assoc]

/-- The first offset that does not fit a label push. -/
def addressLimit : Nat := BigEndian.capacity Instruction.labelWidth

/-- The offset of a label. -/
def addressOf? (label : Option Int) (placed : Placements) : Option Nat :=
  (placed.find? (·.1 == label)).map (·.2)

/-- Places the jump destinations of a stream that starts at offset `pc`, in
addition to those that are placed already. -/
def placeFrom (placed : Placements) (pc : Nat) :
    List Instruction → Except AssemblyError Placements
  | [] => .ok placed
  | i :: rest =>
    if i.mnemonic = .jumpdest then
      if (addressOf? i.label placed).isSome then .error (.placedTwice i.label)
      else if addressLimit ≤ pc then .error (.tooFar i.label pc)
      else placeFrom ((i.label, pc) :: placed) (pc + i.length) rest
    else placeFrom placed (pc + i.length) rest

/-- The offset of every label that a stream places. -/
def placements (is : List Instruction) : Except AssemblyError Placements := placeFrom [] 0 is

/-- The bytes of an instruction, given the offsets of all labels. -/
def encode (placed : Placements) (i : Instruction) : Except AssemblyError (List UInt8) :=
  let concrete : Except AssemblyError Instruction :=
    if i.mnemonic = .pushLabel then
      match addressOf? i.label placed with
      | some address => .ok (.push (BigEndian.ofNat Instruction.labelWidth address))
      | none => .error (.unplaced i.label)
    else .ok i
  match concrete with
  | .error e => .error e
  | .ok i => i.encode.mapError .instruction

/-- The bytes of a stream, given the offsets of all labels. -/
def encodeAll (placed : Placements) : List Instruction → Except AssemblyError (List UInt8)
  | [] => .ok []
  | i :: rest =>
    match encode placed i with
    | .error e => .error e
    | .ok bytes =>
      match encodeAll placed rest with
      | .error e => .error e
      | .ok more => .ok (bytes ++ more)

/-- The bytes of a stream of instructions. -/
def assemble (is : List Instruction) : Except AssemblyError (List UInt8) :=
  match placements is with
  | .error e => .error e
  | .ok placed => encodeAll placed is

/-- What there is to report of an assembled stream. -/
def entry (is : List Instruction) (code : List UInt8) : LogEntry :=
  ⟨.debug, "Assembled " ++ toString is.length ++ " instructions into "
    ++ toString code.length ++ " bytes"⟩

end Assembly

end EvmToolchain
