import EvmToolchain.Numeric.BigEndian
import EvmToolchain.Opcode
import EvmToolchain.Text.Numeral

/-!
# EvmToolchain.Instruction.Spelling

Free spellings of table instructions: white space around the text is ignored,
letters of either case name an opcode, and a push is followed by its operand,
as in `push1 0x2a`.
-/

namespace EvmToolchain.Spelling

/-- The pieces of a text between single spaces. -/
def splitSpaces : List Char → List (List Char)
  | [] => [[]]
  | ' ' :: rest => [] :: splitSpaces rest
  | c :: rest =>
    match splitSpaces rest with
    | [] => [[c]]
    | piece :: pieces => (c :: piece) :: pieces

/-- The width `n` of the mnemonic `PUSHn`, for one to 32 bytes. -/
def pushWidth? (name : String) : Option Nat :=
  (List.range' 1 32).find? fun n => "PUSH" ++ toString n == name

/-- Whether the operands are one number that fits `width` bytes. -/
def isOperand (width : Nat) : List (List Char) → Bool
  | [operand] =>
    match Numeral.literal? operand with
    | some v => 0 ≤ v && v < BigEndian.capacity width
    | none => false
  | _ => false

/-- The table row that a spelling stands for. What follows the name of an
instruction other than a push is ignored. -/
def row? (text : String) : Option Opcode.Row :=
  match splitSpaces (CharClass.trim CharClass.isBlank text.toList) with
  | [] => none
  | first :: operands =>
    let name := String.ofList (first.flatMap CharClass.capital)
    match pushWidth? name with
    | some width =>
      if isOperand width operands then some ⟨0x5f + UInt8.ofNat width, name, 0, 1⟩ else none
    | none =>
      if name == "JUMPDEST" then some ⟨0x5b, name, 0, 0⟩ else (Opcode.ofName? name).map (·.row)

end EvmToolchain.Spelling
