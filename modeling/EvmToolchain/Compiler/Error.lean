import EvmToolchain.Instruction.Basic
import EvmToolchain.Lang.Printer
import EvmToolchain.Log

/-!
# EvmToolchain.Compiler.Error

Why a term cannot be compiled, and what there is to report of it.
-/

namespace EvmToolchain

/-- Why a term cannot be compiled. -/
inductive CompileError
  /-- The value needs more bytes than a word has. -/
  | literalOverflow (value wordSize : Int)
  /-- A decimal literal has more digits than are read. -/
  | tooManyDigits (literal : Literal)
  /-- The term is no array, or none that can be used this way. -/
  | invalidMemoryAccess (term : Term)
  /-- The term cannot be assigned to. -/
  | invalidTarget (term : Term)
  /-- A term of no known kind. -/
  | unknownTerm
  /-- A push holds natural numbers only. -/
  | negativeValue (value : Int)
  /-- The slots in memory are a fraction of a byte apart. -/
  | fractionalAddress
  | instruction (e : InstructionError)
  /-- A conditional jump has either a target for the case that the condition
  holds or one for the case that it does not. -/
  | branchTargets
  deriving Repr

namespace CompileError

/-- The wording of an error. -/
def message : CompileError → String
  | literalOverflow .. => "literal overflow"
  | tooManyDigits _ => "A decimal number has at most " ++ toString maxDigits ++ " digits"
  | invalidMemoryAccess _ => "invalid memory access"
  | invalidTarget _ => "invalid lval"
  | unknownTerm => "Unknown term"
  | negativeValue value => "Negative value " ++ toString value
  | fractionalAddress => "Slots must be whole bytes apart"
  | instruction e => e.message
  | branchTargets => "Exactly one of true_label or false_label must be given"

/-- What there is to report of an error. -/
def entries (e : CompileError) : List LogEntry :=
  match e with
  | literalOverflow value wordSize =>
    [⟨.debug, "Literal " ++ Hex.ofInt value ++ " does not fit in " ++ toString wordSize ++ " bytes"⟩]
  | invalidMemoryAccess term | invalidTarget term =>
    [⟨.debug, "Translation failed (" ++ e.message ++ ") at " ++ term.print⟩]
  | _ => []

end CompileError

end EvmToolchain
