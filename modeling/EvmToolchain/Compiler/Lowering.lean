import EvmToolchain.Compiler.Emission

/-!
# EvmToolchain.Compiler.Lowering

Lowering of terms to instructions.

Every term lowers in two ways: to code that leaves its value on the stack, and
to code that jumps on its truth (`Lowering`). A condition is lowered without
computing its value: the connectives become jumps around the operand that
need not be evaluated, and only their operands are computed. One of the two
outcomes jumps and the other one falls through, so no code needs a label for
both.
-/

namespace EvmToolchain

/-- Sizes that a program is compiled for. -/
structure CompilerOptions where
  /-- The number of bytes in a word. -/
  wordSize : Nat := 32
  /-- The distance in memory between values that a program hands back. There is
  none if it was given as a fraction, of which no address can be made. -/
  slotSize : Option Nat := some 32
  deriving Repr, DecidableEq

/-- Where a condition jumps: to a label when it holds, or to one when it does
not. -/
inductive BranchTarget
  | whenTrue (label : Int)
  | whenFalse (label : Int)
  deriving Repr, DecidableEq

/-- The two ways to lower a term. -/
structure Lowering where
  /-- Leaves the value of the term on the stack. -/
  value : Emitter
  /-- Jumps on the truth of the term. -/
  branch : BranchTarget → Emitter

/-- The shortest push of a value; zero is pushed as one byte. -/
def makePush (value wordSize : Int) : Except CompileError Instruction :=
  let width := max 1 (BigEndian.width value.natAbs)
  if wordSize < width then .error (.literalOverflow value wordSize)
  else if value < 0 then .error (.negativeValue value)
  else (Instruction.tryPush (BigEndian.ofNat width value.toNat)).mapError .instruction

/-- The instructions of an operator on two values of which the left one is on
top. -/
def Arithmetic.code : Arithmetic → List Instruction
  | add => [.op .add]
  | subtract => [.op .sub]
  | multiply => [.op .mul]
  | divide => [.op .div]
  | remainder => [.op .mod]
  | equals => [.op .eq]
  | lessThan => [.op .lt]
  | greaterThan => [.op .gt]
  | notEquals => [.op .eq, .op .isZero]
  | lessOrEquals => [.op .gt, .op .isZero]
  | greaterOrEquals => [.op .lt, .op .isZero]

/-- The instruction that reads a region. -/
def Region.load : Region → Instruction
  | memory => .op .mload
  | storage => .op .sload
  | callData => .op .callDataLoad

/-- The instruction that writes to a region; call data cannot be written. -/
def Region.store? : Region → Option Instruction
  | memory => some (.op .mstore)
  | storage => some (.op .sstore)
  | callData => none

namespace Emitter

/-- Emits the push of a number. -/
def push (options : CompilerOptions) (value : Nat) : Emitter :=
  match makePush value options.wordSize with
  | .ok i => emit [i]
  | .error e => fail e

/-- Emits the push of the number that a literal denotes. -/
def pushLiteral (options : CompilerOptions) (l : Literal) : Emitter :=
  if l.isTooLong then fail (.tooManyDigits l) else push options l.value

/-- Emits the push of the address of a slot. -/
def pushSlot (options : CompilerOptions) (slot : Nat) : Emitter :=
  match options.slotSize with
  | some size => push options (slot * size)
  | none => fail .fractionalAddress

/-- Jumps on the truth of a value. -/
def jumpOn (value : Emitter) : BranchTarget → Emitter
  | .whenTrue label => value ++ emit [.pushLabel label, .op .jumpi]
  | .whenFalse label => value ++ emit [.op .isZero, .pushLabel label, .op .jumpi]

end Emitter

open Emitter

namespace Lowering

/-- The lowering of a term whose truth is decided by its value. -/
def ofValue (value : Emitter) : Lowering := ⟨value, value.jumpOn⟩

/-- The lowering of a connective. As a value it keeps the left operand if that
decides the outcome, and otherwise drops it and computes the right one. -/
def connect (op : Connective) (lhs rhs : Lowering) : Lowering where
  value :=
    let test := match op with
      | .and => [.dupTop, .op .isZero]
      | .or => [.dupTop]
    lhs.value ++ emit test ++ withFresh fun join =>
      emit [.pushLabel join, .op .jumpi, .op .pop] ++ rhs.value ++ emit [.jumpdest join]
  branch target :=
    match op, target with
    | .and, .whenTrue label => withFresh fun skip =>
      lhs.branch (.whenFalse skip) ++ rhs.branch (.whenTrue label) ++ emit [.jumpdest skip]
    | .and, .whenFalse label => lhs.branch (.whenFalse label) ++ rhs.branch (.whenFalse label)
    | .or, .whenFalse label => withFresh fun skip =>
      lhs.branch (.whenTrue skip) ++ rhs.branch (.whenFalse label) ++ emit [.jumpdest skip]
    | .or, .whenTrue label => lhs.branch (.whenTrue label) ++ rhs.branch (.whenTrue label)

end Lowering

mutual

/-- The lowering of a term. -/
def Term.lower (options : CompilerOptions) : Term → Lowering
  | .assert condition => .ofValue <| withFresh fun label =>
    (condition.lower options).branch (.whenTrue label)
      ++ emit [.op .invalid, .jumpdest label]
  | .assign target value => .ofValue <|
    (value.lower options).value ++
      match target with
      | .access (.region r) index =>
        match r.store? with
        | some store => (index.lower options).value ++ emit [store]
        | none => fail (.invalidMemoryAccess target)
      | .access _ _ => fail (.invalidMemoryAccess target)
      | _ => fail (.invalidTarget target)
  | .fail => .ofValue (emit [.op .invalid])
  | .goto label => .ofValue <| withNamed label fun l => emit [.pushLabel l, .op .jump]
  | .ifGoto condition label => .ofValue <| withNamed label fun l =>
    (condition.lower options).branch (.whenTrue l)
  | .label name => .ofValue <| withNamed name fun l => emit [.jumpdest l]
  | .revert values => .ofValue (lowerResult options (.op .revert) values)
  | .succeed values => .ofValue <|
    match values with
    | [] => emit [.op .stop]
    | values => lowerResult options (.op .ret) values
  | .stop => .ofValue (emit [.op .stop])
  | .arithmetic op lhs rhs => .ofValue <|
    (rhs.lower options).value ++ (lhs.lower options).value ++ emit op.code
  | .connective op lhs rhs => .connect op (lhs.lower options) (rhs.lower options)
  | .access source index => .ofValue <|
    match source with
    | .region r => (index.lower options).value ++ emit [r.load]
    | _ => fail (.invalidMemoryAccess source)
  | .region r => .ofValue (fail (.invalidMemoryAccess (.region r)))
  | .literal l => .ofValue (pushLiteral options l)
  | .unknown => .ofValue (fail .unknownTerm)

/-- Stores values in memory, the first at the given slot and each in a slot of
its own. -/
def lowerSlots (options : CompilerOptions) (slot : Nat) : List Term → Emitter
  | [] => emit []
  | t :: rest =>
    (t.lower options).value ++ pushSlot options slot ++ emit [.op .mstore]
      ++ lowerSlots options (slot + 1) rest

/-- Stores values in memory and ends by handing back all their slots. -/
def lowerResult (options : CompilerOptions) (last : Instruction) (values : List Term) : Emitter :=
  lowerSlots options 0 values
    ++ pushSlot options values.length ++ push options 0 ++ emit [last]

end

end EvmToolchain
