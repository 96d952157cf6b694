import EvmToolchain.Analysis.Domain

/-!
# EvmToolchain.Analysis.StackState

The constant-stack domain: the operand stack as a sequence of slots, each with
a known value or an unknown one, so that jump targets pushed as constants can
be resolved.

Slots are listed from the top of the stack down. What lies below the tracked
slots is unknown. Merging two stacks aligns them at the top, keeps the slots
that both have and forgets each one on which they disagree.
-/

namespace EvmToolchain

/-- What is known of the operand stack at a point of the code. -/
inductive StackState
  /-- No execution reaches the point. -/
  | bottom
  /-- The topmost slots of the stack, from the top down. -/
  | stack (slots : List Slot)
  deriving Repr, DecidableEq

/-- What an instruction does to the tracked slots. -/
inductive StackAction
  | push (slot : Slot)
  /-- Push a copy of the slot at a depth, the top being at depth one. -/
  | copy (depth : Int)
  /-- Exchange the top with the slot so far below it. -/
  | exchange (depth : Int)
  /-- Drop some slots and push unknown ones. -/
  | replace (effect : StackEffect)
  deriving Repr, DecidableEq

namespace StackAction

/-- The action of an instruction that takes its operands from the stack and
pushes results of which nothing is known. -/
def ofEffect (i : Instruction) : Except TransferError StackAction :=
  match i.stackEffect with
  | .ok effect => .ok (.replace effect)
  | .error e => .error (.instruction e)

/-- The action of a free spelling. Anything that starts with `DUP` or `SWAP`
is taken for a copy or an exchange at the depth that follows. -/
def ofSpelling (i : Instruction) (text : String) : Except TransferError StackAction :=
  if "DUP".toList.isPrefixOf text.toList then
    match Numeral.decimal? (text.toList.drop 3) with
    | some depth => .ok (.copy depth)
    | none => .error (.depthNumeral text)
  else if "SWAP".toList.isPrefixOf text.toList then
    match Numeral.decimal? (text.toList.drop 4) with
    | some depth => .ok (.exchange depth)
    | none => .error (.depthNumeral text)
  else ofEffect i

/-- The action of an instruction. -/
def ofInstruction (i : Instruction) : Except TransferError StackAction :=
  match i.mnemonic with
  | .push => .ok (.push (.known (BigEndian.toNat i.data)))
  | .push0 => .ok (.push (.known 0))
  | .op (.dup n) => .ok (.copy (n.val + 1))
  | .op (.swap n) => .ok (.exchange (n.val + 1))
  | .spelled text => ofSpelling i text
  | _ => ofEffect i

/-- The position, counted from the top, that a depth below the top denotes in
a stack of the given height. A negative depth counts from the bottom slot
upwards; it denotes nothing if it goes past the top. -/
def position? (height : Nat) (depth : Int) : Option Nat :=
  if 0 ≤ depth then some depth.toNat
  else if 0 ≤ height + depth then some (height + depth).toNat
  else none

/-- The slot at a depth below the top; below the tracked slots all is unknown. -/
def slotAt? (slots : List Slot) (depth : Int) : Option Slot :=
  (position? slots.length depth).map (slots.getD · .unknown)

/-- The slots with unknown ones added below until there are `count`. -/
def pad (count : Nat) (slots : List Slot) : List Slot :=
  slots ++ List.replicate (count - slots.length) .unknown

/-- The slots with the top and the one at `position` exchanged. -/
def exchangeTop (position : Nat) (slots : List Slot) : List Slot :=
  (slots.set 0 (slots.getD position .unknown)).set position (slots.getD 0 .unknown)

/-- The slots after an action. -/
def apply (slots : List Slot) : StackAction → Except TransferError (List Slot)
  | push slot => .ok (slot :: slots)
  | copy depth =>
    match slotAt? slots (depth - 1) with
    | some slot => .ok (slot :: slots)
    | none => .error (.missingSlot depth)
  | exchange depth =>
    match position? slots.length depth with
    | some position => .ok (exchangeTop position (pad (depth + 1).toNat slots))
    | none => .error (.missingSlot depth)
  | replace effect =>
    .ok (List.replicate effect.pushes .unknown ++ slots.drop effect.pops)

end StackAction

namespace StackState

/-- The state after an instruction. At most `maxStack` slots are tracked. -/
def transfer (i : Instruction) : StackState → Except TransferError StackState
  | bottom => .ok bottom
  | stack slots =>
    if i.isTerminator then .ok bottom
    else do
      let action ← StackAction.ofInstruction i
      let after ← action.apply slots
      return stack (after.take maxStack)

/-- The state at the target of a taken jump, which has consumed its operands. -/
def branch (i : Instruction) : StackState → Except TransferError StackState
  | bottom => .ok bottom
  | stack slots =>
    match i.stackEffect with
    | .ok effect => .ok (stack (slots.drop effect.pops))
    | .error e => .error (.instruction e)

/-- The merge of a state with another one, and whether it changed. -/
def merge : StackState → StackState → StackState × Bool
  | s, bottom => (s, false)
  | bottom, t => (t, true)
  | stack a, stack b =>
    let joined := List.zipWith Slot.join a b
    if joined = a then (stack a, false) else (stack joined, true)

/-- The slot at a position counted from the top. -/
def peek? : StackState → Int → Option Slot
  | bottom, _ => some .unknown
  | stack slots, n => StackAction.slotAt? slots n

/-- Whether some execution may reach the point. -/
def isReachable : StackState → Bool
  | bottom => false
  | stack _ => true

/-- The number of tracked slots. -/
def height : StackState → Nat
  | bottom => 0
  | stack slots => slots.length

instance : ToString StackState where
  toString
    | bottom => "_|_"
    | stack slots => "[" ++ ", ".intercalate (slots.reverse.map toString) ++ "]"

instance : Domain StackState where
  title := "ConstantStackState"
  bottom := bottom
  origin := stack []
  isReachable := isReachable
  transfer := transfer
  branch := branch
  merge := merge
  peek? := peek?
  height := height
  text := toString

/-- Nothing is known of the stack of a state of the trivial domain. -/
instance : Lift Unit StackState where
  lift _ := bottom

instance : Lift StackState StackState where
  lift s := s

end StackState

end EvmToolchain
