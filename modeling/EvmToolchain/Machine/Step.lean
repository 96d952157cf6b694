import EvmToolchain.Machine.State

/-!
# EvmToolchain.Machine.Step

One step of the machine. Operands are taken off the stack before anything is
checked, so an instruction that faults has consumed them; an instruction that
finds too few operands has emptied the stack. Copies and exchanges look
before they take.
-/

namespace EvmToolchain.Machine

/-- The effect of one step. -/
inductive Step
  | next (s : State)
  | halt (e : Ending) (s : State)
  | error (e : RunError)

namespace State

/-- Execution halts exceptionally. -/
def fault (s : State) (f : Fault) : Step := .halt (.faulted f) s

/-- Too few operands were on the stack, and they are gone. -/
def underflow (s : State) : Step := { s with stack := [] }.fault .stackUnderflow

/-- Pushes a word and goes on at `next`. -/
def push (s : State) (next value : Nat) : Step :=
  if s.stack.length < maxStack then
    .next { s with stack := Word.wrap value :: s.stack, pc := next }
  else s.fault .stackOverflow

/-- Goes on at a jump destination. -/
def jump (s : State) (p : Program) (dest : Nat) : Step :=
  if p.isJumpdest dest then .next { s with pc := dest } else s.fault (.invalidJump dest)

/-- Takes an operand off the stack. -/
def withOne (s : State) (k : Nat → State → Step) : Step :=
  match s.stack with
  | a :: rest => k a { s with stack := rest }
  | [] => s.underflow

/-- Takes two operands off the stack, the topmost first. -/
def withTwo (s : State) (k : Nat → Nat → State → Step) : Step :=
  s.withOne fun a s => s.withOne fun b s => k a b s

/-- Hands back a stretch of memory. -/
def finish (s : State) (offset size : Nat) (ending : Bytes → Ending) : Step :=
  match s.memory.touch? offset size with
  | some memory => .halt (ending (memory.slice offset size)) { s with memory }
  | none => s.fault .memoryBound

/-- Pushes the word at an offset of the memory. -/
def load (s : State) (next offset : Nat) : Step :=
  match s.memory.touch? offset wordBytes with
  | some memory => { s with memory }.push next (Bytes.number memory offset wordBytes)
  | none => s.fault .memoryBound

/-- Writes a word to an offset of the memory. -/
def store (s : State) (next offset value : Nat) : Step :=
  match s.memory.reserve? (offset + wordBytes) with
  | none => s.fault .memoryBound
  | some memory =>
    if value < Word.modulus then
      .next { s with
        memory := Bytes.overwrite memory offset (BigEndian.ofNat wordBytes value)
        pc := next }
    else .error (.wordTooWide value)

end State

/-- The operation of an opcode with two operands and one result. -/
def binary? : Opcode → Option (Nat → Nat → Nat)
  | .add => some Word.add
  | .sub => some Word.sub
  | .mul => some Word.mul
  | .div => some Word.div
  | .mod => some Word.mod
  | .exp => some Word.exp
  | .lt => some Word.lt
  | .gt => some Word.gt
  | .eq => some Word.eq
  | .and => some (· &&& ·)
  | .or => some (· ||| ·)
  | .xor => some (· ^^^ ·)
  | _ => none

/-- The operation of an opcode with one operand and one result. -/
def unary? : Opcode → Option (Nat → Nat)
  | .isZero => some Word.isZero
  | .not => some Word.not
  | _ => none

/-- The effect of an opcode, after which the next instruction is at `next`. -/
def executeOp (p : Program) (o : Opcode) (next : Nat) (s : State) : Step :=
  match o with
  | .stop => .halt .stopped s
  | .ret => s.withTwo fun offset size s => s.finish offset size .returned
  | .revert => s.withTwo fun offset size s => s.finish offset size .reverted
  | .invalid => s.fault .invalidInstruction
  | .dup n =>
    match s.stack[n.val]? with
    | some value => s.push next value
    | none => s.fault .stackUnderflow
  | .swap n =>
    match s.stack[0]?, s.stack[n.val + 1]? with
    | some top, some other =>
      .next { s with stack := (s.stack.set 0 other).set (n + 1) top, pc := next }
    | _, _ => s.fault .stackUnderflow
  | .pop => s.withOne fun _ s => .next { s with pc := next }
  | .mload => s.withOne fun offset s => s.load next offset
  | .mstore => s.withTwo fun offset value s => s.store next offset value
  | .sload => s.withOne fun key s => s.push next (Word.ofInt (s.storage.getD key 0))
  | .sstore => s.withTwo fun key value s =>
    .next { s with storage := s.storage.insert key value, pc := next }
  | .callDataLoad => s.withOne fun offset s => s.push next (p.calldata.number offset wordBytes)
  | .callDataSize => s.push next p.calldata.size
  | .jump => s.withOne fun dest s => s.jump p dest
  | .jumpi => s.withTwo fun dest cond s =>
    if cond = 0 then .next { s with pc := next } else s.jump p dest
  | o =>
    match binary? o, unary? o with
    | some f, _ => s.withTwo fun a b s => s.push next (f a b)
    | none, some f => s.withOne fun a s => s.push next (f a)
    | none, none => s.fault (.unsupported o.name)

/-- The effect of an instruction. -/
def execute (p : Program) (i : Instruction) (s : State) : Step :=
  let next := s.pc + i.length
  match i.mnemonic with
  | .push => s.push next (BigEndian.toNat i.data)
  | .push0 => s.push next 0
  | .jumpdest => .next { s with pc := next }
  | .op o => executeOp p o next s
  | m => s.fault (.unsupported m.name)

/-- Executes the instruction at the program counter. -/
def step (p : Program) (s : State) : Step :=
  match Instruction.decode p.code s.pc with
  | .ok i => execute p i { s with steps := s.steps + 1 }
  | .error e => .error (.undecodable e)

end EvmToolchain.Machine
