import EvmToolchain.Analysis.Block
import EvmToolchain.Analysis.Domain
import EvmToolchain.Index
import EvmToolchain.Limits
import EvmToolchain.Numeric.Number

/-!
# EvmToolchain.Analysis.Disassembly

Code together with its blocks and one abstract state per block, the state at
the block's entry. States at other places are recomputed from the entry of the
block that encloses them.

The split into blocks takes everything for code. Blocks whose entry state is
unreachable are in fact data, and `Disassembly.instructions` renders them so.
-/

namespace EvmToolchain

/-- Code and its blocks. -/
structure Layout where
  code : Bytes
  blocks : Array Block

/-- Settings of the analysis. -/
structure AnalysisOptions where
  /-- The most passes over the code; without a limit passes are made until
  nothing changes. -/
  maxPasses : Option Number := none
  /-- Whether each visit to a block is logged. -/
  trace : Bool := false
  deriving Repr, DecidableEq

/-- Why a question about a disassembly, or its analysis, has no answer. -/
inductive AnalysisError
  | transfer (e : TransferError)
  /-- No block encloses the address. -/
  | invalidAddress (pc : Int)
  | invalidBlock (id : Int)
  /-- The block has no entry state. -/
  | missingContext (id : Int)
  /-- The disassembly has moved to another domain. -/
  | retired
  | reversedRange (start stop : Int)
  /-- No sequence has such a length. -/
  | lengthOverflow (length : Nat)
  /-- There is no room for so many bytes. -/
  | noRoom (length : Nat)
  /-- A state of another domain cannot be merged. -/
  | foreignState
  /-- The states still changed in the last pass allowed. -/
  | noFixedPoint (limit : Number)
  deriving Repr, DecidableEq

/-- The wording of an error. -/
def AnalysisError.message : AnalysisError → String
  | transfer e => e.message
  | invalidAddress pc => "Invalid bytecode address: " ++ Hex.ofInt pc
  | invalidBlock id => "Invalid block id: " ++ toString id
  | missingContext id => "No context for block " ++ toString id
  | retired => "Disassembly has been refined and can no longer be used"
  | reversedRange start stop =>
    "Invalid byte range [" ++ toString start ++ ", " ++ toString stop ++ ")"
  | lengthOverflow length => "No sequence has length " ++ toString length
  | noRoom length => "No room for " ++ toString length ++ " bytes"
  | foreignState => "A state of another domain cannot be merged"
  | noFixedPoint limit => "No fixed point after " ++ toString limit ++ " passes"

namespace Layout

/-- Some code with its basic blocks. -/
def ofCode (code : Bytes) : Layout where
  code
  blocks := (Block.ofCode code).toArray

/-- The number of the block that encloses an address. -/
def blockIndex (l : Layout) (pc : Int) : Except AnalysisError Nat :=
  match l.blocks.findIdx? (·.encloses pc) with
  | some id => .ok id
  | none => .error (.invalidAddress pc)

/-- The block that encloses an address. -/
def blockAt (l : Layout) (pc : Int) : Except AnalysisError Block := do
  let id ← l.blockIndex pc
  match l.blocks[id]? with
  | some b => return b
  | none => throw (.invalidAddress pc)

/-- The bytes between two positions of the code, which may be counted from its
end, and zeros up to the length that the positions announce. -/
def readBytes (l : Layout) (start stop : Int) : Except AnalysisError (List UInt8) :=
  if stop < start then .error (.reversedRange start stop)
  else
    let first := Index.clamp l.code.size start
    let last := Index.clamp l.code.size stop
    let chunk := l.code.window first (last - first)
    let missing := (stop - start).toNat - chunk.length
    if bytesBound ≤ missing then .error (.lengthOverflow missing)
    else if roomBound ≤ missing then .error (.noRoom missing)
    else .ok (chunk ++ List.replicate missing 0)

/-- The instructions of a block. -/
def instructions (l : Layout) (b : Block) : List Instruction :=
  (sweep l.code b.start b.stop).map (·.instruction)

/-- The bytes of a block. -/
def bytes (l : Layout) (b : Block) : List UInt8 :=
  l.code.window b.start (b.stop - b.start)

end Layout

/-- Code with its blocks, and an abstract state for the entry of each block. -/
structure Disassembly (σ : Type) extends Layout where
  contexts : Array σ
  options : AnalysisOptions
  /-- Whether the states have moved on to another disassembly. -/
  isRetired : Bool := false

namespace Disassembly

variable {σ τ : Type} [Domain σ] [Domain τ]

/-- The disassembly of some code, before any analysis: execution starts at the
first block, and nothing is known to reach the others. -/
def ofCode (code : Bytes) (options : AnalysisOptions) : Disassembly σ :=
  let layout := Layout.ofCode code
  { layout with
    contexts := (Array.replicate layout.blocks.size Domain.bottom).setIfInBounds 0 Domain.origin
    options }

/-- Fails for a disassembly that has moved to another domain. -/
def checkLive (d : Disassembly σ) : Except AnalysisError Unit :=
  if d.isRetired then .error .retired else .ok ()

/-- Whether the block of a number counts as reachable; the first always does. -/
def isReachableIn (contexts : Array σ) (id : Nat) : Bool :=
  id == 0 || (contexts[id]?.map Domain.isReachable).getD false

/-- Whether a block is reachable. -/
def isBlockReachable (d : Disassembly σ) (id : Int) : Except AnalysisError Bool :=
  if 0 ≤ id ∧ id < d.blocks.size then
    if id = 0 ∨ id.toNat < d.contexts.size then .ok (isReachableIn d.contexts id.toNat)
    else .error (.missingContext id)
  else .error (.invalidBlock id)

/-- The state after some instructions. -/
def transferAll (s : σ) : List Located → Except AnalysisError σ
  | [] => .ok s
  | l :: rest =>
    match Domain.transfer l.instruction s with
    | .ok after => transferAll after rest
    | .error e => .error (.transfer e)

/-- The state just before an address. -/
def stateAt (d : Disassembly σ) (pc : Int) : Except AnalysisError σ := do
  d.checkLive
  let id ← d.blockIndex pc
  match d.blocks[id]?, d.contexts[id]? with
  | some b, some s => transferAll s (sweep d.code b.start pc.toNat)
  | _, _ => throw (.missingContext id)

/-- The instructions of a block if it is reachable, else its bytes as data. -/
def rendering (d : Disassembly σ) (b : Block) (id : Nat) : List Instruction :=
  if isReachableIn d.contexts id then d.toLayout.instructions b
  else [.raw (d.toLayout.bytes b)]

/-- The whole code as instructions, each unreachable block as one stretch of
data. -/
def instructions (d : Disassembly σ) : Except AnalysisError (List Instruction) := do
  d.checkLive
  return d.blocks.toList.zipIdx.flatMap fun (b, id) => d.rendering b id

/-- Replaces the entry state of a block, whose number may be counted from the
end. -/
def setContext (d : Disassembly σ) (id : Int) (s : σ) : Except AnalysisError (Disassembly σ) :=
  match Index.resolve? d.contexts.size id with
  | some k => .ok { d with contexts := d.contexts.setIfInBounds k s }
  | none => .error (.missingContext id)

end Disassembly

end EvmToolchain
