import EvmToolchain.Analysis.Disassembly
import EvmToolchain.Log

/-!
# EvmToolchain.Analysis.FixedPoint

The dataflow analysis: the states at block entries are propagated along jumps
and fall-throughs until nothing changes any more.

A pass visits the reachable blocks in order. A visit replays the instructions
of the block from its entry state (`replay`); the states that flow out of it
are merged into the entries of the blocks that they flow into (`absorb`), so
later blocks of the same pass already see them. An analysis of states that
cannot all be merged stops where it would have to merge two such states.

Merging only ever loses information, and the number of tracked slots that can
be lost is bounded. So the number of passes is bounded too (`passBound`), and
an analysis without a limit of its own runs under that bound.
-/

namespace EvmToolchain

/-- What the analysis reports. -/
inductive AnalysisEvent
  | scanned (bytes blocks : Nat)
  | visited (id : Nat) (block : Block) (context : String)
  /-- A jump whose target is known and lies outside of the code. -/
  | ignoredJump (target : Int) (pc : Nat)
  | passed (number : Nat) (changed : Bool)
  | settled (passes reachable total : Nat)
  | refined (source target : String)
  deriving Repr, DecidableEq

namespace AnalysisEvent

/-- The wording of an event. -/
def message : AnalysisEvent → String
  | scanned bytes blocks =>
    "Scanned " ++ toString bytes ++ " bytes into " ++ toString blocks ++ " blocks"
  | visited id block context =>
    "Block " ++ toString id ++ " [" ++ Hex.padded 4 block.start ++ ", "
      ++ Hex.padded 4 block.stop ++ "): " ++ context
  | ignoredJump target pc =>
    "Ignoring jump to " ++ Hex.ofInt target ++ " outside the code at " ++ Hex.padded 4 pc
  | passed number changed =>
    "Pass " ++ toString number ++ ": " ++ (if changed then "changed" else "stable")
  | settled passes reachable total =>
    "Fixed point after " ++ toString passes ++ " passes: " ++ toString reachable ++ "/"
      ++ toString total ++ " blocks reachable"
  | refined source target => "Refined disassembly from " ++ source ++ " to " ++ target

/-- The log entry of an event. -/
def entry (e : AnalysisEvent) : LogEntry where
  level := match e with
    | settled .. => .info
    | _ => .debug
  text := e.message

end AnalysisEvent

/-- A state that flows into the block of a number. -/
structure Flow (σ : Type) where
  block : Nat
  state : σ

/-- What comes of the replay of an instruction besides the next state. -/
inductive Effect (σ : Type)
  | flow (f : Flow σ)
  | report (e : AnalysisEvent)

/-- What the replay of some instructions comes to: its effects in order, and
the state at the end. -/
structure Replay (σ : Type) where
  effects : List (Effect σ) := []
  final : Except AnalysisError σ

/-- The analysis at some moment. -/
structure Progress (σ : Type) where
  /-- The states at block entries. -/
  contexts : Array σ
  /-- Whether a state has changed in this pass. -/
  changed : Bool := false
  events : Array AnalysisEvent := #[]

namespace Layout

variable {σ : Type} [Domain σ]

/-- The flow along a jump instruction, taken at a state. There is none if the
target is unknown; one that lies outside of the code is reported instead. -/
def jumpEffects (l : Layout) (s : σ) (i : Located) : Except AnalysisError (List (Effect σ)) :=
  if i.instruction.canBranch then
    match Domain.top s with
    | .unknown => .ok []
    | .known target =>
      if target < l.code.size then
        match Domain.branch i.instruction s with
        | .error e => .error (.transfer e)
        | .ok state =>
          match l.blockIndex target with
          | .error e => .error e
          | .ok block => .ok [.flow ⟨block, state⟩]
      else .ok [.report (.ignoredJump target i.offset)]
  else .ok []

/-- Replays instructions from a state. What flowed out before an error stays. -/
def replay (l : Layout) (s : σ) : List Located → Replay σ
  | [] => { final := .ok s }
  | i :: rest =>
    match l.jumpEffects s i with
    | .error e => { final := .error e }
    | .ok effects =>
      match Domain.transfer i.instruction s with
      | .error e => { effects, final := .error (.transfer e) }
      | .ok after =>
        let r := l.replay after rest
        { r with effects := effects ++ r.effects }

/-- All that flows out of a block when it is replayed from a state: along its
jumps, and at its end into the next block. -/
def blockReplay (l : Layout) (id : Nat) (b : Block) (s : σ) : Replay σ :=
  let r := l.replay s (sweep l.code b.start b.stop)
  match r.final with
  | .error _ => r
  | .ok final =>
    if id + 1 < l.blocks.size then { r with effects := r.effects ++ [.flow ⟨id + 1, final⟩] }
    else r

end Layout

namespace Progress

variable {σ : Type} [Domain σ]

/-- Merges a state into the entry of the block that it flows into. Nothing
changes if they cannot be merged. -/
def absorb (p : Progress σ) (f : Flow σ) : Progress σ × Except AnalysisError Unit :=
  match p.contexts[f.block]? with
  | none => (p, .ok ())
  | some s =>
    match Domain.merge? s f.state with
    | none => (p, .error .foreignState)
    | some (merged, changed) =>
      ({ p with
        contexts := p.contexts.setIfInBounds f.block merged
        changed := p.changed || changed }, .ok ())

/-- Carries out effects in order, up to an error. -/
def perform (p : Progress σ) : List (Effect σ) → Progress σ × Except AnalysisError Unit
  | [] => (p, .ok ())
  | .report e :: rest => { p with events := p.events.push e }.perform rest
  | .flow f :: rest =>
    match p.absorb f with
    | (after, .error e) => (after, .error e)
    | (after, .ok ()) => after.perform rest

/-- Visits a block: replays it from its entry state, if it is reachable, and
merges what flows out of it. -/
def visit (l : Layout) (trace : Bool) (p : Progress σ) (id : Nat) (b : Block) :
    Progress σ × Except AnalysisError Unit :=
  match p.contexts[id]? with
  | none => (p, .error (.missingContext id))
  | some s =>
    if Disassembly.isReachableIn p.contexts id then
      let r := l.blockReplay id b s
      let heading : List AnalysisEvent := if trace then [.visited id b (Domain.text s)] else []
      match { p with events := p.events ++ heading }.perform r.effects with
      | (after, .error e) => (after, .error e)
      | (after, .ok ()) => (after, r.final.map fun _ => ())
    else (p, .ok ())

/-- Visits blocks in order, up to an error. -/
def pass (l : Layout) (trace : Bool) (p : Progress σ) :
    List (Block × Nat) → Progress σ × Except AnalysisError Unit
  | [] => (p, .ok ())
  | (b, id) :: rest =>
    match p.visit l trace id b with
    | (after, .error e) => (after, .error e)
    | (after, .ok ()) => after.pass l trace rest

/-- Makes passes, of which `done` are over, until one changes nothing. At most
`budget` more are made; the result is the number of all passes, or `none` if
the last one still changed a state. -/
def run (l : Layout) (trace : Bool) (done : Nat) (p : Progress σ) :
    (budget : Nat) → Progress σ × Except AnalysisError (Option Nat)
  | 0 => (p, .ok none)
  | budget + 1 =>
    match { p with changed := false }.pass l trace l.blocks.toList.zipIdx with
    | (after, .error e) => (after, .error e)
    | (after, .ok ()) =>
      let reported := { after with events := after.events.push (.passed (done + 1) after.changed) }
      if after.changed then reported.run l trace (done + 1) budget
      else (reported, .ok (some (done + 1)))

end Progress

namespace Disassembly

variable {σ τ : Type} [Domain σ] [Domain τ]

/-- The greatest height that a state can have during an analysis that starts
from the given states. -/
def heightBound (contexts : Array σ) : Nat :=
  contexts.foldl (fun n s => max n (Domain.height s)) maxStack

/-- More passes than this cannot all change a state: a block takes up a state
once, and then loses at most its slots and the values in them. -/
def passBound (contexts : Array σ) : Nat :=
  1 + contexts.size * (2 * heightBound contexts + 1)

/-- The number of passes that the options allow from the given states. An
infinite limit is none. -/
def budget (options : AnalysisOptions) (contexts : Array σ) : Nat :=
  match options.maxPasses with
  | some limit => (limit.floor?.map Int.toNat).getD (passBound contexts)
  | none => passBound contexts

/-- The number of blocks that count as reachable. -/
def reachableCount (d : Disassembly σ) : Nat :=
  (List.range d.blocks.size).countP (isReachableIn d.contexts)

/-- The outcome of an analysis: the disassembly with the states that were
reached, also where the analysis failed, and what there is to report. -/
structure Built (σ : Type) where
  disassembly : Disassembly σ
  events : List AnalysisEvent
  /-- The number of passes. -/
  passes : Except AnalysisError Nat

/-- Runs the analysis until the states at block entries do not change. -/
def build (d : Disassembly σ) : Built σ :=
  if d.isRetired then ⟨d, [], .error .retired⟩
  else
    let allowed := budget d.options d.contexts
    let start : Progress σ := { contexts := d.contexts }
    let (p, passes) := start.run d.toLayout d.options.trace 0 allowed
    let after := { d with contexts := p.contexts }
    match passes with
    | .error e => ⟨after, p.events.toList, .error e⟩
    | .ok none =>
      ⟨after, p.events.toList, .error (.noFixedPoint (d.options.maxPasses.getD (.whole allowed)))⟩
    | .ok (some n) =>
      let settled := .settled n after.reachableCount after.blocks.size
      ⟨after, p.events.toList ++ [settled], .ok n⟩

/-- States of which the first one is merged with the state at the start of
execution. -/
def enter (contexts : Array τ) : Except AnalysisError (Array τ) :=
  match contexts[0]? with
  | none => .ok contexts
  | some s =>
    match Domain.merge? s Domain.origin with
    | none => .error .foreignState
    | some (merged, _) => .ok (contexts.setIfInBounds 0 merged)

/-- The same disassembly in another domain. Each state is converted, and the
state at the start of execution is merged into the first block. -/
def refine (d : Disassembly σ) (convert : σ → τ) : Except AnalysisError (Disassembly τ) := do
  d.checkLive
  let contexts ← enter (d.contexts.map convert)
  return { d with contexts }

/-- What is left of a disassembly once its states have moved on. -/
def retire (d : Disassembly σ) : Disassembly σ := { d with contexts := #[], isRetired := true }

/-- What there is to report about a fresh disassembly. -/
def scanEvent (d : Disassembly σ) : AnalysisEvent := .scanned d.code.size d.blocks.size

end Disassembly

end EvmToolchain
