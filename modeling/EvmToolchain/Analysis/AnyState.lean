import EvmToolchain.Analysis.StackState

/-!
# EvmToolchain.Analysis.AnyState

A state of either domain, for callers that choose the domain while running.

An analysis in a domain may be given states of the other one (`StateIn`). Each
state keeps its own nature through the analysis. Nothing changes a state of
the trivial domain, and a stack state can be merged with stack states only.
-/

namespace EvmToolchain

/-- The domains at hand. -/
inductive DomainKind
  | unit
  | stack
  deriving Repr, DecidableEq

/-- The name of a domain in messages. -/
def DomainKind.title : DomainKind → String
  | unit => Domain.title Unit
  | stack => Domain.title StackState

/-- A state of one of the domains. -/
inductive AnyState
  | unit
  | stack (s : StackState)
  deriving Repr, DecidableEq

namespace AnyState

/-- The domain of a state. -/
def kind : AnyState → DomainKind
  | unit => .unit
  | stack _ => .stack

/-- The bottom state of a domain. -/
def bottom : DomainKind → AnyState
  | .unit => unit
  | .stack => stack Domain.bottom

/-- The state of a domain at the start of execution. -/
def origin : DomainKind → AnyState
  | .unit => unit
  | .stack => stack Domain.origin

/-- The state converted to a domain. -/
def lift : DomainKind → AnyState → AnyState
  | .unit, _ => unit
  | .stack, unit => stack (Lift.lift ())
  | .stack, stack s => stack (Lift.lift s)

/-- Whether some execution may reach a point with the state. -/
def isReachable : AnyState → Bool
  | unit => Domain.isReachable ()
  | stack s => s.isReachable

/-- The state after an instruction. -/
def transfer (i : Instruction) : AnyState → Except TransferError AnyState
  | unit => .ok unit
  | stack s => (s.transfer i).map stack

/-- The state at the target of a taken jump. -/
def branch (i : Instruction) : AnyState → Except TransferError AnyState
  | unit => .ok unit
  | stack s => (s.branch i).map stack

/-- Whether a state can be merged with another one. -/
def accepts : AnyState → AnyState → Bool
  | stack _, unit => false
  | _, _ => true

/-- The merge of a state with another one, and whether it changed. -/
def merge : AnyState → AnyState → AnyState × Bool
  | stack s, stack t => ((s.merge t).map stack id)
  | s, _ => (s, false)

/-- The slot at a position counted from the top. -/
def peek? : AnyState → Int → Option Slot
  | unit, n => Domain.peek? () n
  | stack s, n => s.peek? n

/-- The number of tracked slots. -/
def height : AnyState → Nat
  | unit => Domain.height ()
  | stack s => s.height

instance : ToString AnyState where
  toString
    | unit => Domain.text ()
    | stack s => toString s

/-- The text of the state with the name of its domain. -/
def describe : AnyState → String
  | unit => Domain.text ()
  | stack s => DomainKind.stack.title ++ "(" ++ toString s ++ ")"

end AnyState

/-- A state, of whatever domain, in an analysis that works in the given one. -/
def StateIn (_ : DomainKind) : Type := AnyState

namespace StateIn

instance (k : DomainKind) : Domain (StateIn k) where
  title := k.title
  bottom := AnyState.bottom k
  origin := AnyState.origin k
  isReachable := AnyState.isReachable
  transfer := AnyState.transfer
  branch := AnyState.branch
  accepts := AnyState.accepts
  merge := AnyState.merge
  peek? := AnyState.peek?
  height := AnyState.height
  text := (toString : AnyState → String)

end StateIn

end EvmToolchain
