import EvmToolchain.Log
import EvmToolchain.Machine.Step

/-!
# EvmToolchain.Machine.Run

Runs of the machine. A run ends when an instruction ends it, or when the
program counter is past the end of the code, which counts as no step. A run
that has made as many steps as its limit allows and does not end has failed.
-/

namespace EvmToolchain.Machine

/-- Runs on for at most `remaining` steps. `limit` is what the error names. -/
def runFrom (p : Program) (limit : Int) : (remaining : Nat) → State → Except RunError Outcome
  | remaining, s =>
    if p.code.size ≤ s.pc then .ok ⟨.stopped, s⟩
    else
      match remaining with
      | 0 => .error (.stepLimit limit)
      | remaining + 1 =>
        match step p s with
        | .next after => runFrom p limit remaining after
        | .halt ending after => .ok ⟨ending, after⟩
        | .error e => .error e

/-- The state at the start of a run. -/
def initial (storage : Storage) : State := { storage }

/-- The step limit of a run for which none is given. -/
def defaultLimit : Int := 100000

/-- Runs a program from the start, for at most `limit` steps. -/
def run (p : Program) (storage : Storage) (limit : Int) : Except RunError Outcome :=
  runFrom p limit limit.toNat (initial storage)

/-- The states that a run passes through, one after each step that does not
fault. A run that stops past the end of the code shows its last state again. -/
def traceFrom (p : Program) : (remaining : Nat) → State → List State
  | remaining, s =>
    if p.code.size ≤ s.pc then [s]
    else
      match remaining with
      | 0 => []
      | remaining + 1 =>
        match step p s with
        | .next after => after :: traceFrom p remaining after
        | .halt (.faulted _) _ => []
        | .halt _ after => [after]
        | .error _ => []

/-- The states that a run passes through from the start. -/
def trace (p : Program) (storage : Storage) (limit : Int) : List State :=
  traceFrom p limit.toNat (initial storage)

/-- What there is to report of a run that has ended. -/
def Outcome.entries (o : Outcome) : List LogEntry :=
  match o.ending with
  | .faulted f =>
    [⟨.debug, "Exceptional halt at pc=" ++ Hex.ofNat o.state.pc ++ ": " ++ f.message⟩]
  | _ => []

end EvmToolchain.Machine
