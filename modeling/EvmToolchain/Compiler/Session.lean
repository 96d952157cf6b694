import EvmToolchain.Assembly
import EvmToolchain.Compiler.Lowering
import EvmToolchain.Index

/-!
# EvmToolchain.Compiler.Session

A program under construction: a stream of instructions that only grows, and
the labels allocated for it. Instructions come from compiled terms or are
appended as they are.
-/

namespace EvmToolchain

/-- A program under construction. -/
structure Session where
  options : CompilerOptions := {}
  labels : Labels := {}
  instructions : List Instruction := []
  deriving Repr

namespace Session

/-- Appends what an emitter emits. What it emitted before a failure stays. -/
def run (s : Session) (e : Emitter) : Session × Except CompileError Unit :=
  let emission := e s.labels
  ({ s with labels := emission.labels, instructions := s.instructions ++ emission.code },
    match emission.failure with
    | none => .ok ()
    | some e => .error e)

/-- Compiles a term. -/
def compile (s : Session) (t : Term) : Session × Except CompileError Unit :=
  s.run (t.lower s.options).value

/-- Compiles terms in order, up to the first failure. -/
def compileAll (s : Session) : List Term → Session × Except CompileError Unit
  | [] => (s, .ok ())
  | t :: rest =>
    match s.compile t with
    | (after, .ok ()) => after.compileAll rest
    | (after, .error e) => (after, .error e)

/-- Compiles a condition to a jump, to the one label that is given. -/
def compileBranch (s : Session) (t : Term) (whenTrue whenFalse : Option Int) :
    Session × Except CompileError Unit :=
  match whenTrue, whenFalse with
  | some label, none => s.run ((t.lower s.options).branch (.whenTrue label))
  | none, some label => s.run ((t.lower s.options).branch (.whenFalse label))
  | _, _ => (s, .error .branchTargets)

/-- The label of a name, allocated on first use. -/
def label (s : Session) (name : String) : Nat × Session :=
  let (label, labels) := s.labels.named name
  (label, { s with labels })

/-- Allocates a label that has not been used. -/
def freshLabel (s : Session) : Nat × Session :=
  let (label, labels) := s.labels.fresh
  (label, { s with labels })

/-- Appends an instruction. -/
def push (s : Session) (i : Instruction) : Session :=
  { s with instructions := s.instructions ++ [i] }

/-- The instruction at an index, which may be counted from the end. -/
def get? (s : Session) (index : Int) : Option Instruction :=
  (Index.resolve? s.instructions.length index).bind (s.instructions[·]?)

/-- The bytes of the program. -/
def assemble (s : Session) : Except AssemblyError (List UInt8) :=
  Assembly.assemble s.instructions

instance : ToString Session where
  toString s := "\n".intercalate (s.instructions.map toString)

end Session

end EvmToolchain
