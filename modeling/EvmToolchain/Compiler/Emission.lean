import EvmToolchain.Compiler.Error

/-!
# EvmToolchain.Compiler.Emission

Emitting code. An `Emitter` turns the label allocator into instructions and
the allocator after it. It may fail; the instructions that were emitted before
the failure are still there.

Emitters are put one after the other with `++`.
-/

namespace EvmToolchain

/-- The label allocator. Labels are numbers; those below `next` are taken.
Some of them belong to a name. -/
structure Labels where
  next : Nat := 0
  /-- The labels of names, in the order of their allocation. -/
  names : List (String × Nat) := []
  deriving Repr, DecidableEq

namespace Labels

/-- The label of a name, if it has one. -/
def find? (name : String) (ls : Labels) : Option Nat :=
  (ls.names.find? (·.1 == name)).map (·.2)

/-- Allocates a label. -/
def fresh (ls : Labels) : Nat × Labels := (ls.next, { ls with next := ls.next + 1 })

/-- The label of a name, allocated on first use. -/
def named (name : String) (ls : Labels) : Nat × Labels :=
  match ls.find? name with
  | some label => (label, ls)
  | none => (ls.next, { next := ls.next + 1, names := ls.names ++ [(name, ls.next)] })

end Labels

/-- Emitted instructions, and the allocator after them. -/
structure Emission where
  code : List Instruction
  labels : Labels
  failure : Option CompileError := none
  deriving Repr

/-- A way to emit instructions. -/
def Emitter := Labels → Emission

namespace Emitter

/-- Emits the given instructions. -/
def emit (code : List Instruction) : Emitter := fun labels => { code, labels }

/-- Fails. -/
def fail (e : CompileError) : Emitter := fun labels => { code := [], labels, failure := some e }

/-- Emits what the first emits and then, unless that fails, what the second
emits. -/
def append (a b : Emitter) : Emitter := fun labels =>
  let first := a labels
  match first.failure with
  | some _ => first
  | none =>
    let second := b first.labels
    { second with code := first.code ++ second.code }

instance : Append Emitter := ⟨append⟩

/-- Allocates a label for what is emitted. -/
def withFresh (k : Nat → Emitter) : Emitter := fun labels =>
  let (label, labels) := labels.fresh
  k label labels

/-- Looks up, or allocates, the label of a name for what is emitted. -/
def withNamed (name : String) (k : Nat → Emitter) : Emitter := fun labels =>
  let (label, labels) := labels.named name
  k label labels

@[simp] theorem emit_apply (code : List Instruction) (labels : Labels) :
    emit code labels = { code, labels } := rfl

@[simp] theorem fail_apply (e : CompileError) (labels : Labels) :
    fail e labels = { code := [], labels, failure := some e } := rfl

@[simp] theorem withFresh_apply (k : Nat → Emitter) (labels : Labels) :
    withFresh k labels = k labels.next { labels with next := labels.next + 1 } := rfl

theorem append_apply_of_failure {a b : Emitter} {labels : Labels} {e : CompileError}
    (h : (a labels).failure = some e) : (a ++ b) labels = a labels := by
  show append a b labels = a labels
  simp [append, h]

theorem append_apply {a b : Emitter} {labels : Labels} (h : (a labels).failure = none) :
    (a ++ b) labels =
      { b (a labels).labels with code := (a labels).code ++ (b (a labels).labels).code } := by
  show append a b labels = _
  simp [append, h]

theorem append_assoc (a b c : Emitter) : a ++ b ++ c = a ++ (b ++ c) := by
  funext labels
  cases ha : (a labels).failure with
  | some e =>
    have hab : ((a ++ b) labels).failure = some e := by rw [append_apply_of_failure ha, ha]
    rw [append_apply_of_failure hab, append_apply_of_failure ha, append_apply_of_failure ha]
  | none =>
    cases hb : (b (a labels).labels).failure with
    | some e =>
      have hab : ((a ++ b) labels).failure = some e := by rw [append_apply ha, hb]
      rw [append_apply_of_failure hab, append_apply ha, append_apply ha, append_apply_of_failure hb]
    | none =>
      have hab : ((a ++ b) labels).failure = none := by rw [append_apply ha, hb]
      rw [append_apply hab, append_apply ha, append_apply ha, append_apply hb]
      simp [List.append_assoc]

end Emitter

end EvmToolchain
