import EvmToolchain.Proofs.Compiler.Emits
import EvmToolchain.Proofs.Lang.Semantics

/-!
# EvmToolchain.Proofs.Compiler.Heights

The height of the stack in lowered code.

Heights are counted statically: instruction after instruction in the order in
which they stand, whatever jumps there are. The code of an expression adds one
item to the stack, and that of a condition none (`Term.IsExpression.balanced`),
so in the code of expressions the count is right on every path.
-/

namespace EvmToolchain

/-! ### Static heights -/

/-- The height of the stack after an instruction. -/
def Instruction.heightAfter (i : Instruction) (height : Nat) : Nat :=
  match i.stackEffect with
  | .ok effect => height - effect.pops + effect.pushes
  | .error _ => height

/-- The height of the stack after all instructions of some code. -/
def heightAfter (height : Nat) : List Instruction → Nat
  | [] => height
  | i :: rest => heightAfter (i.heightAfter height) rest

/-- The greatest height of the stack before, between and after the instructions
of some code. -/
def peak (height : Nat) : List Instruction → Nat
  | [] => height
  | i :: rest => max height (peak (i.heightAfter height) rest)

section

variable {height bound : Nat} {a b : List Instruction} {i : Instruction}

theorem heightAfter_append : heightAfter height (a ++ b) = heightAfter (heightAfter height a) b := by
  induction a generalizing height with
  | nil => rfl
  | cons i a ih => exact ih

theorem le_peak : height ≤ peak height a := by
  cases a with
  | nil => exact Nat.le_refl _
  | cons i a => exact Nat.le_max_left _ _

theorem peak_cons_le :
    peak height (i :: a) ≤ bound ↔ height ≤ bound ∧ peak (i.heightAfter height) a ≤ bound :=
  Nat.max_le

/-- There is room for what the first instruction pushes. -/
theorem room_of_peak (h : peak height (i :: a) ≤ bound) : i.heightAfter height ≤ bound :=
  Nat.le_trans le_peak (peak_cons_le.mp h).2

theorem peak_append_le :
    peak height (a ++ b) ≤ bound ↔
      peak height a ≤ bound ∧ peak (heightAfter height a) b ≤ bound := by
  induction a generalizing height with
  | nil =>
      refine ⟨fun h => ⟨Nat.le_trans le_peak h, h⟩, fun h => h.2⟩
  | cons i a ih =>
      rw [List.cons_append, peak_cons_le, peak_cons_le, ih, and_assoc]
      rfl

end

/-! ### Heights of emitted code -/

/-- The code that is emitted leaves `n` items on top of the stack where it finds
`m`. -/
def Emitter.Turns (e : Emitter) (m n : Nat) : Prop :=
  ∀ ⦃before code after⦄, e.Yields before code after →
    ∀ height, heightAfter (height + m) code = height + n

namespace Emitter.Turns

variable {a b e : Emitter} {k m n : Nat}

theorem emit {code : List Instruction} (h : ∀ height, heightAfter (height + m) code = height + n) :
    (emit code).Turns m n := by
  intro before code' after hyields
  obtain ⟨rfl, -⟩ := yields_emit.mp hyields
  exact h

theorem fail (e : CompileError) : (fail e).Turns m n := by
  intro before code after hyields
  exact absurd hyields not_yields_fail

theorem append (ha : a.Turns m k) (hb : b.Turns k n) : (a ++ b).Turns m n := by
  intro before code after hyields height
  obtain ⟨first, middle, second, hfirst, hsecond, rfl⟩ := yields_append.mp hyields
  rw [heightAfter_append, ha hfirst, hb hsecond]

/-- Items below those that the code looks at do not matter. -/
theorem frame (h : e.Turns m n) (k : Nat) : e.Turns (m + k) (n + k) := by
  intro before code after hyields height
  have := h hyields (height + k)
  rwa [Nat.add_right_comm height k m, Nat.add_right_comm height k n, Nat.add_assoc,
    Nat.add_assoc height n k] at this

/-- What follows the code has the room that the count says. -/
theorem peaks (h : e.Turns m n) {before after : Labels} {code rest : List Instruction}
    (hyields : e.Yields before code after) (height : Nat) {bound : Nat}
    (hpeak : peak (height + m) (code ++ rest) ≤ bound) :
    peak (height + m) code ≤ bound ∧ peak (height + n) rest ≤ bound := by
  obtain ⟨hcode, hrest⟩ := peak_append_le.mp hpeak
  rw [h hyields] at hrest
  exact ⟨hcode, hrest⟩

theorem withFresh {k : Nat → Emitter} (h : ∀ label, (k label).Turns m n) :
    (withFresh k).Turns m n := by
  intro before code after hyields
  exact h _ (yields_withFresh.mp hyields)

theorem push (options : CompilerOptions) (value : Nat) : (push options value).Turns 0 1 := by
  intro before code after hyields height
  obtain ⟨data, rfl, -⟩ := yields_push hyields
  rfl

theorem jumpOn (h : e.Turns 0 1) (target : BranchTarget) : (e.jumpOn target).Turns 0 0 := by
  cases target with
  | whenTrue label => exact h.append (.emit fun _ => rfl)
  | whenFalse label => exact h.append (.emit fun _ => rfl)

end Emitter.Turns

open Emitter

/-- The code of a value adds it to the stack, and that of a condition leaves
nothing there. -/
structure Lowering.Balanced (l : Lowering) : Prop where
  value : l.value.Turns 0 1
  branch : ∀ target, (l.branch target).Turns 0 0

theorem Lowering.Balanced.ofValue {value : Emitter} (h : value.Turns 0 1) :
    (Lowering.ofValue value).Balanced :=
  ⟨h, h.jumpOn⟩

theorem Lowering.Balanced.connect {lhs rhs : Lowering} (op : Connective) (hl : lhs.Balanced)
    (hr : rhs.Balanced) : (Lowering.connect op lhs rhs).Balanced where
  value := by
    refine Turns.append (k := 2) (hl.value.append (.emit fun height => ?_)) ?_
    · cases op <;> rfl
    · refine .withFresh fun join => ?_
      exact Turns.append (k := 1)
        (Turns.append (k := 0) (.emit fun _ => rfl) hr.value) (.emit fun _ => rfl)
  branch target := by
    have hskip : ∀ (first second : BranchTarget) (skip : Nat),
        (lhs.branch first ++ rhs.branch second ++ emit [.jumpdest skip]).Turns 0 0 :=
      fun first second skip =>
        .append (k := 0) ((hl.branch first).append (hr.branch second)) (.emit fun _ => rfl)
    cases op <;> cases target
    case and.whenTrue label =>
      exact Turns.withFresh fun skip => hskip (.whenFalse skip) (.whenTrue label) skip
    case or.whenFalse label =>
      exact Turns.withFresh fun skip => hskip (.whenTrue skip) (.whenFalse label) skip
    all_goals exact (hl.branch _).append (hr.branch _)

theorem Arithmetic.turns_code (op : Arithmetic) : (emit op.code).Turns 2 1 := by
  refine .emit fun height => ?_
  cases op <;> rfl

/-- The static count is right for expressions. -/
theorem Term.IsExpression.balanced (options : CompilerOptions) {t : Term} (h : t.IsExpression) :
    (t.lower options).Balanced := by
  induction h with
  | literal l =>
      rw [Term.lower]
      refine .ofValue ?_
      rw [pushLiteral]
      split
      · exact .fail _
      · exact .push options l.value
  | arithmetic op _ _ ihl ihr =>
      rw [Term.lower]
      exact .ofValue ((ihr.value.append (ihl.value.frame 1)).append op.turns_code)
  | connective op _ _ ihl ihr =>
      rw [Term.lower]
      exact .connect op ihl ihr
  | access r _ ih =>
      rw [Term.lower]
      refine .ofValue (ih.value.append (.emit fun height => ?_))
      cases r <;> rfl

end EvmToolchain
