import EvmToolchain.Proofs.Analysis.Levels
import EvmToolchain.Proofs.Compiler.Placed
import EvmToolchain.Proofs.Compiler.Resolved
import EvmToolchain.Proofs.Compiler.Statement

/-!
# EvmToolchain.Proofs.Compiler.Levels

Compiled code has levels: every instruction is executed at one stack height.

The level of an offset is the height that is counted up to it (`heightAt`). A
stretch of code is supplied if its instructions find their operands at the heights
that are counted, and each jump goes to a label at the height that the jump leaves
(`Supplied`). That depends on where labels are placed, so it is said of code in its
place in a stream (`Emitter.Supplies`). The labels of connectives are placed by the
code that jumps to them (`Emitter.Supplies.place`); those that have a name stand
between statements, where the height is zero (`Compilation.heightAt_offset`).
-/

namespace EvmToolchain

open Instruction Assembly Emitter

/-! ### Heights at offsets -/

/-- The height of the stack that is counted up to an offset of some code. -/
def heightAt (height : Nat) : List Instruction → Nat → Nat
  | [], _ => height
  | i :: rest, pc =>
    if pc < i.length then height else heightAt (i.heightAfter height) rest (pc - i.length)

section

variable {height pc : Nat} {is a b : List Instruction}

theorem heightAt_append {k : Nat} :
    heightAt height (a ++ b) (codeSize a + k) = heightAt (heightAfter height a) b k := by
  induction a generalizing height with
  | nil => rw [List.nil_append, codeSize_nil, Nat.zero_add, heightAfter]
  | cons i a ih =>
      rw [List.cons_append, heightAt, codeSize_cons, if_neg (by omega), Nat.add_assoc,
        Nat.add_sub_cancel_left, ih, heightAfter]

/-- What has no length is data without bytes, which leave the stack alone. -/
theorem heightAfter_of_length_eq_zero {i : Instruction} (h : i.length = 0) :
    i.heightAfter height = height := by
  unfold Instruction.length at h
  split at h
  · omega
  · next hm =>
    simp [Instruction.heightAfter, stackEffect, hm]
  · cases h
  · cases h

theorem heightAt_zero : heightAt height a 0 = height := by
  induction a generalizing height with
  | nil => rfl
  | cons i a ih =>
      rw [heightAt]
      split
      · rfl
      · next hlen =>
        rw [Nat.zero_sub, ih, heightAfter_of_length_eq_zero (Nat.eq_zero_of_not_pos hlen)]

theorem heightAt_codeSize : heightAt height (a ++ b) (codeSize a) = heightAfter height a := by
  rw [← Nat.add_zero (codeSize a), heightAt_append, heightAt_zero]

/-- The height at the end of a part of a stream is counted from the height at its
start. -/
theorem heightAt_placed (h : PlacedAt is pc a) :
    heightAt 0 is (pc + codeSize a) = heightAfter (heightAt 0 is pc) a := by
  obtain ⟨pre, post, rfl, rfl⟩ := h
  rw [← codeSize_append, heightAt_codeSize, heightAfter_append, List.append_assoc,
    heightAt_codeSize]

end

/-! ### Supplied code -/

/-- The stream places the label at the height. -/
def LabelLevel (is : List Instruction) (label : Int) (height : Nat) : Prop :=
  ∃ pc, LabelAt is (some label) pc ∧ heightAt 0 is pc = height

/-- Code of a stream in which instructions find their operands, when it is entered at
the height, and jumps go to labels at the height that they leave. -/
inductive Supplied (is : List Instruction) : Nat → List Instruction → Prop
  | nil {height : Nat} : Supplied is height []
  | plain {height : Nat} {i : Instruction} {effect : StackEffect} {rest : List Instruction} :
      i.canBranch = false → i.isSupported = true → i.stackEffect = .ok effect →
      effect.pops ≤ height → Supplied is (i.heightAfter height) rest →
      Supplied is height (i :: rest)
  | jump {height : Nat} {label : Int} {i : Instruction} {effect : StackEffect}
      {rest : List Instruction} :
      i.canBranch = true → i.isSupported = true → i.stackEffect = .ok effect →
      effect.pops ≤ height + 1 → LabelLevel is label (i.heightAfter (height + 1)) →
      Supplied is (i.heightAfter (height + 1)) rest →
      Supplied is height (.pushLabel label :: i :: rest)

namespace Supplied

variable {is a b : List Instruction} {height : Nat}

theorem append (ha : Supplied is height a) (hb : Supplied is (heightAfter height a) b) :
    Supplied is height (a ++ b) := by
  induction ha with
  | nil => exact hb
  | plain hbranch hsupported heffect hpops _ ih =>
      exact .plain hbranch hsupported heffect hpops (ih hb)
  | jump hbranch hsupported heffect hpops hlabel _ ih =>
      exact .jump hbranch hsupported heffect hpops hlabel (ih hb)

/-- An opcode that is no jump, and what follows it. -/
theorem op {o : Opcode} {rest : List Instruction} (hbranch : (Instruction.op o).canBranch = false)
    (hsupported : o.isSupported = true) (hpops : o.pops ≤ height)
    (hrest : Supplied is ((Instruction.op o).heightAfter height) rest) :
    Supplied is height (.op o :: rest) :=
  .plain hbranch hsupported rfl hpops hrest

/-- What follows a part of the code is supplied at the height that is counted for it,
unless the part ends between the push of a label and its jump. -/
theorem suffix (h : Supplied is height a) {pre post : List Instruction} (heq : a = pre ++ post) :
    Supplied is (heightAfter height pre) post ∨
      ∃ front label, pre = front ++ [.pushLabel label] ∧
        Supplied is (heightAfter height front) (.pushLabel label :: post) := by
  induction h generalizing pre with
  | nil =>
      obtain ⟨rfl, rfl⟩ := List.append_eq_nil_iff.mp heq.symm
      exact Or.inl .nil
  | plain hbranch hsupported heffect hpops hrest ih =>
      cases pre with
      | nil =>
          obtain rfl := heq
          exact Or.inl (.plain hbranch hsupported heffect hpops hrest)
      | cons first pre =>
          obtain ⟨rfl, hpre⟩ := List.cons.inj heq
          rcases ih hpre with hpost | ⟨front, label, rfl, hpost⟩
          · exact Or.inl hpost
          · exact Or.inr ⟨_ :: front, label, rfl, hpost⟩
  | @jump height label _ _ _ hbranch hsupported heffect hpops hlabel hrest ih =>
      have hwhole := jump hbranch hsupported heffect hpops hlabel hrest
      match pre, heq with
      | [], heq =>
          obtain rfl := heq
          exact Or.inl hwhole
      | [first], heq =>
          obtain ⟨rfl, rfl⟩ := List.cons.inj heq
          exact Or.inr ⟨[], label, rfl, hwhole⟩
      | first :: second :: pre, heq =>
          obtain ⟨rfl, hsecond⟩ := List.cons.inj heq
          obtain ⟨rfl, hpre⟩ := List.cons.inj hsecond
          rcases ih hpre with hpost | ⟨front, label', rfl, hpost⟩
          · exact Or.inl hpost
          · exact Or.inr ⟨_ :: _ :: front, label', rfl, hpost⟩

/-- The jump behind the push of a label. -/
theorem jump_inv {label : Int} {i : Instruction} {post : List Instruction}
    (h : Supplied is height (.pushLabel label :: i :: post)) :
    i.canBranch = true ∧ i.isSupported = true ∧
      (∃ effect, i.stackEffect = .ok effect ∧ effect.pops ≤ height + 1) ∧
      LabelLevel is label (i.heightAfter (height + 1)) := by
  cases h with
  | plain _ hsupported => cases hsupported
  | jump hbranch hsupported heffect hpops hlabel _ =>
      exact ⟨hbranch, hsupported, ⟨_, heffect, hpops⟩, hlabel⟩

/-- Each instruction finds its operands at the height that is counted for it. It is
supported, unless it is the push of a label. -/
theorem operands (h : Supplied is height a) {pre post : List Instruction} {i : Instruction}
    (heq : a = pre ++ i :: post) :
    (i.isSupported = true ∨ ∃ label, i = .pushLabel label) ∧
      ∃ effect, i.stackEffect = .ok effect ∧ effect.pops ≤ heightAfter height pre := by
  rcases h.suffix heq with hpost | ⟨front, label, rfl, hpost⟩
  · cases hpost with
    | plain _ hsupported heffect hpops _ => exact ⟨Or.inl hsupported, _, heffect, hpops⟩
    | jump => exact ⟨Or.inr ⟨_, rfl⟩, _, rfl, Nat.zero_le _⟩
  · obtain ⟨-, hsupported, hoperands, -⟩ := hpost.jump_inv
    rw [heightAfter_append]
    exact ⟨Or.inl hsupported, hoperands⟩

/-- Before each jump stands the push of a label, at the height that the jump leaves. -/
theorem exists_pushLabel (h : Supplied is height a) {pre post : List Instruction}
    {i : Instruction} (heq : a = pre ++ i :: post) (hi : i.canBranch = true) :
    ∃ front label, pre = front ++ [.pushLabel label] ∧
      LabelLevel is label (i.heightAfter (heightAfter height pre)) := by
  rcases h.suffix heq with hpost | ⟨front, label, rfl, hpost⟩
  · cases hpost with
    | plain hbranch =>
        rw [hbranch] at hi
        cases hi
    | jump => cases hi
  · obtain ⟨-, -, -, hlabel⟩ := hpost.jump_inv
    rw [heightAfter_append]
    exact ⟨front, label, rfl, hlabel⟩

end Supplied

/-! ### Emitted code is supplied -/

/-- The emitted code leaves `n` items where it finds `m`, and wherever it is placed in
the stream with `m` items above some height, it is supplied, given a property of the
height. -/
structure Emitter.Supplies (is : List Instruction) (P : Nat → Prop) (e : Emitter) (m n : Nat) :
    Prop where
  turns : e.Turns m n
  supplied : ∀ ⦃before code after⦄, e.Yields before code after →
    ∀ pc height, PlacedAt is pc code → heightAt 0 is pc = height + m → P height →
      Supplied is (height + m) code

namespace Emitter.Supplies

variable {is : List Instruction} {P Q : Nat → Prop} {a b e : Emitter} {k m n : Nat}

theorem emit {code : List Instruction} (hturns : ∀ height, heightAfter (height + m) code = height + n)
    (h : ∀ height, P height → Supplied is (height + m) code) : (emit code).Supplies is P m n where
  turns := .emit hturns
  supplied := by
    intro before code' after hyields pc height _ _ hP
    obtain ⟨rfl, -⟩ := yields_emit.mp hyields
    exact h height hP

/-- A single opcode that is no jump. -/
theorem op {o : Opcode} (hbranch : (Instruction.op o).canBranch = false)
    (hsupported : o.isSupported = true) (hpops : o.pops ≤ m) (hpushes : m - o.pops + o.pushes = n) :
    (Emitter.emit [.op o]).Supplies is P m n := by
  refine .emit (fun height => ?_) fun _ _ =>
    .op hbranch hsupported (Nat.le_add_left_of_le hpops) .nil
  show height + m - o.pops + o.pushes = height + n
  omega

theorem jumpdest (label : Int) : (Emitter.emit [.jumpdest label]).Supplies is P m m :=
  .emit (fun _ => rfl) fun _ _ => .plain rfl rfl rfl (Nat.zero_le _) .nil

theorem fail (e : CompileError) : (fail e).Supplies is P m n where
  turns := .fail e
  supplied := fun _ _ _ hyields => absurd hyields not_yields_fail

theorem push (options : CompilerOptions) (value : Nat) :
    (push options value).Supplies is P m (m + 1) where
  turns := by
    intro before code after hyields height
    obtain ⟨data, rfl, -⟩ := yields_push hyields
    rfl
  supplied := by
    intro before code after hyields pc height _ _ _
    obtain ⟨data, rfl, -⟩ := yields_push hyields
    exact .plain rfl rfl rfl (Nat.zero_le _) .nil

theorem pushSlot (options : CompilerOptions) (slot : Nat) :
    (pushSlot options slot).Supplies is P m (m + 1) := by
  have hpush : (Emitter.push options (slot * options.slotSize.getD 0)).Supplies is P m (m + 1) :=
    push options _
  exact ⟨fun _ _ _ hyields => hpush.turns (yields_pushSlot hyields),
    fun _ _ _ hyields => hpush.supplied (yields_pushSlot hyields)⟩

theorem mono (h : e.Supplies is P m n) (hPQ : ∀ height, Q height → P height) :
    e.Supplies is Q m n where
  turns := h.turns
  supplied := fun _ _ _ hyields pc height hplaced hheight hQ =>
    h.supplied hyields pc height hplaced hheight (hPQ height hQ)

/-- Items below those that the code looks at do not matter. -/
theorem frame (h : e.Supplies is (fun _ => True) m n) (k : Nat) :
    e.Supplies is P (m + k) (n + k) where
  turns := h.turns.frame k
  supplied := by
    intro before code after hyields pc height hplaced hheight _
    rw [Nat.add_comm m k, ← Nat.add_assoc] at hheight ⊢
    exact h.supplied hyields pc (height + k) hplaced hheight trivial

theorem append (ha : a.Supplies is P m k) (hb : b.Supplies is P k n) :
    (a ++ b).Supplies is P m n where
  turns := ha.turns.append hb.turns
  supplied := by
    intro before code after hyields pc height hplaced hheight hP
    obtain ⟨first, middle, second, hfirst, hsecond, rfl⟩ := yields_append.mp hyields
    have hmiddle : heightAt 0 is (pc + codeSize first) = height + k := by
      rw [heightAt_placed hplaced.left, hheight, ha.turns hfirst]
    refine (ha.supplied hfirst pc height hplaced.left hheight hP).append ?_
    rw [ha.turns hfirst]
    exact hb.supplied hsecond _ height hplaced.right hmiddle hP

theorem withFresh {k : Nat → Emitter} (h : ∀ label, (k label).Supplies is P m n) :
    (withFresh k).Supplies is P m n where
  turns := .withFresh fun label => (h label).turns
  supplied := fun _ _ _ hyields => (h _).supplied (yields_withFresh.mp hyields)

theorem withNamed {name : String} {k : Nat → Emitter} (h : ∀ label, (k label).Supplies is P m n) :
    (withNamed name k).Supplies is P m n where
  turns := fun _ _ _ hyields => (h _).turns (yields_withNamed.mp hyields)
  supplied := fun _ _ _ hyields => (h _).supplied (yields_withNamed.mp hyields)

/-- Code may jump to a label that is placed right behind it. -/
theorem place {label : Int}
    (h : e.Supplies is (fun height => P height ∧ LabelLevel is label (height + n)) m n) :
    (e ++ Emitter.emit [.jumpdest label]).Supplies is P m n where
  turns := h.turns.append (.emit fun _ => rfl)
  supplied := by
    intro before code after hyields pc height hplaced hheight hP
    -- the label is placed at the height that the code leaves
    obtain ⟨first, middle, last, hfirst, hlast, rfl⟩ := id (yields_append.mp hyields)
    obtain ⟨rfl, -⟩ := yields_emit.mp hlast
    have hlabel : LabelLevel is label (height + n) := by
      refine ⟨pc + codeSize first, ⟨_, rfl, rfl, hplaced.right⟩, ?_⟩
      rw [heightAt_placed hplaced.left, hheight, h.turns hfirst]
    exact (h.append (jumpdest label)).supplied hyields pc height hplaced hheight ⟨hP, hlabel⟩

/-- A value is looked at by a jump, whose target is at the height below it. -/
theorem jumpOn (h : e.Supplies is (fun _ => True) 0 1) (target : BranchTarget) :
    (e.jumpOn target).Supplies is (LabelLevel is target.label) 0 0 := by
  have hjump : ∀ {label height}, LabelLevel is label height →
      Supplied is (height + 1) [.pushLabel label, .op .jumpi] := fun hlabel =>
    .jump rfl rfl rfl (Nat.le_add_left _ _) hlabel .nil
  have hvalue := h.mono (Q := LabelLevel is target.label) fun _ _ => trivial
  cases target with
  | whenTrue label => exact hvalue.append (.emit (fun _ => rfl) fun _ => hjump)
  | whenFalse label =>
      exact hvalue.append (.emit (fun _ => rfl) fun height hlabel =>
        .op rfl rfl (Nat.le_add_left 1 height) (hjump hlabel))

end Emitter.Supplies

/-! ### Expressions -/

/-- Both ways to lower a term emit supplied code. A condition jumps to a label at the
height at which it is entered. -/
structure Lowering.Supplies (is : List Instruction) (l : Lowering) : Prop where
  value : l.value.Supplies is (fun _ => True) 0 1
  branch : ∀ target, (l.branch target).Supplies is (LabelLevel is target.label) 0 0

namespace Lowering.Supplies

variable {is : List Instruction} {value : Emitter} {lhs rhs : Lowering}

theorem ofValue (h : value.Supplies is (fun _ => True) 0 1) :
    (Lowering.ofValue value).Supplies is :=
  ⟨h, h.jumpOn⟩

theorem connect (op : Connective) (hl : lhs.Supplies is) (hr : rhs.Supplies is) :
    (Lowering.connect op lhs rhs).Supplies is where
  value := by
    have htest : (emit op.testCode).Supplies is (fun _ => True) 1 2 := by
      refine .emit op.heightAfter_testCode fun height _ => ?_
      have hdup : ∀ {rest}, Supplied is (height + 2) rest →
          Supplied is (height + 1) (dupTop :: rest) :=
        .op (o := .dup (Fin.ofNat 16 0)) rfl rfl (Nat.le_add_left 1 height)
      cases op with
      | and => exact hdup (.op rfl rfl (Nat.le_add_left 1 (height + 1)) .nil)
      | or => exact hdup .nil
    -- the right operand replaces the left one, so the join is entered one item higher
    have hdrop : ∀ join : Nat, (emit [.pushLabel join, .op .jumpi, .op .pop]).Supplies is
        (fun height => True ∧ LabelLevel is join (height + 1)) 2 0 := fun join =>
      .emit (fun _ => rfl) fun height hjoin => .jump rfl rfl rfl (Nat.le_add_left _ _) hjoin.2
        (.op rfl rfl (Nat.le_add_left 1 height) .nil)
    have hrest : (withFresh fun join =>
        emit [.pushLabel join, .op .jumpi, .op .pop] ++ rhs.value
          ++ emit [.jumpdest join]).Supplies is (fun _ => True) 2 1 :=
      .withFresh fun join => ((hdrop join).append (hr.value.frame 0)).place
    have hfirst := (hl.value.append htest).append hrest
    cases op <;> exact hfirst
  branch target := by
    have hboth : ∀ {first second : BranchTarget} {P : Nat → Prop},
        (∀ height, P height → LabelLevel is first.label height) →
        (∀ height, P height → LabelLevel is second.label height) →
        (lhs.branch first ++ rhs.branch second).Supplies is P 0 0 := fun hfirst hsecond =>
      ((hl.branch _).mono hfirst).append ((hr.branch _).mono hsecond)
    have hskip : ∀ (first second : BranchTarget), (lhs.branch first ++ rhs.branch second
        ++ emit [.jumpdest first.label]).Supplies is (LabelLevel is second.label) 0 0 :=
      fun first second => .place (hboth (fun _ h => h.2) fun _ h => h.1)
    cases op <;> cases target
    case and.whenTrue label =>
      exact .withFresh fun skip => hskip (.whenFalse skip) (.whenTrue label)
    case or.whenFalse label =>
      exact .withFresh fun skip => hskip (.whenTrue skip) (.whenFalse label)
    all_goals exact hboth (fun _ => id) fun _ => id

end Lowering.Supplies

theorem Arithmetic.supplies_code (op : Arithmetic) (is : List Instruction) :
    (emit op.code).Supplies is (fun _ => True) 2 1 := by
  refine .emit (fun height => by cases op <;> rfl) fun height _ => ?_
  have hfirst : ∀ {o rest}, (Instruction.op o).canBranch = false → o.isSupported = true →
      o.pops = 2 → Supplied is ((Instruction.op o).heightAfter (height + 2)) rest →
      Supplied is (height + 2) (.op o :: rest) := fun hbranch hsupported hpops =>
    .op hbranch hsupported (hpops ▸ Nat.le_add_left 2 height)
  have hnot : Supplied is (height + 1) [.op .isZero] :=
    .op rfl rfl (Nat.le_add_left 1 height) .nil
  cases op with
  | notEquals | lessOrEquals | greaterOrEquals => exact hfirst rfl rfl rfl hnot
  | _ => exact hfirst rfl rfl rfl .nil

/-- The code of expressions is supplied wherever it is placed. -/
theorem Term.IsExpression.supplies (options : CompilerOptions) (is : List Instruction) {t : Term}
    (h : t.IsExpression) : (t.lower options).Supplies is := by
  induction h with
  | literal l =>
      rw [Term.lower]
      refine .ofValue ?_
      rw [pushLiteral]
      split
      · exact .fail _
      · exact .push options l.value
  | arithmetic op _ _ ihl ihr =>
      rw [Term.lower]
      -- the right operand is on the stack while the left one is computed
      exact .ofValue ((ihr.value.append (ihl.value.frame 1)).append (op.supplies_code is))
  | connective op _ _ ihl ihr =>
      rw [Term.lower]
      exact .connect op ihl ihr
  | access r _ ih =>
      rw [Term.lower]
      refine .ofValue (ih.value.append ?_)
      cases r <;> exact .op rfl rfl (Nat.le_refl 1) rfl

/-! ### Statements -/

section

variable (options : CompilerOptions) (is : List Instruction) {values : List Term} {o : Opcode}

theorem supplies_lowerSlots (hvalues : ∀ t ∈ values, t.IsExpression) (slot : Nat) :
    (lowerSlots options slot values).Supplies is (fun _ => True) 0 0 := by
  induction values generalizing slot with
  | nil =>
      rw [lowerSlots]
      exact .emit (fun _ => rfl) fun _ _ => .nil
  | cons t values ih =>
      have hvalue := ((hvalues t List.mem_cons_self).supplies options is).value
      rw [lowerSlots]
      exact ((hvalue.append (.pushSlot options slot)).append
        (.op (o := .mstore) rfl rfl (Nat.le_refl 2) rfl)).append
          (ih (fun u hu => hvalues u (List.mem_cons_of_mem _ hu)) _)

theorem supplies_lowerResult (hvalues : ∀ t ∈ values, t.IsExpression)
    (hlast : (emit [.op o]).Supplies is (fun _ => True) 2 0) :
    (lowerResult options (.op o) values).Supplies is (fun _ => True) 0 0 := by
  rw [lowerResult]
  exact (((supplies_lowerSlots options is hvalues 0).append (.pushSlot options _)).append
    (.push options 0)).append hlast

/-- The code of a statement that goes to no name is supplied wherever it is placed. -/
theorem Term.IsStatement.supplies {t : Term} (h : t.IsStatement)
    (hgoto : ∀ name, t ≠ .goto name) (hifGoto : ∀ condition name, t ≠ .ifGoto condition name) :
    (t.lower options).value.Supplies is (fun _ => True) 0 0 := by
  cases h with
  | assert hcondition =>
      rw [Term.lower, Lowering.value_ofValue]
      refine .withFresh fun label => ?_
      -- the label of the success is placed behind the failure
      have hfails := ((hcondition.supplies options is).branch (.whenTrue label)).append
        (b := emit [.op .invalid]) (.op rfl rfl (Nat.le_refl 0) rfl)
      exact Emitter.append_assoc _ (emit [.op .invalid]) (emit [.jumpdest label]) ▸
        (hfails.mono fun _ h => h.2).place
  | assignMemory hindex hvalue | assignStorage hindex hvalue =>
      rw [Term.lower, Lowering.value_ofValue]
      exact (hvalue.supplies options is).value.append
        (((hindex.supplies options is).value.frame 1).append (.op rfl rfl (Nat.le_refl 2) rfl))
  | fail | stop =>
      rw [Term.lower, Lowering.value_ofValue]
      exact .op rfl rfl (Nat.le_refl 0) rfl
  | goto name => exact absurd rfl (hgoto name)
  | ifGoto name _ => exact absurd rfl (hifGoto _ name)
  | label name =>
      rw [Term.lower, Lowering.value_ofValue]
      exact .withNamed fun label => .jumpdest label
  | revert hvalues =>
      rw [Term.lower, Lowering.value_ofValue]
      exact supplies_lowerResult options is hvalues (.op rfl rfl (Nat.le_refl 2) rfl)
  | @succeed values hvalues =>
      cases values with
      | nil =>
          rw [Term.lower, Lowering.value_ofValue]
          exact .op rfl rfl (Nat.le_refl 0) rfl
      | cons t rest =>
          simp only [Term.lower, Lowering.value_ofValue]
          exact supplies_lowerResult options is hvalues (.op rfl rfl (Nat.le_refl 2) rfl)

/-- The code of a statement leaves the stack as high as it was. -/
theorem Term.IsStatement.turns {t : Term} (h : t.IsStatement) :
    (t.lower options).value.Turns 0 0 := by
  have hsupplies := h.supplies options []
  cases h
  case goto name =>
    rw [Term.lower, Lowering.value_ofValue]
    intro before code after hyields height
    obtain ⟨rfl, -⟩ := yields_emit.mp (yields_withNamed.mp hyields)
    rfl
  case ifGoto condition name hcondition =>
    rw [Term.lower, Lowering.value_ofValue]
    intro before code after hyields
    exact ((hcondition.supplies options []).branch _).turns (yields_withNamed.mp hyields)
  all_goals exact (hsupplies nofun nofun).turns

end

/-! ### Programs -/

/-- What is read in the place of an instruction has its effect, and is supported if
the instruction is or if a label was resolved. -/
theorem Assembled.effect_decodeAt {is : List Instruction} {code : Bytes} (h : Assembled is code)
    {pc : Nat} {i : Instruction} (hi : PlacedAt is pc [i]) (hassemblable : i.Assemblable) :
    (decodeAt code pc).stackEffect = i.stackEffect ∧
      (i.isSupported = true ∨ (∃ label, i = .pushLabel label) →
        (decodeAt code pc).isSupported = true) := by
  obtain ⟨placed, -, hplaced, -⟩ := h.exists_placements
  rw [h.decodeAt_placed hplaced hassemblable.linkable hi]
  rcases hassemblable with hreadable | ⟨label, rfl⟩
  · refine ⟨by cases hreadable <;> rfl, ?_⟩
    rintro (hsupported | ⟨label, rfl⟩)
    · cases hreadable <;> exact hsupported
    · cases hreadable
  · exact ⟨rfl, fun _ => rfl⟩

section

variable {is : List Instruction} {codes : List (List Instruction)}

theorem heightAfter_flatten (h : ∀ code ∈ codes, heightAfter 0 code = 0) :
    heightAfter 0 codes.flatten = 0 := by
  induction codes with
  | nil => rfl
  | cons code rest ih =>
      obtain ⟨hcode, hrest⟩ := List.forall_mem_cons.mp h
      rw [List.flatten_cons, heightAfter_append, hcode, ih hrest]

theorem peak_flatten_le {bound : Nat} (h : ∀ code ∈ codes, heightAfter 0 code = 0)
    (hpeak : ∀ code ∈ codes, peak 0 code ≤ bound) : peak 0 codes.flatten ≤ bound := by
  induction codes with
  | nil => exact Nat.zero_le _
  | cons code rest ih =>
      obtain ⟨hcode, hrest⟩ := List.forall_mem_cons.mp h
      obtain ⟨hpeak, hpeaks⟩ := List.forall_mem_cons.mp hpeak
      rw [List.flatten_cons, peak_append_le, hcode]
      exact ⟨hpeak, ih hrest hpeaks⟩

theorem Supplied.flatten (h : ∀ code ∈ codes, heightAfter 0 code = 0)
    (hsupplied : ∀ code ∈ codes, Supplied is 0 code) : Supplied is 0 codes.flatten := by
  induction codes with
  | nil => exact .nil
  | cons code rest ih =>
      obtain ⟨hcode, hrest⟩ := List.forall_mem_cons.mp h
      obtain ⟨hfirst, hsupplied⟩ := List.forall_mem_cons.mp hsupplied
      refine hfirst.append ?_
      rw [hcode]
      exact ih hrest hsupplied

end

namespace Compilation

variable {x : Compilation} {index k : Nat} {t : Term} {name : String} {before after : Labels}
  {code : List Instruction}

theorem heightAfter_code (h : code ∈ statementCodes x.options {} x.statements) :
    heightAfter 0 code = 0 := by
  obtain ⟨index, hindex⟩ := List.mem_iff_getElem?.mp h
  obtain ⟨t, before, after, ht, hstands⟩ := exists_stands_of_code hindex
  exact (x.isStatement t (List.mem_of_getElem? ht)).turns x.options hstands.yields 0

/-- The stack is empty between statements. -/
theorem heightAt_offset (index : Nat) : heightAt 0 x.stream (x.offset index) = 0 := by
  have hsplit : x.stream = ((statementCodes x.options {} x.statements).take index).flatten
      ++ ((statementCodes x.options {} x.statements).drop index).flatten := by
    rw [stream_eq, ← List.flatten_append, List.take_append_drop]
  rw [hsplit, offset, heightAt_codeSize]
  exact heightAfter_flatten fun code hcode => heightAfter_code (List.mem_of_mem_take hcode)

/-- A label that is pushed for a name is placed between statements. -/
theorem labelLevel_of_find? (h : x.Stands index t before code after)
    (hfind : after.find? name = some k) (hpush : .pushLabel (k : Int) ∈ code) :
    LabelLevel x.stream k 0 := by
  obtain ⟨i, -, hlabel⟩ := exists_label h hfind hpush
  exact ⟨_, hlabel, heightAt_offset i⟩

theorem supplied_goto (h : x.Stands index (.goto name) before code after) :
    Supplied x.stream 0 code := by
  obtain ⟨-, -, hfind⟩ := h.wellFormed.named name
  have hyields := h.yields
  rw [Term.lower, Lowering.value_ofValue, yields_withNamed] at hyields
  obtain ⟨rfl, rfl⟩ := yields_emit.mp hyields
  exact .jump rfl rfl rfl (Nat.le_refl 1) (labelLevel_of_find? h hfind List.mem_cons_self) .nil

theorem supplied_ifGoto {condition : Term} (hcondition : condition.IsExpression)
    (h : x.Stands index (.ifGoto condition name) before code after) :
    Supplied x.stream 0 code := by
  obtain ⟨-, -, hfind⟩ := h.wellFormed.named name
  have hyields := h.yields
  rw [Term.lower, Lowering.value_ofValue, yields_withNamed] at hyields
  -- the code of the condition names no more labels
  obtain ⟨hnames, -⟩ := hcondition.placesOwn.branch _ hyields
  have hfind : after.find? name = some (before.named name).1 := by
    rw [← hfind, Labels.find?, Labels.find?, hnames]
  have hlabel := labelLevel_of_find? h hfind
    (hcondition.pushesTarget x.options (.whenTrue _) hyields)
  exact ((hcondition.supplies x.options x.stream).branch (.whenTrue _)).supplied hyields _ 0
    h.placed (heightAt_offset index) hlabel

/-- The code of each statement is supplied. -/
theorem supplied_code (ht : t.IsStatement) (h : x.Stands index t before code after) :
    Supplied x.stream 0 code := by
  have hsupplies := ht.supplies x.options x.stream
  cases ht
  case goto name => exact supplied_goto h
  case ifGoto condition name hcondition => exact supplied_ifGoto hcondition h
  all_goals
    exact (hsupplies nofun nofun).supplied h.yields _ 0 h.placed (heightAt_offset index) trivial

theorem supplied_stream : Supplied x.stream 0 x.stream := by
  have hcodes : Supplied x.stream 0 (statementCodes x.options {} x.statements).flatten := by
    refine .flatten (fun _ => heightAfter_code) fun code hcode => ?_
    obtain ⟨index, hindex⟩ := List.mem_iff_getElem?.mp hcode
    obtain ⟨t, before, after, ht, hstands⟩ := exists_stands_of_code hindex
    exact supplied_code (x.isStatement t (List.mem_of_getElem? ht)) hstands
  rwa [← stream_eq] at hcodes

theorem peak_stream_le : peak 0 x.stream ≤ maxStack := by
  rw [stream_eq]
  exact peak_flatten_le (fun _ => heightAfter_code) x.fits

theorem fed : Fed x.stream := by
  have hfed := emitsFed_lowerAll x.options x.statements {}
  rwa [x.yields] at hfed

/-- The instruction that is read at an offset of the code is one of the stream, and
the height there is the one that is counted up to it. -/
structure Reads (x : Compilation) (pc : Nat) (pre : List Instruction) (i : Instruction)
    (post : List Instruction) : Prop where
  stream_eq : x.stream = pre ++ i :: post
  offset_eq : pc = codeSize pre
  level_eq : heightAt 0 x.stream pc = heightAfter 0 pre
  next_eq : heightAt 0 x.stream (pc + (decodeAt x.code pc).length)
    = i.heightAfter (heightAfter 0 pre)
  effect_eq : (decodeAt x.code pc).stackEffect = i.stackEffect
  isSupported_eq : (decodeAt x.code pc).isSupported = true
  canBranch_eq : (decodeAt x.code pc).canBranch = i.canBranch

theorem exists_reads {pc : Nat} (hwalk : Walk x.code 0 pc) (hlt : pc < x.code.size) :
    ∃ pre i post, x.Reads pc pre i post := by
  obtain ⟨i, hi⟩ := x.assembled.exists_placedAt hwalk hlt
  have hassemblable := fed.assemblable i hi.mem
  have hnext := heightAt_placed hi
  obtain ⟨heffect, hsupported⟩ := x.assembled.effect_decodeAt hi hassemblable
  have hbranch := x.assembled.canBranch_decodeAt hi hassemblable
  have hlen := x.assembled.length_decodeAt hi
  obtain ⟨pre, post, heq, rfl⟩ := hi
  rw [List.append_assoc, List.singleton_append] at heq
  have hlevel : heightAt 0 x.stream (codeSize pre) = heightAfter 0 pre := by
    rw [heq, heightAt_codeSize]
  rw [hlevel] at hnext
  exact ⟨pre, i, post, heq, rfl, hlevel, hlen ▸ hnext, heffect,
    hsupported (x.supplied_stream.operands heq).1, hbranch⟩

/-- The heights that are counted are levels of the code. -/
theorem leveled (x : Compilation) : Leveled x.code (heightAt 0 x.stream) where
  start := heightAt_zero
  supported := by
    intro pc hwalk hlt
    obtain ⟨pre, i, post, hreads⟩ := exists_reads hwalk hlt
    exact hreads.isSupported_eq
  fits := by
    intro pc effect hwalk hlt heffect
    obtain ⟨pre, i, post, hreads⟩ := exists_reads hwalk hlt
    rw [hreads.effect_eq] at heffect
    obtain ⟨-, effect', heffect', hpops⟩ := x.supplied_stream.operands hreads.stream_eq
    obtain rfl := Except.ok.inj (heffect.symm.trans heffect')
    have hpeak := peak_stream_le (x := x)
    rw [hreads.stream_eq, peak_append_le] at hpeak
    have hroom := room_of_peak hpeak.2
    rw [Instruction.heightAfter, heffect] at hroom
    rw [hreads.level_eq]
    exact ⟨hpops, hroom⟩
  next := by
    intro pc effect hwalk hlt heffect
    obtain ⟨pre, i, post, hreads⟩ := exists_reads hwalk hlt
    rw [hreads.effect_eq] at heffect
    rw [hreads.next_eq, hreads.level_eq, Instruction.heightAfter, heffect]
  jump := by
    intro pc hwalk hlt hbranch
    obtain ⟨pre, i, post, hreads⟩ := exists_reads hwalk hlt
    rw [hreads.canBranch_eq] at hbranch
    obtain ⟨front, label, rfl, dest, hdest, hlevel⟩ :=
      x.supplied_stream.exists_pushLabel hreads.stream_eq hbranch
    have hpush : PlacedAt x.stream (codeSize front) [.pushLabel label] :=
      ⟨front, i :: post, hreads.stream_eq, rfl⟩
    obtain ⟨data, hjump, hlabel⟩ := x.assembled.fedJump hpush
    -- the label has one place, so the jump goes where the stream places it
    obtain rfl := x.assembled.labelAt_unique hlabel hdest
    refine ⟨codeSize front, data, ?_, ?_⟩
    · rw [hreads.offset_eq, codeSize_append]
      exact hjump
    · rw [hlevel, hreads.next_eq]

end Compilation

namespace Session

/-- The analysis of compiled code tracks the exact height of the stack. For all
statements that compile to code that assembles, if the code of none of them needs
more than the stack can hold, there is one height for each offset of the code: whenever
a run is at an instruction, its stack has that height and the state of the analysis
there has as many slots. No run halts for lack of operands or room, for a jump or for
an unsupported instruction. -/
theorem compileAll_tracksHeights {options : CompilerOptions} {statements : List Term}
    {s : Session} {bytes : List UInt8} (hstatements : ∀ t ∈ statements, t.IsStatement)
    (hcompile : ({ options } : Session).compileAll statements = (s, .ok ()))
    (hassemble : s.assemble = .ok bytes)
    (hfits : ∀ code ∈ statementCodes options {} statements, peak 0 code ≤ maxStack)
    {analysis : AnalysisOptions} (hlimit : analysis.maxPasses = none) :
    ∃ d, (Disassembly.ofCode (.ofList bytes) analysis : Disassembly Unit).refine
        (Lift.lift : Unit → StackState) = .ok d ∧
      (∃ passes, d.build.passes = .ok passes) ∧
      ∃ height : Nat → Nat, d.build.disassembly.TracksHeights (.ofList bytes) height := by
  obtain ⟨code, hcode, hinstructions⟩ := compileAll_ok hcompile
  obtain ⟨hassembled, -⟩ := assembled_of_compileAll hcompile hassemble
  rw [List.nil_append] at hinstructions
  let x : Compilation := {
    options, statements
    stream := s.instructions
    labels := s.labels
    code := .ofList bytes
    calldata := .empty
    isStatement := hstatements
    yields := by rw [hinstructions]; exact hcode
    assembled := hassembled
    fits := hfits }
  obtain ⟨d, hrefine, hpasses, htracks⟩ :=
    Disassembly.tracksHeights_of_leveled x.leveled hlimit
  exact ⟨d, hrefine, hpasses, _, htracks⟩

/-- A connective that is stored: both ways to its join leave one item on the stack. -/
theorem compileAll_tracksHeights_and :
    ∃ s, ({} : Session).compileAll [.assign (.access (.region .storage) (.literal .one))
          (.connective .and (.literal .one) (.literal .one))] = (s, .ok ()) ∧
      s.assemble = .ok [0x60, 0x01, 0x80, 0x15, 0x61, 0x00, 0x0b, 0x57, 0x50, 0x60, 0x01, 0x5b,
        0x60, 0x01, 0x55] ∧
      ∃ d, (Disassembly.ofCode (.ofList [0x60, 0x01, 0x80, 0x15, 0x61, 0x00, 0x0b, 0x57, 0x50,
          0x60, 0x01, 0x5b, 0x60, 0x01, 0x55]) {} : Disassembly Unit).refine
          (Lift.lift : Unit → StackState) = .ok d ∧
        (∃ passes, d.build.passes = .ok passes) ∧
        ∃ height : Nat → Nat, d.build.disassembly.TracksHeights (.ofList [0x60, 0x01, 0x80, 0x15,
          0x61, 0x00, 0x0b, 0x57, 0x50, 0x60, 0x01, 0x5b, 0x60, 0x01, 0x55]) height := by
  have hstatements : ∀ t ∈ [.assign (.access (.region .storage) (.literal .one))
      (.connective .and (.literal .one) (.literal .one))], Term.IsStatement t :=
    List.forall_mem_singleton.mpr
      (.assignStorage (.literal .one) (.connective .and (.literal .one) (.literal .one)))
  have hemission : ((Term.assign (.access (.region .storage) (.literal .one))
      (.connective .and (.literal .one) (.literal .one))).lower {}).value {}
        = { code := [.push [1], dupTop, .op .isZero, .pushLabel 0, .op .jumpi, .op .pop, .push [1],
              .jumpdest 0, .push [1], .op .sstore]
            labels := { next := 1 } } := by
    simp only [Term.lower, Lowering.connect, Lowering.ofValue, Region.store?,
      Emitter.pushLiteral_one]
    rfl
  have hcompile : ({} : Session).compileAll [.assign (.access (.region .storage) (.literal .one))
      (.connective .and (.literal .one) (.literal .one))]
        = ({ labels := { next := 1 }
             instructions := [.push [1], dupTop, .op .isZero, .pushLabel 0, .op .jumpi, .op .pop,
               .push [1], .jumpdest 0, .push [1], .op .sstore] }, .ok ()) := by
    simp only [compileAll, compile, run, hemission]
    rfl
  have hassemble : Assembly.assemble [.push [1], dupTop, .op .isZero, .pushLabel 0, .op .jumpi,
      .op .pop, .push [1], .jumpdest 0, .push [1], .op .sstore]
        = .ok [0x60, 0x01, 0x80, 0x15, 0x61, 0x00, 0x0b, 0x57, 0x50, 0x60, 0x01, 0x5b, 0x60, 0x01,
          0x55] := by decide
  have hfits : ∀ code ∈ statementCodes {} {} [.assign (.access (.region .storage) (.literal .one))
      (.connective .and (.literal .one) (.literal .one))], peak 0 code ≤ maxStack := by
    simp only [statementCodes, hemission]
    decide
  exact ⟨_, hcompile, hassemble,
    compileAll_tracksHeights hstatements hcompile hassemble hfits rfl⟩

end Session

end EvmToolchain
