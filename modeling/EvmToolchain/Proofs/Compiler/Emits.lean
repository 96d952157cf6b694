import EvmToolchain.Compiler.Session
import EvmToolchain.Proofs.Code.Assembled

/-!
# EvmToolchain.Proofs.Compiler.Emits

What emitters emit.

`Emitter.Yields` is the relation behind a successful emission, with one
inversion lemma for each way to put emitters together. `Fed` is what holds of
all code that terms are lowered to, failed or not: it has an encoding once its
labels are resolved, and every jump comes right after the push of the label that
it jumps to.
-/

namespace EvmToolchain

/-! ### Successful emissions -/

namespace Emitter

/-- The emitter succeeds: it emits the code and leaves the given allocator. -/
def Yields (e : Emitter) (before : Labels) (code : List Instruction) (after : Labels) : Prop :=
  e before = { code, labels := after }

variable {before after : Labels} {code : List Instruction}

theorem yields_of_failure {e : Emitter} (h : (e before).failure = none) :
    e.Yields before (e before).code (e before).labels := by
  rw [Yields, ← h]

theorem yields_emit {c : List Instruction} :
    (emit c).Yields before code after ↔ code = c ∧ after = before := by
  rw [Yields, emit_apply, Emission.mk.injEq]
  exact ⟨fun ⟨hcode, hlabels, _⟩ => ⟨hcode.symm, hlabels.symm⟩,
    fun ⟨hcode, hlabels⟩ => ⟨hcode.symm, hlabels.symm, rfl⟩⟩

theorem not_yields_fail {e : CompileError} : ¬ (fail e).Yields before code after := by
  rw [Yields, fail_apply, Emission.mk.injEq]
  rintro ⟨-, -, h⟩
  cases h

theorem yields_append {a b : Emitter} :
    (a ++ b).Yields before code after ↔
      ∃ first middle second, a.Yields before first middle ∧ b.Yields middle second after ∧
        code = first ++ second := by
  constructor
  · intro h
    cases ha : (a before).failure with
    | some e =>
        rw [Yields, append_apply_of_failure ha] at h
        rw [h] at ha
        cases ha
    | none =>
        rw [Yields, append_apply ha, Emission.mk.injEq] at h
        obtain ⟨rfl, rfl, hb⟩ := h
        exact ⟨_, _, _, yields_of_failure ha, yields_of_failure hb, rfl⟩
  · rintro ⟨first, middle, second, ha, hb, rfl⟩
    have hnone : (a before).failure = none := by rw [ha]
    rw [Yields, append_apply hnone, ha]
    dsimp only
    rw [hb]

theorem yields_withFresh {k : Nat → Emitter} :
    (withFresh k).Yields before code after ↔
      (k before.next).Yields { before with next := before.next + 1 } code after := Iff.rfl

theorem yields_withNamed {name : String} {k : Nat → Emitter} :
    (withNamed name k).Yields before code after ↔
      (k (before.named name).1).Yields (before.named name).2 code after := Iff.rfl

end Emitter

theorem Lowering.value_ofValue (value : Emitter) : (Lowering.ofValue value).value = value := rfl

/-! ### Code in which jumps are fed -/

/-- Code in which every jump comes right after the push of a label. -/
inductive Fed : List Instruction → Prop
  | nil : Fed []
  | plain {i : Instruction} {rest : List Instruction} :
      i.Assemblable → i.canBranch = false → Fed rest → Fed (i :: rest)
  | jump {label : Int} {i : Instruction} {rest : List Instruction} :
      i.Readable → i.canBranch = true → Fed rest → Fed (.pushLabel label :: i :: rest)

namespace Fed

variable {a b : List Instruction}

theorem append (ha : Fed a) (hb : Fed b) : Fed (a ++ b) := by
  induction ha with
  | nil => exact hb
  | plain hi hbranch _ ih => exact .plain hi hbranch ih
  | jump hi hbranch _ ih => exact .jump hi hbranch ih

theorem assemblable (h : Fed a) : ∀ i ∈ a, i.Assemblable := by
  induction h with
  | nil => simp
  | plain hi _ _ ih => exact List.forall_mem_cons.mpr ⟨hi, ih⟩
  | jump hi _ _ ih =>
      exact List.forall_mem_cons.mpr ⟨Or.inr ⟨_, rfl⟩, List.forall_mem_cons.mpr ⟨Or.inl hi, ih⟩⟩

/-- Before every jump of the code stands the push of a label. -/
theorem exists_pushLabel (h : Fed a) {pre post : List Instruction} {i : Instruction}
    (heq : a = pre ++ i :: post) (hi : i.canBranch = true) :
    ∃ front label, pre = front ++ [.pushLabel label] := by
  induction h generalizing pre with
  | nil => simp at heq
  | @plain j rest _ hj _ ih =>
      cases pre with
      | nil =>
          obtain ⟨rfl, -⟩ := List.cons.inj heq
          rw [hj] at hi
          cases hi
      | cons first pre =>
          obtain ⟨front, label, rfl⟩ := ih (List.cons.inj heq).2
          exact ⟨first :: front, label, rfl⟩
  | @jump label j rest _ _ _ ih =>
      match pre, heq with
      | [], heq =>
          obtain ⟨rfl, -⟩ := List.cons.inj heq
          cases hi
      | [first], heq =>
          obtain ⟨rfl, -⟩ := List.cons.inj heq
          exact ⟨[], label, rfl⟩
      | first :: second :: pre, heq =>
          obtain ⟨-, heq⟩ := List.cons.inj heq
          obtain ⟨-, heq⟩ := List.cons.inj heq
          obtain ⟨front, label', rfl⟩ := ih heq
          exact ⟨first :: second :: front, label', rfl⟩

/-- Opcodes that are no jumps feed none. -/
theorem ops {os : List Opcode} (h : ∀ o ∈ os, (Instruction.op o).canBranch = false) :
    Fed (os.map .op) := by
  induction os with
  | nil => exact .nil
  | cons o os ih =>
      obtain ⟨ho, hos⟩ := List.forall_mem_cons.mp h
      exact .plain (Or.inl (.op o)) ho (ih hos)

end Fed

/-! ### All lowered code is fed -/

namespace Emitter

/-- Whatever the emitter emits, failed or not, is fed. -/
def EmitsFed (e : Emitter) : Prop := ∀ labels, Fed (e labels).code

theorem emitsFed_emit {code : List Instruction} (h : Fed code) : (emit code).EmitsFed :=
  fun _ => h

theorem emitsFed_fail (e : CompileError) : (fail e).EmitsFed := fun _ => .nil

theorem EmitsFed.append {a b : Emitter} (ha : a.EmitsFed) (hb : b.EmitsFed) :
    (a ++ b).EmitsFed := by
  intro labels
  cases hfail : (a labels).failure with
  | some e =>
      rw [append_apply_of_failure hfail]
      exact ha labels
  | none =>
      rw [append_apply hfail]
      exact (ha labels).append (hb _)

theorem emitsFed_withFresh {k : Nat → Emitter} (h : ∀ label, (k label).EmitsFed) :
    (withFresh k).EmitsFed := fun _ => h _ _

theorem emitsFed_withNamed {name : String} {k : Nat → Emitter} (h : ∀ label, (k label).EmitsFed) :
    (withNamed name k).EmitsFed := fun _ => h _ _

/-- The push of a number has the number as its immediate. -/
theorem makePush_ok {value : Nat} {wordSize : Int} {i : Instruction}
    (h : makePush value wordSize = .ok i) :
    ∃ data, i = .push data ∧ 1 ≤ data.length ∧ data.length ≤ Instruction.maxImmediate ∧
      BigEndian.toNat data = value := by
  unfold makePush Instruction.tryPush at h
  dsimp only at h
  split at h
  · cases h
  split at h
  · cases h
  split at h
  · next hlen =>
    obtain rfl := Except.ok.inj h
    refine ⟨_, rfl, hlen.1, hlen.2, ?_⟩
    have hfits : value < BigEndian.capacity (max 1 (BigEndian.width value)) :=
      (BigEndian.width_le_iff _ _).mp (Nat.le_max_right _ _)
    rw [BigEndian.toNat_ofNat, Int.toNat_natCast, Int.natAbs_natCast]
    exact Nat.mod_eq_of_lt hfits
  · cases h

/-- Pushing a number that does not fit fails. -/
theorem yields_push {options : CompilerOptions} {value : Nat} {before after : Labels}
    {code : List Instruction} (h : (push options value).Yields before code after) :
    ∃ data, code = [.push data] ∧ after = before ∧ 1 ≤ data.length ∧
      data.length ≤ Instruction.maxImmediate ∧ BigEndian.toNat data = value := by
  rw [push] at h
  split at h
  · next i hpush =>
    obtain ⟨data, rfl, hpos, hlen, hvalue⟩ := makePush_ok hpush
    obtain ⟨hcode, hlabels⟩ := yields_emit.mp h
    exact ⟨data, hcode, hlabels, hpos, hlen, hvalue⟩
  · exact absurd h not_yields_fail

/-- A slot is pushed as its address. -/
theorem yields_pushSlot {options : CompilerOptions} {slot : Nat} {before after : Labels}
    {code : List Instruction} (h : (pushSlot options slot).Yields before code after) :
    (push options (slot * options.slotSize.getD 0)).Yields before code after := by
  rw [pushSlot] at h
  split at h
  · next size hsize =>
    rw [hsize]
    exact h
  · exact absurd h not_yields_fail

theorem emitsFed_push (options : CompilerOptions) (value : Nat) :
    (push options value).EmitsFed := by
  unfold push
  split
  · next i h =>
    obtain ⟨data, rfl, hpos, hlen, -⟩ := makePush_ok h
    exact emitsFed_emit (.plain (Or.inl (.push hpos hlen)) rfl .nil)
  · exact emitsFed_fail _

theorem emitsFed_pushLiteral (options : CompilerOptions) (l : Literal) :
    (pushLiteral options l).EmitsFed := by
  unfold pushLiteral
  split
  · exact emitsFed_fail _
  · exact emitsFed_push _ _

theorem emitsFed_pushSlot (options : CompilerOptions) (slot : Nat) :
    (pushSlot options slot).EmitsFed := by
  unfold pushSlot
  split
  · exact emitsFed_push _ _
  · exact emitsFed_fail _

theorem emitsFed_op {o : Opcode} (h : (Instruction.op o).canBranch = false) :
    (emit [.op o]).EmitsFed := emitsFed_emit (.plain (Or.inl (.op o)) h .nil)

theorem emitsFed_jumpdest (label : Int) : (emit [.jumpdest label]).EmitsFed :=
  emitsFed_emit (.plain (Or.inl (.jumpdest label)) rfl .nil)

theorem EmitsFed.jumpOn {value : Emitter} (h : value.EmitsFed) (target : BranchTarget) :
    (value.jumpOn target).EmitsFed := by
  have hjump : ∀ label, Fed [.pushLabel label, .op .jumpi] := fun label =>
    .jump (.op .jumpi) rfl .nil
  cases target with
  | whenTrue label => exact h.append (emitsFed_emit (hjump label))
  | whenFalse label =>
      exact h.append (emitsFed_emit (.plain (Or.inl (.op .isZero)) rfl (hjump label)))

end Emitter

open Emitter

/-- All that the lowering of a term emits is fed. -/
structure Lowering.EmitsFed (l : Lowering) : Prop where
  value : l.value.EmitsFed
  branch : ∀ target, (l.branch target).EmitsFed

theorem Lowering.EmitsFed.ofValue {value : Emitter} (h : value.EmitsFed) :
    (Lowering.ofValue value).EmitsFed where
  value := h
  branch := h.jumpOn

theorem Lowering.EmitsFed.connect {lhs rhs : Lowering} (op : Connective) (hl : lhs.EmitsFed)
    (hr : rhs.EmitsFed) : (Lowering.connect op lhs rhs).EmitsFed where
  value := by
    have hrest : ∀ join : Nat,
        (emit [.pushLabel join, .op .jumpi, .op .pop] ++ rhs.value
          ++ emit [.jumpdest join]).EmitsFed := by
      intro join
      have hjump : Fed [.pushLabel join, .op .jumpi, .op .pop] :=
        .jump (.op .jumpi) rfl (.plain (Or.inl (.op .pop)) rfl .nil)
      exact ((emitsFed_emit hjump).append hr.value).append (emitsFed_jumpdest _)
    have hdup : Instruction.dupTop.Assemblable := Or.inl (.op _)
    cases op with
    | and =>
        exact (hl.value.append (emitsFed_emit
          (.plain hdup rfl (.plain (Or.inl (.op .isZero)) rfl .nil)))).append
          (emitsFed_withFresh hrest)
    | or =>
        exact (hl.value.append (emitsFed_emit (.plain hdup rfl .nil))).append
          (emitsFed_withFresh hrest)
  branch := by
    intro target
    cases op <;> cases target
    · exact emitsFed_withFresh fun skip =>
        ((hl.branch _).append (hr.branch _)).append (emitsFed_jumpdest _)
    · exact (hl.branch _).append (hr.branch _)
    · exact (hl.branch _).append (hr.branch _)
    · exact emitsFed_withFresh fun skip =>
        ((hl.branch _).append (hr.branch _)).append (emitsFed_jumpdest _)

theorem Arithmetic.fed_code (op : Arithmetic) : Fed op.code := by
  have hops : ∀ os : List Opcode, (∀ o ∈ os, (Instruction.op o).canBranch = false) →
      Fed (os.map .op) := fun _ => Fed.ops
  cases op with
  | add => exact hops [.add] (by decide)
  | subtract => exact hops [.sub] (by decide)
  | multiply => exact hops [.mul] (by decide)
  | divide => exact hops [.div] (by decide)
  | remainder => exact hops [.mod] (by decide)
  | equals => exact hops [.eq] (by decide)
  | lessThan => exact hops [.lt] (by decide)
  | greaterThan => exact hops [.gt] (by decide)
  | notEquals => exact hops [.eq, .isZero] (by decide)
  | lessOrEquals => exact hops [.gt, .isZero] (by decide)
  | greaterOrEquals => exact hops [.lt, .isZero] (by decide)

theorem Region.emitsFed_load (r : Region) : (emit [r.load]).EmitsFed := by
  cases r <;> exact emitsFed_op rfl

theorem Region.emitsFed_store {r : Region} {i : Instruction} (h : r.store? = some i) :
    (emit [i]).EmitsFed := by
  cases r with
  | memory =>
      obtain rfl := Option.some.inj h
      exact emitsFed_op rfl
  | storage =>
      obtain rfl := Option.some.inj h
      exact emitsFed_op rfl
  | callData => cases h

/-- Only an index into a region can be assigned to. -/
theorem Term.lower_assign_of_ne (options : CompilerOptions) {target : Term} (value : Term)
    (h : ∀ r index, target ≠ .access (.region r) index) :
    ∃ e, (Term.assign target value).lower options
      = .ofValue ((value.lower options).value ++ Emitter.fail e) := by
  cases target with
  | access source index =>
      cases source with
      | region r => exact absurd rfl (h r index)
      | _ => exact ⟨_, by rw [Term.lower]; simp⟩
  | _ => exact ⟨_, by rw [Term.lower] <;> simp⟩

/-- Only an index into a region can be read. -/
theorem Term.lower_access_of_ne (options : CompilerOptions) {source : Term} (index : Term)
    (h : ∀ r, source ≠ .region r) :
    ∃ e, (Term.access source index).lower options = .ofValue (Emitter.fail e) := by
  cases source with
  | region r => exact absurd rfl (h r)
  | _ => exact ⟨_, by rw [Term.lower]; simp⟩

mutual

theorem Term.emitsFed_lower (options : CompilerOptions) : ∀ t : Term, (t.lower options).EmitsFed
  | .assert condition => by
      rw [Term.lower]
      exact .ofValue (emitsFed_withFresh fun label =>
        ((condition.emitsFed_lower options).branch _).append (emitsFed_emit
          (.plain (Or.inl (.op .invalid)) rfl (.plain (Or.inl (.jumpdest label)) rfl .nil))))
  | .assign target value => by
      by_cases h : ∃ r index, target = .access (.region r) index
      · obtain ⟨r, index, rfl⟩ := h
        rw [Term.lower]
        refine .ofValue ((value.emitsFed_lower options).value.append ?_)
        cases hstore : r.store? with
        | some store =>
            exact (index.emitsFed_lower options).value.append (Region.emitsFed_store hstore)
        | none => exact emitsFed_fail _
      · obtain ⟨e, he⟩ := Term.lower_assign_of_ne options value fun r index heq =>
          h ⟨r, index, heq⟩
        rw [he]
        exact .ofValue ((value.emitsFed_lower options).value.append (emitsFed_fail e))
  | .fail => by
      rw [Term.lower]
      exact .ofValue (emitsFed_op rfl)
  | .goto label => by
      rw [Term.lower]
      exact .ofValue (emitsFed_withNamed fun l =>
        emitsFed_emit (.jump (.op .jump) rfl .nil))
  | .ifGoto condition label => by
      rw [Term.lower]
      exact .ofValue (emitsFed_withNamed fun l =>
        (condition.emitsFed_lower options).branch _)
  | .label name => by
      rw [Term.lower]
      exact .ofValue (emitsFed_withNamed fun l => emitsFed_jumpdest l)
  | .revert values => by
      rw [Term.lower]
      exact .ofValue (emitsFed_lowerResult options .revert rfl values)
  | .succeed [] => by
      rw [Term.lower]
      exact .ofValue (emitsFed_op rfl)
  | .succeed (first :: rest) => by
      rw [Term.lower]
      · exact .ofValue (emitsFed_lowerResult options .ret rfl (first :: rest))
      · simp
  | .stop => by
      rw [Term.lower]
      exact .ofValue (emitsFed_op rfl)
  | .arithmetic op lhs rhs => by
      rw [Term.lower]
      exact .ofValue (((rhs.emitsFed_lower options).value.append
        (lhs.emitsFed_lower options).value).append (emitsFed_emit op.fed_code))
  | .connective op lhs rhs => by
      rw [Term.lower]
      exact .connect op (lhs.emitsFed_lower options) (rhs.emitsFed_lower options)
  | .access source index => by
      by_cases h : ∃ r, source = .region r
      · obtain ⟨r, rfl⟩ := h
        rw [Term.lower]
        exact .ofValue ((index.emitsFed_lower options).value.append r.emitsFed_load)
      · obtain ⟨e, he⟩ := Term.lower_access_of_ne options index fun r heq => h ⟨r, heq⟩
        rw [he]
        exact .ofValue (emitsFed_fail e)
  | .region r => by
      rw [Term.lower]
      exact .ofValue (emitsFed_fail _)
  | .literal l => by
      rw [Term.lower]
      exact .ofValue (emitsFed_pushLiteral options l)
  | .unknown => by
      rw [Term.lower]
      exact .ofValue (emitsFed_fail _)

theorem emitsFed_lowerSlots (options : CompilerOptions) :
    ∀ (slot : Nat) (values : List Term), (lowerSlots options slot values).EmitsFed
  | slot, [] => by
      rw [lowerSlots]
      exact emitsFed_emit .nil
  | slot, t :: rest => by
      rw [lowerSlots]
      exact ((((t.emitsFed_lower options).value.append (emitsFed_pushSlot options slot)).append
        (emitsFed_op rfl)).append (emitsFed_lowerSlots options (slot + 1) rest))

theorem emitsFed_lowerResult (options : CompilerOptions) (o : Opcode)
    (ho : (Instruction.op o).canBranch = false) (values : List Term) :
    (lowerResult options (.op o) values).EmitsFed := by
  rw [lowerResult]
  exact (((emitsFed_lowerSlots options 0 values).append (emitsFed_pushSlot options _)).append
    (emitsFed_push options 0)).append (emitsFed_op ho)

end

/-! ### Programs -/

/-- The emitter of terms one after the other. -/
def lowerAll (options : CompilerOptions) : List Term → Emitter
  | [] => emit []
  | t :: rest => (t.lower options).value ++ lowerAll options rest

theorem emitsFed_lowerAll (options : CompilerOptions) (terms : List Term) :
    (lowerAll options terms).EmitsFed := by
  induction terms with
  | nil => exact emitsFed_emit .nil
  | cons t rest ih => exact (t.emitsFed_lower options).value.append ih

/-- What an emitter that succeeds adds to a program. -/
theorem Session.run_ok {s after : Session} {e : Emitter} (h : s.run e = (after, .ok ())) :
    ∃ code labels, e.Yields s.labels code labels ∧
      after = { s with labels, instructions := s.instructions ++ code } := by
  rw [run] at h
  cases hfail : (e s.labels).failure with
  | some _ =>
      simp only [hfail] at h
      cases h
  | none =>
      simp only [hfail] at h
      exact ⟨_, _, yields_of_failure hfail, (Prod.mk.inj h).1.symm⟩

/-- Terms that all compile have been emitted one after the other. -/
theorem Session.compileAll_ok {s after : Session} {terms : List Term}
    (h : s.compileAll terms = (after, .ok ())) :
    ∃ code, (lowerAll s.options terms).Yields s.labels code after.labels ∧
      after.instructions = s.instructions ++ code := by
  induction terms generalizing s with
  | nil =>
      obtain ⟨rfl, -⟩ := Prod.mk.inj h
      exact ⟨[], yields_emit.mpr ⟨rfl, rfl⟩, (List.append_nil _).symm⟩
  | cons t rest ih =>
      rw [compileAll] at h
      split at h
      · next middle hcompile =>
        obtain ⟨first, labels, hfirst, rfl⟩ := run_ok hcompile
        obtain ⟨code, hcode, hinstructions⟩ := ih h
        refine ⟨_, yields_append.mpr ⟨_, _, code, hfirst, hcode, rfl⟩, ?_⟩
        rw [hinstructions, List.append_assoc]
      · cases h

end EvmToolchain
