import EvmToolchain.Proofs.Compiler.LabelUse
import Mathlib.Algebra.Group.Nat.Defs

/-!
# EvmToolchain.Proofs.Compiler.Reports

Which errors there are to report of a term.

`Term.errors` lists what is wrong with a term, in the order in which its parts are
lowered: the right operand of an arithmetic operator before the left one, the left
operand of a connective before the right one, and the value that is assigned before
what it is assigned to. Compiling fails exactly with the first of these errors
(`Session.compile_reports`), however many labels and instructions there are already,
and whether a term is lowered for its value or for its truth (`Term.reports_lower`).
-/

namespace EvmToolchain

open Emitter

/-! ### What is wrong with a term -/

/-- Words have one to 32 bytes. -/
structure CompilerOptions.Valid (options : CompilerOptions) : Prop where
  pos : 1 ≤ options.wordSize
  le : options.wordSize ≤ 32

/-- The error of a number that needs more bytes than a word has. -/
def CompilerOptions.wordErrors (options : CompilerOptions) (value : Nat) : List CompileError :=
  if 256 ^ options.wordSize ≤ value then [.literalOverflow value options.wordSize] else []

/-- The error of the address of a slot. -/
def CompilerOptions.slotErrors (options : CompilerOptions) (slot : Nat) : List CompileError :=
  match options.slotSize with
  | some size => options.wordErrors (slot * size)
  | none => [.fractionalAddress]

mutual

/-- All that is wrong with a term, in the order in which its parts are lowered. -/
def Term.errors (options : CompilerOptions) : Term → List CompileError
  | .assert condition | .ifGoto condition _ => condition.errors options
  | .assign target value =>
    value.errors options ++
      match target with
      | .access (.region .memory) index | .access (.region .storage) index => index.errors options
      | .access _ _ => [.invalidMemoryAccess target]
      | _ => [.invalidTarget target]
  | .fail | .goto _ | .label _ | .stop => []
  | .revert values => valueErrors options 0 values ++ options.slotErrors values.length
  | .succeed [] => []
  | .succeed values => valueErrors options 0 values ++ options.slotErrors values.length
  | .arithmetic _ lhs rhs => rhs.errors options ++ lhs.errors options
  | .connective _ lhs rhs => lhs.errors options ++ rhs.errors options
  | .access (.region _) index => index.errors options
  | .access source _ => [.invalidMemoryAccess source]
  | .region r => [.invalidMemoryAccess (.region r)]
  | .literal l => if l.isTooLong then [.tooManyDigits l] else options.wordErrors l.value
  | .unknown => [.unknownTerm]

/-- All that is wrong with values that are handed back, and with the addresses of
their slots. -/
def valueErrors (options : CompilerOptions) (slot : Nat) : List Term → List CompileError
  | [] => []
  | t :: rest => t.errors options ++ options.slotErrors slot ++ valueErrors options (slot + 1) rest

end

/-- The error is one of the compiler: of a term that is well-formed but has no
translation. -/
inductive CompileError.IsRejection : CompileError → Prop
  | literalOverflow (value wordSize : Int) : IsRejection (.literalOverflow value wordSize)
  | invalidMemoryAccess (t : Term) : IsRejection (.invalidMemoryAccess t)
  | invalidTarget (t : Term) : IsRejection (.invalidTarget t)

/-! ### Emitters that report -/

namespace Emitter

/-- From any allocator, the emitter fails with the first of the errors. -/
def Reports (e : Emitter) (errors : List CompileError) : Prop :=
  ∀ labels, (e labels).failure = errors.head?

variable {a b : Emitter} {es fs : List CompileError}

theorem reports_emit (code : List Instruction) : (emit code).Reports [] := fun _ => rfl

theorem reports_fail (e : CompileError) : (fail e).Reports [e] := fun _ => rfl

theorem Reports.append (ha : a.Reports es) (hb : b.Reports fs) : (a ++ b).Reports (es ++ fs) := by
  intro labels
  have hes := ha labels
  rw [List.head?_append, ← hes]
  cases hfail : (a labels).failure with
  | some e =>
      rw [append_apply_of_failure hfail, hfail]
      rfl
  | none =>
      rw [append_apply hfail]
      exact hb _

/-- Code that follows adds nothing to report. -/
theorem Reports.append_emit (ha : a.Reports es) (code : List Instruction) :
    (a ++ emit code).Reports es := by
  have h := ha.append (reports_emit code)
  rwa [List.append_nil] at h

theorem reports_withFresh {k : Nat → Emitter} (h : ∀ label, (k label).Reports es) :
    (withFresh k).Reports es := fun _ => h _ _

theorem reports_withNamed {name : String} {k : Nat → Emitter}
    (h : ∀ label, (k label).Reports es) : (withNamed name k).Reports es := fun _ => h _ _

theorem Reports.jumpOn (ha : a.Reports es) (target : BranchTarget) :
    (a.jumpOn target).Reports es := by
  cases target <;> exact ha.append_emit _

variable {options : CompilerOptions}

theorem makePush_of_lt {value wordSize : Nat} (h : 256 ^ wordSize ≤ value) :
    makePush value wordSize = .error (.literalOverflow value wordSize) := by
  have hwidth : wordSize < max 1 (BigEndian.width value) :=
    Nat.lt_of_not_le fun hle =>
      Nat.not_lt.mpr h ((BigEndian.width_le_iff _ _).mp (Nat.le_trans (Nat.le_max_right _ _) hle))
  exact if_pos (Int.ofNat_lt.mpr hwidth)

/-- A number that a word of 1 to 32 bytes holds is pushed in the least number of bytes,
but zero in one. -/
theorem makePush_of_fits {value wordSize : Nat} (hpos : 1 ≤ wordSize) (hle : wordSize ≤ 32)
    (h : value < 256 ^ wordSize) : makePush value wordSize =
      .ok (.push (BigEndian.ofNat (max 1 (BigEndian.width value)) value)) := by
  have hwidth : max 1 (BigEndian.width value) ≤ wordSize :=
    Nat.max_le.mpr ⟨hpos, (BigEndian.width_le_iff _ _).mpr h⟩
  have hlt : ¬ ((wordSize : Int) < (max 1 (BigEndian.width value) : Nat)) := by omega
  have hneg : ¬ ((value : Int) < 0) := by omega
  have hlen : 1 ≤ max 1 (BigEndian.width value) ∧
      max 1 (BigEndian.width value) ≤ Instruction.maxImmediate :=
    ⟨Nat.le_max_left _ _, Nat.le_trans hwidth hle⟩
  rw [makePush, Int.natAbs_natCast, if_neg hlt, if_neg hneg, Instruction.tryPush,
    BigEndian.length_ofNat, Int.toNat_natCast, if_pos hlen]
  rfl

/-- A byte is pushed as such. -/
theorem push_byte (hoptions : options.Valid) {n : Nat} (h : n < 256) :
    push options n = emit [.push [UInt8.ofNat n]] := by
  have hwidth : max 1 (BigEndian.width n) = 1 :=
    Nat.max_eq_left ((BigEndian.width_le_iff n 1).mpr h)
  have hfits : n < 256 ^ options.wordSize := Nat.lt_of_lt_of_le h (Nat.le_pow hoptions.pos)
  rw [push, makePush_of_fits hoptions.pos hoptions.le hfits, hwidth]
  rfl

theorem reports_push (hoptions : options.Valid) (value : Nat) :
    (push options value).Reports (options.wordErrors value) := by
  unfold CompilerOptions.wordErrors
  split
  · next h =>
    rw [push, makePush_of_lt h]
    exact reports_fail _
  · next h =>
    rw [push, makePush_of_fits hoptions.pos hoptions.le (Nat.not_le.mp h)]
    exact reports_emit _

/-- Zero can always be pushed. -/
theorem reports_push_zero (hoptions : options.Valid) : (push options 0).Reports [] := by
  have h := reports_push hoptions 0
  rwa [CompilerOptions.wordErrors, if_neg (Nat.not_le.mpr (Nat.pow_pos (by decide)))] at h

theorem reports_pushSlot (hoptions : options.Valid) (slot : Nat) :
    (pushSlot options slot).Reports (options.slotErrors slot) := by
  rw [pushSlot, CompilerOptions.slotErrors]
  cases options.slotSize with
  | some size => exact reports_push hoptions _
  | none => exact reports_fail _

theorem reports_pushLiteral (hoptions : options.Valid) (l : Literal) :
    (pushLiteral options l).Reports
      (if l.isTooLong then [.tooManyDigits l] else options.wordErrors l.value) := by
  unfold pushLiteral
  split
  · exact reports_fail _
  · exact reports_push hoptions _

end Emitter

/-! ### Lowerings that report -/

/-- Both ways to lower a term report the same. -/
structure Lowering.Reports (l : Lowering) (errors : List CompileError) : Prop where
  value : l.value.Reports errors
  branch : ∀ target, (l.branch target).Reports errors

namespace Lowering.Reports

variable {es fs : List CompileError}

theorem ofValue {value : Emitter} (h : value.Reports es) : (Lowering.ofValue value).Reports es where
  value := h
  branch := h.jumpOn

theorem connect {lhs rhs : Lowering} (op : Connective) (hl : lhs.Reports es) (hr : rhs.Reports fs) :
    (Lowering.connect op lhs rhs).Reports (es ++ fs) where
  value := by
    refine (hl.value.append_emit _).append (reports_withFresh fun join => ?_)
    exact ((reports_emit _).append hr.value).append_emit _
  branch := by
    intro target
    have hbranch : ∀ left right, (lhs.branch left ++ rhs.branch right).Reports (es ++ fs) :=
      fun _ _ => (hl.branch _).append (hr.branch _)
    -- where the left operand may settle it without a jump, the right one is skipped
    cases op <;> cases target
    · exact reports_withFresh fun _ => (hbranch _ _).append_emit _
    · exact hbranch _ _
    · exact hbranch _ _
    · exact reports_withFresh fun _ => (hbranch _ _).append_emit _

end Lowering.Reports

variable {options : CompilerOptions}

/-- Whatever else is assigned to fails in one way, after the value. -/
theorem Term.assign_eq_fail (options : CompilerOptions) {target : Term} (value : Term)
    (h : ∀ index, target ≠ .access (.region .memory) index ∧
      target ≠ .access (.region .storage) index) :
    ∃ e : CompileError, e.IsRejection ∧
      (Term.assign target value).errors options = value.errors options ++ [e] ∧
      (Term.assign target value).lower options
        = .ofValue ((value.lower options).value ++ Emitter.fail e) := by
  cases target with
  | access source index =>
      refine ⟨.invalidMemoryAccess (.access source index), .invalidMemoryAccess _, ?_⟩
      cases source with
      | region r =>
          cases r with
          | memory => exact absurd rfl (h index).1
          | storage => exact absurd rfl (h index).2
          | callData => constructor <;> simp [Term.errors, Term.lower, Region.store?]
      | _ => constructor <;> simp [Term.errors, Term.lower]
  | _ =>
      exact ⟨_, .invalidTarget _, by rw [Term.errors] <;> nofun,
        by rw [Term.lower] <;> nofun⟩

/-- Whatever else is read fails in one way. -/
theorem Term.access_eq_fail (options : CompilerOptions) {source : Term} (index : Term)
    (h : ∀ r, source ≠ .region r) :
    ∃ e : CompileError, e.IsRejection ∧ (Term.access source index).errors options = [e] ∧
      (Term.access source index).lower options = .ofValue (Emitter.fail e) := by
  refine ⟨.invalidMemoryAccess source, .invalidMemoryAccess _, ?_⟩
  cases source with
  | region r => exact absurd rfl (h r)
  | _ => constructor <;> simp [Term.errors, Term.lower]

mutual

/-- A term is lowered to emitters that report what is wrong with it. -/
theorem Term.reports_lower (hoptions : options.Valid) :
    ∀ t : Term, (t.lower options).Reports (t.errors options)
  | .assert condition => by
      rw [Term.lower, Term.errors]
      exact .ofValue (reports_withFresh fun _ =>
        ((condition.reports_lower hoptions).branch _).append_emit _)
  | .assign target value => by
      have hvalue := (value.reports_lower hoptions).value
      by_cases h : ∃ index, target = .access (.region .memory) index ∨
          target = .access (.region .storage) index
      · obtain ⟨index, rfl | rfl⟩ := h
        all_goals
          rw [Term.lower, Term.errors]
          exact .ofValue (hvalue.append ((index.reports_lower hoptions).value.append_emit _))
      · obtain ⟨e, -, herrors, hlower⟩ := Term.assign_eq_fail options value fun index =>
          not_or.mp fun heq => h ⟨index, heq⟩
        rw [herrors, hlower]
        exact .ofValue (hvalue.append (reports_fail e))
  | .fail => by
      rw [Term.lower, Term.errors]
      exact .ofValue (reports_emit _)
  | .goto label => by
      rw [Term.lower, Term.errors]
      exact .ofValue (reports_withNamed fun _ => reports_emit _)
  | .ifGoto condition label => by
      rw [Term.lower, Term.errors]
      exact .ofValue (reports_withNamed fun _ => (condition.reports_lower hoptions).branch _)
  | .label name => by
      rw [Term.lower, Term.errors]
      exact .ofValue (reports_withNamed fun _ => reports_emit _)
  | .revert values => by
      rw [Term.lower, Term.errors]
      exact .ofValue (reports_lowerResult hoptions _ values)
  | .succeed [] => by
      rw [Term.lower, Term.errors]
      exact .ofValue (reports_emit _)
  | .succeed (first :: rest) => by
      rw [Term.lower, Term.errors]
      · exact .ofValue (reports_lowerResult hoptions _ (first :: rest))
      all_goals nofun
  | .stop => by
      rw [Term.lower, Term.errors]
      exact .ofValue (reports_emit _)
  | .arithmetic op lhs rhs => by
      rw [Term.lower, Term.errors]
      exact .ofValue (((rhs.reports_lower hoptions).value.append
        (lhs.reports_lower hoptions).value).append_emit _)
  | .connective op lhs rhs => by
      rw [Term.lower, Term.errors]
      exact .connect op (lhs.reports_lower hoptions) (rhs.reports_lower hoptions)
  | .access source index => by
      by_cases h : ∃ r, source = .region r
      · obtain ⟨r, rfl⟩ := h
        rw [Term.lower, Term.errors]
        exact .ofValue ((index.reports_lower hoptions).value.append_emit _)
      · obtain ⟨e, -, herrors, hlower⟩ := Term.access_eq_fail options index fun r heq =>
          h ⟨r, heq⟩
        rw [herrors, hlower]
        exact .ofValue (reports_fail e)
  | .region r => by
      rw [Term.lower, Term.errors]
      exact .ofValue (reports_fail _)
  | .literal l => by
      rw [Term.lower, Term.errors]
      exact .ofValue (reports_pushLiteral hoptions l)
  | .unknown => by
      rw [Term.lower, Term.errors]
      exact .ofValue (reports_fail _)

theorem reports_lowerSlots (hoptions : options.Valid) : ∀ (slot : Nat) (values : List Term),
    (lowerSlots options slot values).Reports (valueErrors options slot values)
  | slot, [] => by
      rw [lowerSlots, valueErrors]
      exact reports_emit _
  | slot, t :: rest => by
      rw [lowerSlots, valueErrors]
      exact (((t.reports_lower hoptions).value.append
        (reports_pushSlot hoptions slot)).append_emit _).append
        (reports_lowerSlots hoptions (slot + 1) rest)

theorem reports_lowerResult (hoptions : options.Valid) (last : Instruction) (values : List Term) :
    (lowerResult options last values).Reports
      (valueErrors options 0 values ++ options.slotErrors values.length) := by
  rw [lowerResult]
  have h := ((reports_lowerSlots hoptions 0 values).append
    (reports_pushSlot hoptions values.length)).append (reports_push_zero hoptions)
  rw [List.append_nil] at h
  exact h.append_emit _

end

/-! ### Terms with nothing but rejections -/

/-- None of the terms is of an unknown kind or a decimal literal that is too long. -/
def AllReadable (terms : List Term) : Prop :=
  ∀ t ∈ terms, t ≠ .unknown ∧ ∀ l, t = .literal l → l.isTooLong = false

theorem allReadable_cons {t : Term} {terms : List Term} (h : AllReadable (t :: terms)) :
    AllReadable terms := (List.forall_mem_cons.mp h).2

theorem allReadable_append {terms terms' : List Term} :
    AllReadable (terms ++ terms') ↔ AllReadable terms ∧ AllReadable terms' :=
  List.forall_mem_append

theorem CompilerOptions.isRejection_wordErrors (options : CompilerOptions) (value : Nat) :
    ∀ e ∈ options.wordErrors value, e.IsRejection := by
  unfold wordErrors
  split
  · exact List.forall_mem_singleton.mpr (.literalOverflow _ _)
  · exact List.forall_mem_nil _

theorem CompilerOptions.isRejection_slotErrors {options : CompilerOptions}
    (hslot : options.slotSize ≠ none) (slot : Nat) :
    ∀ e ∈ options.slotErrors slot, e.IsRejection := by
  obtain ⟨size, hsize⟩ := Option.ne_none_iff_exists'.mp hslot
  rw [slotErrors, hsize]
  exact options.isRejection_wordErrors _

mutual

/-- What is wrong with a term whose parts can all be read is for the compiler to
reject. -/
theorem Term.isRejection_errors (hslot : options.slotSize ≠ none) :
    ∀ t : Term, AllReadable t.subterms → ∀ e ∈ t.errors options, e.IsRejection
  | .assert condition, h => by
      rw [Term.errors]
      exact condition.isRejection_errors hslot (allReadable_cons h)
  | .ifGoto condition _, h => by
      rw [Term.errors]
      exact condition.isRejection_errors hslot (allReadable_cons h)
  | .assign target value, h => by
      obtain ⟨hvalue, htarget⟩ := allReadable_append.mp (allReadable_cons h)
      have hvalue := value.isRejection_errors hslot hvalue
      by_cases heq : ∃ index, target = .access (.region .memory) index ∨
          target = .access (.region .storage) index
      · obtain ⟨index, rfl | rfl⟩ := heq
        all_goals
          have hindex := (allReadable_append.mp (allReadable_cons htarget)).2
          rw [Term.errors]
          exact List.forall_mem_append.mpr ⟨hvalue, index.isRejection_errors hslot hindex⟩
      · obtain ⟨e, he, herrors, -⟩ := Term.assign_eq_fail options value fun index =>
          not_or.mp fun h => heq ⟨index, h⟩
        rw [herrors]
        exact List.forall_mem_append.mpr ⟨hvalue, List.forall_mem_singleton.mpr he⟩
  | .fail, _ | .goto _, _ | .label _, _ | .stop, _ | .succeed [], _ => by
      rw [Term.errors]
      exact List.forall_mem_nil _
  | .revert values, h => by
      rw [Term.errors]
      exact List.forall_mem_append.mpr
        ⟨isRejection_valueErrors hslot 0 values (allReadable_cons h),
          CompilerOptions.isRejection_slotErrors hslot _⟩
  | .succeed (first :: rest), h => by
      rw [Term.errors]
      · exact List.forall_mem_append.mpr
          ⟨isRejection_valueErrors hslot 0 (first :: rest) (allReadable_cons h),
            CompilerOptions.isRejection_slotErrors hslot _⟩
      · nofun
  | .arithmetic _ lhs rhs, h => by
      obtain ⟨hrhs, hlhs⟩ := allReadable_append.mp (allReadable_cons h)
      rw [Term.errors]
      exact List.forall_mem_append.mpr
        ⟨rhs.isRejection_errors hslot hrhs, lhs.isRejection_errors hslot hlhs⟩
  | .connective _ lhs rhs, h => by
      obtain ⟨hlhs, hrhs⟩ := allReadable_append.mp (allReadable_cons h)
      rw [Term.errors]
      exact List.forall_mem_append.mpr
        ⟨lhs.isRejection_errors hslot hlhs, rhs.isRejection_errors hslot hrhs⟩
  | .access source index, h => by
      obtain ⟨-, hindex⟩ := allReadable_append.mp (allReadable_cons h)
      by_cases heq : ∃ r, source = .region r
      · obtain ⟨r, rfl⟩ := heq
        rw [Term.errors]
        exact index.isRejection_errors hslot hindex
      · obtain ⟨e, he, herrors, -⟩ := Term.access_eq_fail options index fun r h =>
          heq ⟨r, h⟩
        rw [herrors]
        exact List.forall_mem_singleton.mpr he
  | .region r, _ => by
      rw [Term.errors]
      exact List.forall_mem_singleton.mpr (.invalidMemoryAccess _)
  | .literal l, h => by
      have hshort := (h _ List.mem_cons_self).2 l rfl
      rw [Term.errors, hshort]
      exact options.isRejection_wordErrors _
  | .unknown, h => absurd rfl (h _ List.mem_cons_self).1

theorem isRejection_valueErrors (hslot : options.slotSize ≠ none) :
    ∀ (slot : Nat) (values : List Term), AllReadable (subtermsAll values) →
      ∀ e ∈ valueErrors options slot values, e.IsRejection
  | slot, [], _ => by
      rw [valueErrors]
      exact List.forall_mem_nil _
  | slot, t :: rest, h => by
      obtain ⟨ht, hrest⟩ := allReadable_append.mp h
      rw [valueErrors]
      exact List.forall_mem_append.mpr ⟨List.forall_mem_append.mpr
        ⟨t.isRejection_errors hslot ht, CompilerOptions.isRejection_slotErrors hslot slot⟩,
        isRejection_valueErrors hslot (slot + 1) rest hrest⟩

end

/-! ### Compiling -/

theorem Session.run_of_reports {s : Session} {e : Emitter} {errors : List CompileError}
    (h : e.Reports errors) : (s.run e).2 = errors.head?.elim (.ok ()) .error := by
  rw [← h s.labels, run]
  cases (e s.labels).failure <;> rfl

/-- Compiling fails with the first error that there is to report of a term, and
succeeds if there is none, whether the term is compiled for its value or to a jump. If
slots are whole bytes apart and all parts of the term can be read, then all its errors
are for the compiler to reject. -/
theorem Session.compile_reports (s : Session) (t : Term) (hoptions : s.options.Valid) :
    (s.compile t).2 = (t.errors s.options).head?.elim (.ok ()) .error ∧
      (∀ label, (s.compileBranch t (some label) none).2
          = (t.errors s.options).head?.elim (.ok ()) .error ∧
        (s.compileBranch t none (some label)).2
          = (t.errors s.options).head?.elim (.ok ()) .error) ∧
      (s.options.slotSize ≠ none → AllReadable t.subterms →
        ∀ e ∈ t.errors s.options, e.IsRejection) := by
  have hreports := t.reports_lower hoptions
  refine ⟨run_of_reports hreports.value, fun label => ⟨?_, ?_⟩,
    fun hslot => t.isRejection_errors hslot⟩
  · exact run_of_reports (hreports.branch (.whenTrue label))
  · exact run_of_reports (hreports.branch (.whenFalse label))

/-- Of several errors the one on the right comes first, and those of the value come
before that of the target. -/
theorem Session.compile_reports_sum :
    let s : Session := { options := { wordSize := 1 } }
    let wide : Term := .literal ⟨.hexadecimal, "100", by decide⟩
    let t : Term := .assign .fail (.arithmetic .add (.region .memory) wide)
    s.options.Valid ∧ t.errors s.options
        = [.literalOverflow 256 1, .invalidMemoryAccess (.region .memory), .invalidTarget .fail] ∧
      (s.compile t).2 = .error (.literalOverflow 256 1) := by
  intro s wide t
  have hoptions : s.options.Valid := ⟨Nat.le_refl 1, by decide⟩
  have herrors : t.errors s.options =
      [.literalOverflow 256 1, .invalidMemoryAccess (.region .memory), .invalidTarget .fail] := rfl
  refine ⟨hoptions, herrors, ?_⟩
  rw [(compile_reports s t hoptions).1, herrors]
  rfl

end EvmToolchain
