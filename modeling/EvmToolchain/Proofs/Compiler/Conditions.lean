import EvmToolchain.Proofs.Compiler.Placed
import EvmToolchain.Proofs.Compiler.Reports

/-!
# EvmToolchain.Proofs.Compiler.Conditions

What the code of a condition consists of.

A condition is made of operands that its connectives join, and each operand is tested
for one outcome (`Term.tests`): its value is computed once, and one conditional jump is
made on it. The connectives emit no code of their own but for a point to skip to, where
the left operand can settle the outcome for which nothing jumps (`Term.skips`).

The code is a list of such pieces, tests and skip points (`ConsistsOf`). What is known
about the pieces is put together along the connectives (`Emitter.Consists`), and read off
for whole conditions in the end (`Session.compileBranch_consists`).
-/

namespace EvmToolchain

open Instruction Emitter

/-! ### Operands and skip points -/

/-- Whether the jump is made when the condition holds. -/
def BranchTarget.whenHolds : BranchTarget → Bool
  | whenTrue _ => true
  | whenFalse _ => false

/-- The operands of a condition from left to right, each with the outcome for which it
jumps, where the condition jumps for the given one. A left operand jumps when it settles
the connective, a right one when the connective jumps. -/
def Term.tests : Term → Bool → List (Term × Bool)
  | .connective .and lhs rhs, holds => lhs.tests false ++ rhs.tests holds
  | .connective .or lhs rhs, holds => lhs.tests true ++ rhs.tests holds
  | t, holds => [(t, holds)]

/-- How many points to skip to a condition needs that jumps for the given outcome. A
connective needs one if its left operand can settle it for the other outcome. -/
def Term.skips : Term → Bool → Nat
  | .connective .and lhs rhs, true => 1 + lhs.skips false + rhs.skips true
  | .connective .and lhs rhs, false => lhs.skips false + rhs.skips false
  | .connective .or lhs rhs, false => 1 + lhs.skips true + rhs.skips false
  | .connective .or lhs rhs, true => lhs.skips true + rhs.skips true
  | _, _ => 0

/-! ### Pieces of code -/

/-- The labels that have been allocated from one allocator to another. -/
def Labels.allocated (before after : Labels) : List Nat :=
  List.range' before.next (after.next - before.next)

theorem Labels.allocated_append {before middle after : Labels} (h : before.next ≤ middle.next)
    (h' : middle.next ≤ after.next) :
    before.allocated middle ++ middle.allocated after = before.allocated after := by
  have hmiddle : middle.next = before.next + (middle.next - before.next) := by omega
  have hsum : after.next - before.next
      = (middle.next - before.next) + (after.next - middle.next) := by omega
  rw [allocated, allocated, allocated, hsum, ← List.range'_append_1, ← hmiddle]

theorem Labels.allocated_cons {before after : Labels} (h : before.next < after.next) :
    before.allocated after = before.next :: before.fresh.2.allocated after := by
  have hcount : after.next - before.next = (after.next - (before.next + 1)) + 1 := by omega
  rw [allocated, hcount, List.range'_succ]
  rfl

/-- The test of an operand. -/
structure OperandTest where
  operand : Term
  /-- Where the test jumps. -/
  target : BranchTarget
  /-- The allocator with which the value of the operand is emitted. -/
  labels : Labels

namespace OperandTest

variable (options : CompilerOptions) (x : OperandTest)

/-- What is emitted for the value of the operand. -/
def value : Emission := (x.operand.lower options).value x.labels

/-- The jump on the value. It is made on a truth value other than zero, so the value is
inverted if the jump is for the case that the operand does not hold. -/
def jumpCode : List Instruction :=
  match x.target with
  | .whenTrue label => [.pushLabel label, .op .jumpi]
  | .whenFalse label => [.op .isZero, .pushLabel label, .op .jumpi]

/-- The code of the test. -/
def code : List Instruction := (x.value options).code ++ x.jumpCode

/-- The labels that are allocated within the value of the operand. -/
def allocated : List Nat := x.labels.allocated (x.value options).labels

/-- The operand, and the outcome for which it jumps. -/
def tested : Term × Bool := (x.operand, x.target.whenHolds)

end OperandTest

/-- A piece of the code of a condition. -/
inductive BranchPiece
  | test (x : OperandTest)
  /-- A point that jumps within the condition go to. -/
  | skip (label : Nat)

namespace BranchPiece

/-- The code of a piece. -/
def code (options : CompilerOptions) : BranchPiece → List Instruction
  | test x => x.code options
  | skip label => [.jumpdest label]

def test? : BranchPiece → Option OperandTest
  | test x => some x
  | skip _ => none

def skip? : BranchPiece → Option Nat
  | test _ => none
  | skip label => some label

end BranchPiece

/-- The tests among pieces. -/
def testsOf (pieces : List BranchPiece) : List OperandTest := pieces.filterMap BranchPiece.test?

/-- The skip points among pieces. -/
def skipsOf (pieces : List BranchPiece) : List Nat := pieces.filterMap BranchPiece.skip?

/-- The labels that pieces take: the skip points, and those within values. -/
def takenBy (options : CompilerOptions) (pieces : List BranchPiece) : List Nat :=
  skipsOf pieces ++ (testsOf pieces).flatMap (·.allocated options)

section

variable {options : CompilerOptions} {pieces pieces' : List BranchPiece} {label : Nat}

@[simp] theorem testsOf_append : testsOf (pieces ++ pieces') = testsOf pieces ++ testsOf pieces' :=
  List.filterMap_append

@[simp] theorem skipsOf_append : skipsOf (pieces ++ pieces') = skipsOf pieces ++ skipsOf pieces' :=
  List.filterMap_append

@[simp] theorem testsOf_skip : testsOf [.skip label] = [] := rfl

@[simp] theorem skipsOf_skip : skipsOf [.skip label] = [label] := rfl

theorem takenBy_append : (takenBy options (pieces ++ pieces')).Perm
    (takenBy options pieces ++ takenBy options pieces') := by
  refine List.perm_iff_count.mpr fun k => ?_
  simp only [takenBy, testsOf_append, skipsOf_append, List.flatMap_append, List.count_append]
  omega

theorem takenBy_skip : (takenBy options (pieces ++ [.skip label])).Perm
    (label :: takenBy options pieces) :=
  takenBy_append.trans (List.perm_append_singleton _ _)

end

/-- The code from one allocator to another consists of the pieces. They test these
operands, and have so many skip points; all jumps go to the targets or to skip points. -/
structure ConsistsOf (options : CompilerOptions) (tests : List (Term × Bool)) (skips : Nat)
    (targets : List BranchTarget) (before : Labels) (code : List Instruction) (after : Labels)
    (pieces : List BranchPiece) : Prop where
  code_eq : code = pieces.flatMap (·.code options)
  /-- Each operand is tested once, in order, and for its outcome. -/
  tests_eq : (testsOf pieces).map OperandTest.tested = tests
  /-- All values are emitted in full. -/
  values : ∀ x ∈ testsOf pieces, (x.value options).failure = none
  jumps : ∀ x ∈ testsOf pieces, x.target ∈ targets ∨ ∃ k ∈ skipsOf pieces, x.target.label = k
  length_skips : (skipsOf pieces).length = skips
  /-- The new labels are the skip points and those within values, each of them once. -/
  taken : (takenBy options pieces).Perm (before.allocated after)
  next_le : before.next ≤ after.next
  names_eq : after.names = before.names

/-! ### Conditions put together -/

/-- Whatever the emitter emits consists of such pieces, if it succeeds. -/
def Emitter.Consists (e : Emitter) (options : CompilerOptions) (tests : List (Term × Bool))
    (skips : Nat) (targets : List BranchTarget) : Prop :=
  ∀ ⦃before code after⦄, e.Yields before code after →
    ∃ pieces, ConsistsOf options tests skips targets before code after pieces

namespace Emitter.Consists

variable {a b : Emitter} {options : CompilerOptions} {ts us : List (Term × Bool)} {m n : Nat}
  {targets targets' : List BranchTarget} {target : BranchTarget}

/-- Jumps may have other targets too. -/
theorem of_targets (h : a.Consists options ts m targets) (hsub : ∀ x ∈ targets, x ∈ targets') :
    a.Consists options ts m targets' := by
  intro before code after hyields
  obtain ⟨pieces, hpieces⟩ := h hyields
  exact ⟨pieces, { hpieces with jumps := fun x hx => (hpieces.jumps x hx).imp_left (hsub _) }⟩

theorem append (ha : a.Consists options ts m targets) (hb : b.Consists options us n targets') :
    (a ++ b).Consists options (ts ++ us) (m + n) (targets ++ targets') := by
  intro before code after hyields
  obtain ⟨first, middle, second, hfirst, hsecond, rfl⟩ := yields_append.mp hyields
  obtain ⟨pieces, h⟩ := ha hfirst
  obtain ⟨pieces', h'⟩ := hb hsecond
  refine ⟨pieces ++ pieces', ?_⟩
  constructor
  case code_eq => rw [List.flatMap_append, h.code_eq, h'.code_eq]
  case tests_eq => rw [testsOf_append, List.map_append, h.tests_eq, h'.tests_eq]
  case values =>
    rw [testsOf_append]
    exact List.forall_mem_append.mpr ⟨h.values, h'.values⟩
  case jumps =>
    simp only [testsOf_append, skipsOf_append, List.mem_append]
    rintro x (hx | hx)
    · rcases h.jumps x hx with hmem | ⟨k, hk, hlabel⟩
      · exact Or.inl (Or.inl hmem)
      · exact Or.inr ⟨k, Or.inl hk, hlabel⟩
    · rcases h'.jumps x hx with hmem | ⟨k, hk, hlabel⟩
      · exact Or.inl (Or.inr hmem)
      · exact Or.inr ⟨k, Or.inr hk, hlabel⟩
  case length_skips => rw [skipsOf_append, List.length_append, h.length_skips, h'.length_skips]
  case taken =>
    rw [← Labels.allocated_append h.next_le h'.next_le]
    exact takenBy_append.trans (h.taken.append h'.taken)
  case next_le => exact Nat.le_trans h.next_le h'.next_le
  case names_eq => exact h'.names_eq.trans h.names_eq

/-- Jumps to a new label are jumps to a skip point once the label is placed. -/
theorem skip {k : Nat → Emitter} (inner : Nat → BranchTarget)
    (hinner : ∀ label : Nat, (inner label).label = label)
    (h : ∀ label, (k label).Consists options ts m [inner label, target]) :
    (withFresh fun label => k label ++ emit [.jumpdest label]).Consists options ts (1 + m)
      [target] := by
  intro before code after hyields
  obtain ⟨first, middle, second, hfirst, hsecond, rfl⟩ :=
    yields_append.mp (yields_withFresh.mp hyields)
  obtain ⟨rfl, rfl⟩ := yields_emit.mp hsecond
  obtain ⟨pieces, h⟩ := h _ hfirst
  have hlt : before.next < after.next := h.next_le
  refine ⟨pieces ++ [.skip before.next], ?_⟩
  constructor
  case code_eq =>
    rw [List.flatMap_append, ← h.code_eq]
    rfl
  case tests_eq => rw [testsOf_append, testsOf_skip, List.append_nil, h.tests_eq]
  case values => simpa using h.values
  case jumps =>
    simp only [testsOf_append, testsOf_skip, List.append_nil, skipsOf_append, skipsOf_skip]
    intro x hx
    rcases h.jumps x hx with hmem | ⟨k, hk, hlabel⟩
    · rcases List.mem_cons.mp hmem with heq | hmem
      · exact Or.inr ⟨before.next, by simp, heq ▸ hinner before.next⟩
      · exact Or.inl hmem
    · exact Or.inr ⟨k, List.mem_append_left _ hk, hlabel⟩
  case length_skips =>
    rw [skipsOf_append, skipsOf_skip, List.length_append, h.length_skips, Nat.add_comm]
    rfl
  case taken =>
    rw [Labels.allocated_cons hlt]
    exact takenBy_skip.trans (h.taken.cons _)
  case next_le => exact Nat.le_of_lt hlt
  case names_eq => exact h.names_eq

/-- A term that is decided by its value is one operand. -/
theorem jumpOn {t : Term} (hvalue : (t.lower options).value.PlacesOwn) (target : BranchTarget) :
    ((t.lower options).value.jumpOn target).Consists options [(t, target.whenHolds)] 0
      [target] := by
  intro before code after hyields
  let x : OperandTest := ⟨t, target, before⟩
  have hjump : (t.lower options).value.jumpOn target
      = (t.lower options).value ++ emit x.jumpCode := by
    cases target <;> rfl
  rw [hjump] at hyields
  obtain ⟨first, middle, second, hfirst, hsecond, rfl⟩ := yields_append.mp hyields
  obtain ⟨rfl, rfl⟩ := yields_emit.mp hsecond
  obtain ⟨hnames, hle, -⟩ := hvalue hfirst
  have hemitted : x.value options = { code := first, labels := after } := hfirst
  refine ⟨[.test x], ?_⟩
  constructor
  case code_eq =>
    show _ = (x.value options).code ++ x.jumpCode ++ []
    rw [hemitted, List.append_nil]
  case values =>
    refine List.forall_mem_singleton.mpr ?_
    rw [hemitted]
  case jumps => exact List.forall_mem_singleton.mpr (Or.inl (List.mem_singleton_self _))
  case tests_eq | length_skips => rfl
  case taken =>
    show (x.labels.allocated (x.value options).labels ++ []).Perm _
    rw [hemitted, List.append_nil]
  case next_le => exact hle
  case names_eq => exact hnames

end Emitter.Consists

namespace Term

variable {options : CompilerOptions} {t : Term}

/-- An expression without a connective at its top is one operand. -/
theorem IsExpression.consists_operand (ht : t.IsExpression)
    (hlower : ∃ value, t.lower options = .ofValue value) (htests : ∀ b, t.tests b = [(t, b)])
    (hskips : ∀ b, t.skips b = 0) (target : BranchTarget) :
    ((t.lower options).branch target).Consists options (t.tests target.whenHolds)
      (t.skips target.whenHolds) [target] := by
  have h : ((t.lower options).value.jumpOn target).Consists options _ _ _ :=
    .jumpOn ht.placesOwn.value target
  obtain ⟨value, hlower⟩ := hlower
  rw [htests, hskips]
  rw [hlower] at h ⊢
  exact h

/-- What the code of a condition consists of, by its connectives. -/
theorem IsExpression.consists (ht : t.IsExpression) (target : BranchTarget) :
    ((t.lower options).branch target).Consists options (t.tests target.whenHolds)
      (t.skips target.whenHolds) [target] := by
  induction ht generalizing target with
  | literal l =>
      exact consists_operand (.literal l) ⟨_, by rw [lower]⟩ (fun _ => rfl) (fun _ => rfl) target
  | arithmetic op hl hr =>
      exact consists_operand (.arithmetic op hl hr) ⟨_, by rw [lower]⟩ (fun _ => rfl)
        (fun _ => rfl) target
  | access r hindex =>
      exact consists_operand (.access r hindex) ⟨_, by rw [lower]⟩ (fun _ => rfl)
        (fun _ => rfl) target
  | @connective op lhs rhs _ _ ihl ihr =>
      have hboth : ∀ (left right : BranchTarget) (l r : Bool), left.whenHolds = l →
          right.whenHolds = r →
          ((lhs.lower options).branch left ++ (rhs.lower options).branch right).Consists options
            (lhs.tests l ++ rhs.tests r) (lhs.skips l + rhs.skips r) [left, right] := by
        rintro left right _ _ rfl rfl
        exact (ihl left).append (ihr right)
      rw [lower]
      cases op <;> cases target
      case and.whenTrue label =>
        -- the left operand settles what does not jump, so it has to get past the right one
        have h := Consists.skip (fun skip => .whenFalse skip) (fun _ => rfl)
          fun skip => hboth (.whenFalse skip) (.whenTrue label) false true rfl rfl
        rwa [← Nat.add_assoc] at h
      case or.whenFalse label =>
        have h := Consists.skip (fun skip => .whenTrue skip) (fun _ => rfl)
          fun skip => hboth (.whenTrue skip) (.whenFalse label) true false rfl rfl
        rwa [← Nat.add_assoc] at h
      all_goals exact (hboth _ _ _ _ rfl rfl).of_targets (by simp)

theorem IsExpression.of_mem_tests (ht : t.IsExpression) {holds : Bool} {x : Term × Bool}
    (hx : x ∈ t.tests holds) : x.1.IsExpression := by
  induction ht generalizing holds with
  | literal l =>
      rw [List.mem_singleton.mp hx]
      exact .literal l
  | arithmetic op hl hr =>
      rw [List.mem_singleton.mp hx]
      exact .arithmetic op hl hr
  | access r hindex =>
      rw [List.mem_singleton.mp hx]
      exact .access r hindex
  | connective op _ _ ihl ihr =>
      cases op with
      | and => exact (List.mem_append.mp hx).elim ihl ihr
      | or => exact (List.mem_append.mp hx).elim ihl ihr

/-- What is wrong with a condition is wrong with its operands. -/
theorem IsExpression.errors_eq (ht : t.IsExpression) (holds : Bool) :
    t.errors options = (t.tests holds).flatMap fun x => x.1.errors options := by
  induction ht generalizing holds with
  | literal | arithmetic | access => exact (List.flatMap_singleton ..).symm
  | connective op _ _ ihl ihr =>
      rw [errors]
      cases op with
      | and => rw [tests, List.flatMap_append, ← ihl, ← ihr]
      | or => rw [tests, List.flatMap_append, ← ihl, ← ihr]

end Term

/-! ### No unconditional jumps -/

/-- No instruction is an unconditional jump. -/
def JumpFree (code : List Instruction) : Prop := ∀ i ∈ code, i.mnemonic ≠ .op .jump

theorem jumpFree_append {a b : List Instruction} :
    JumpFree (a ++ b) ↔ JumpFree a ∧ JumpFree b := List.forall_mem_append

/-- Whatever the emitter emits has no unconditional jump, if it succeeds. -/
def Emitter.YieldsJumpFree (e : Emitter) : Prop :=
  ∀ ⦃before code after⦄, e.Yields before code after → JumpFree code

namespace Emitter.YieldsJumpFree

variable {a b : Emitter}

theorem emit {code : List Instruction} (h : JumpFree code) : (emit code).YieldsJumpFree := by
  intro before code' after hyields
  obtain ⟨rfl, -⟩ := yields_emit.mp hyields
  exact h

theorem append (ha : a.YieldsJumpFree) (hb : b.YieldsJumpFree) : (a ++ b).YieldsJumpFree := by
  intro before code after hyields
  obtain ⟨first, middle, second, hfirst, hsecond, rfl⟩ := yields_append.mp hyields
  exact jumpFree_append.mpr ⟨ha hfirst, hb hsecond⟩

theorem withFresh {k : Nat → Emitter} (h : ∀ label, (k label).YieldsJumpFree) :
    (withFresh k).YieldsJumpFree := by
  intro before code after hyields
  exact h _ (yields_withFresh.mp hyields)

theorem pushLiteral (options : CompilerOptions) (l : Literal) :
    (pushLiteral options l).YieldsJumpFree := by
  unfold Emitter.pushLiteral
  split
  · intro before code after hyields
    exact absurd hyields not_yields_fail
  · intro before code after hyields
    obtain ⟨data, rfl, -⟩ := yields_push hyields
    simp [JumpFree, Instruction.push]

end Emitter.YieldsJumpFree

/-- The value of an expression is computed without an unconditional jump. -/
theorem Term.IsExpression.yieldsJumpFree (options : CompilerOptions) {t : Term}
    (ht : t.IsExpression) : (t.lower options).value.YieldsJumpFree := by
  induction ht with
  | literal l =>
      rw [lower]
      exact .pushLiteral options l
  | arithmetic op _ _ ihl ihr =>
      rw [lower]
      refine (ihr.append ihl).append (.emit ?_)
      cases op <;> simp [JumpFree, Arithmetic.code, Instruction.op]
  | connective op _ _ ihl ihr =>
      rw [lower]
      refine (ihl.append (.emit ?_)).append (.withFresh fun join => ?_)
      · cases op <;> simp [JumpFree, dupTop, Instruction.op]
      · refine (Emitter.YieldsJumpFree.append (.emit ?_) ihr).append (.emit ?_)
        · simp [JumpFree, pushLabel, Instruction.op]
        · simp [JumpFree, jumpdest]
  | access r _ ih =>
      rw [lower]
      refine ih.append (.emit ?_)
      cases r <;> simp [JumpFree, Region.load, Instruction.op]

namespace ConsistsOf

variable {options : CompilerOptions} {tests : List (Term × Bool)} {skips : Nat}
  {targets : List BranchTarget} {before after : Labels} {code : List Instruction}
  {pieces : List BranchPiece}

/-- All jumps are those of the tests, and those within values. -/
theorem jumpFree (h : ConsistsOf options tests skips targets before code after pieces)
    (hoperands : ∀ x ∈ tests, x.1.IsExpression) : JumpFree code := by
  have hpieces : ∀ piece ∈ pieces, JumpFree (piece.code options) := by
    intro piece hpiece
    cases piece with
    | skip label => simp [JumpFree, BranchPiece.code, jumpdest]
    | test x =>
        have hx : x ∈ testsOf pieces := List.mem_filterMap.mpr ⟨_, hpiece, rfl⟩
        have hoperand : x.operand.IsExpression :=
          hoperands x.tested (h.tests_eq ▸ List.mem_map_of_mem hx)
        refine jumpFree_append.mpr
          ⟨hoperand.yieldsJumpFree options (yields_of_failure (h.values x hx)), ?_⟩
        unfold OperandTest.jumpCode
        split <;> simp [JumpFree, pushLabel, Instruction.op]
  rw [h.code_eq]
  intro i hi
  obtain ⟨piece, hpiece, hi⟩ := List.mem_flatMap.mp hi
  exact hpieces piece hpiece i hi

/-- The skip points are new labels, all different. -/
theorem skips_fresh (h : ConsistsOf options tests skips targets before code after pieces) :
    (skipsOf pieces).Nodup ∧ ∀ k ∈ skipsOf pieces, before.next ≤ k ∧ k < after.next := by
  have hnodup : (takenBy options pieces).Nodup := h.taken.nodup_iff.mpr List.nodup_range'
  refine ⟨(List.nodup_append.mp hnodup).1, fun k hk => ?_⟩
  have hmem := h.taken.mem_iff.mp (List.mem_append_left _ hk)
  rw [Labels.allocated, List.mem_range'_1] at hmem
  have := h.next_le
  omega

end ConsistsOf

/-! ### Compiling a condition -/

namespace Session

variable {s : Session} {t : Term}

theorem run_eq_ok_iff {e : Emitter} {errors : List CompileError} (h : e.Reports errors) :
    (s.run e).2 = .ok () ↔ errors = [] := by
  rw [run_of_reports h]
  cases errors <;> simp

/-- The code of a condition. It can be compiled if its operands can, and then it consists
of a test of each operand, from left to right, and of points to skip to: each test is the
code of the value, and one conditional jump on it, to the target or to a skip point. All
labels that the code takes are skip points and those within values. There is no
unconditional jump. -/
theorem compileBranch_consists (ht : t.IsExpression) (target : BranchTarget) :
    (s.options.Valid → ((s.compileBranch t target.labels.1 target.labels.2).2 = .ok () ↔
      ∀ x ∈ t.tests target.whenHolds, (s.compile x.1).2 = .ok ())) ∧
    ∀ after, s.compileBranch t target.labels.1 target.labels.2 = (after, .ok ()) →
      ∃ code pieces, after.instructions = s.instructions ++ code ∧
        ConsistsOf s.options (t.tests target.whenHolds) (t.skips target.whenHolds) [target]
          s.labels code after.labels pieces ∧
        ((skipsOf pieces).Nodup ∧
          ∀ k ∈ skipsOf pieces, s.labels.next ≤ k ∧ k < after.labels.next) ∧
        JumpFree code := by
  have hbranch : s.compileBranch t target.labels.1 target.labels.2
      = s.run ((t.lower s.options).branch target) := by
    cases target <;> rfl
  rw [hbranch]
  refine ⟨fun hoptions => ?_, fun after hrun => ?_⟩
  · rw [run_eq_ok_iff ((t.reports_lower hoptions).branch target), ht.errors_eq target.whenHolds,
      List.flatMap_eq_nil_iff]
    refine forall₂_congr fun x _ => (run_eq_ok_iff (x.1.reports_lower hoptions).value).symm
  · obtain ⟨code, labels, hyields, rfl⟩ := run_ok hrun
    obtain ⟨pieces, hpieces⟩ := ht.consists target hyields
    exact ⟨code, pieces, rfl, hpieces, hpieces.skips_fresh,
      hpieces.jumpFree fun x hx => ht.of_mem_tests hx⟩

/-- A conjunction in a disjunction that jumps when it does not hold: two points to skip
to, and a join within the value of an operand. -/
theorem compileBranch_consists_nested :
    let one : Term := .literal .one
    let sum : Term := .arithmetic .add (.connective .or one one) one
    let t : Term := .connective .or (.connective .and one sum) one
    let code : List Instruction :=
      [.push [1], op .isZero, .pushLabel 2, op .jumpi,
        .push [1], .push [1], dupTop, .pushLabel 3, op .jumpi, op .pop, .push [1], .jumpdest 3,
        op .add, .pushLabel 1, op .jumpi, .jumpdest 2,
        .push [1], op .isZero, .pushLabel 0, op .jumpi, .jumpdest 1]
    t.IsExpression ∧
      ({ labels := { next := 1 } } : Session).compileBranch t none (some 0)
        = ({ labels := { next := 4 }, instructions := code }, .ok ()) ∧
      ∃ pieces, ConsistsOf {} [(one, false), (sum, true), (one, false)] 2 [.whenFalse 0]
        { next := 1 } code { next := 4 } pieces ∧ JumpFree code := by
  intro one sum t code
  have hone : one.IsExpression := .literal _
  have ht : t.IsExpression :=
    .connective _ (.connective _ hone (.arithmetic _ (.connective _ hone hone) hone)) hone
  have hcompile : ({ labels := { next := 1 } } : Session).compileBranch t none (some 0)
      = ({ labels := { next := 4 }, instructions := code }, .ok ()) := by
    simp only [t, one, sum, compileBranch, run, Term.lower, Lowering.connect, Lowering.ofValue,
      Emitter.pushLiteral_one]
    rfl
  refine ⟨ht, hcompile, ?_⟩
  obtain ⟨code', pieces, hcode, hpieces, -, hfree⟩ :=
    (compileBranch_consists ht (.whenFalse 0)).2 _ hcompile
  obtain rfl : code = code' := hcode
  exact ⟨pieces, hpieces, hfree⟩

end Session

end EvmToolchain
