import EvmToolchain.Proofs.Compiler.Heights
import EvmToolchain.Proofs.Machine.Leads

/-!
# EvmToolchain.Proofs.Compiler.Expression

The code of an expression computes it.

Wherever the code of an expression is placed, and with any stack that leaves it
room, it leads to the value of the expression on top of that stack, or to a trap
if the expression has no value. The code of a condition jumps, or does not, as
the value says. Both are shown in one induction over the expression
(`Term.IsExpression.correct`), since the one kind of code contains the other.
-/

namespace EvmToolchain

open Instruction Assembly Machine Emitter

/-! ### Sites -/

/-- Where expressions are evaluated: assembled code, and what does not change
while they are. -/
structure Site where
  stream : List Instruction
  code : Bytes
  assembled : Assembled stream code
  calldata : Bytes
  memory : Nat → UInt8
  storage : Storage

namespace Site

/-- What expressions read. -/
def env (x : Site) : Semantics.Env := ⟨x.calldata, x.memory, x.storage⟩

/-- A configuration. -/
def reached (x : Site) (pc : Nat) (stack : List Nat) : Target :=
  .config ⟨pc, stack, x.memory, x.storage⟩

/-- The trap of an expression, above a stack. -/
def trap (x : Site) (stack : List Nat) : Target := .memoryBound stack x.memory x.storage

/-- The code leads from a configuration to a target. -/
def Leads (x : Site) (pc : Nat) (stack : List Nat) (T : Target) : Prop :=
  Machine.Leads (.load x.code x.calldata) ⟨pc, stack, x.memory, x.storage⟩ T

end Site

namespace BranchTarget

/-- The label to jump to. -/
def label : BranchTarget → Int
  | whenTrue label | whenFalse label => label

/-- Whether a value makes the jump. -/
def takes : BranchTarget → Semantics.Word → Bool
  | whenTrue _, v => v ≠ 0
  | whenFalse _, v => v = 0

theorem ite_whenTrue (l : Int) (v : Semantics.Word) (dest stop : Nat) :
    (if (whenTrue l).takes v then dest else stop) = if v = 0 then stop else dest := by
  by_cases hv : v = 0 <;> simp [takes, hv]

theorem ite_whenFalse (l : Int) (v : Semantics.Word) (dest stop : Nat) :
    (if (whenFalse l).takes v then dest else stop)
      = if Semantics.truth (v = 0) = 0 then stop else dest := by
  simp only [takes, Semantics.truth_eq_zero, decide_eq_true_eq, decide_eq_false_iff_not, ite_not]

end BranchTarget

namespace Connective

/-- The code that tests the left operand, which it leaves on the stack. -/
def testCode : Connective → List Instruction
  | and => [.dupTop, .op .isZero]
  | or => [.dupTop]

/-- The word that the test finds. -/
def tested : Connective → Semantics.Word → Semantics.Word
  | and, v => Semantics.truth (v = 0)
  | or, v => v

theorem decides_iff (op : Connective) (v : Semantics.Word) :
    Semantics.decides op v = true ↔ op.tested v ≠ 0 := by
  cases op with
  | and =>
      rw [Semantics.decides, tested, ne_eq, Semantics.truth_eq_zero]
      simp only [decide_eq_true_eq, decide_eq_false_iff_not, Decidable.not_not]
  | or => exact decide_eq_true_iff

/-- The left operand is the outcome if the test does not find zero. -/
theorem ite_decides (op : Connective) (v : Semantics.Word) (b : Option Semantics.Word) :
    (if Semantics.decides op v then some v else b) = if op.tested v = 0 then b else some v := by
  by_cases h : op.tested v = 0
  · rw [if_pos h, if_neg fun hd => (op.decides_iff v).mp hd h]
  · rw [if_neg h, if_pos ((op.decides_iff v).mpr h)]

theorem heightAfter_testCode (op : Connective) (height : Nat) :
    heightAfter (height + 1) op.testCode = height + 2 := by
  cases op <;> rfl

/-- The test leads to the word that it finds, on top of the left operand. -/
theorem leads_testCode (op : Connective) (x : Site) {pc : Nat} {stack : List Nat}
    (v : Semantics.Word) (hplaced : PlacedAt x.stream pc op.testCode)
    (hpeak : peak (stack.length + 1) op.testCode ≤ maxStack) :
    x.Leads pc (v.toNat :: stack)
      (x.reached (pc + codeSize op.testCode) ((op.tested v).toNat :: v.toNat :: stack)) := by
  cases op with
  | and =>
      have hpeak' := (peak_cons_le.mp hpeak).2
      refine Leads.trans (x.assembled.leads_dupTop hplaced.head v (room_of_peak hpeak)) ?_
      exact x.assembled.leads_isZero hplaced.tail.head v (room_of_peak hpeak')
  | or => exact x.assembled.leads_dupTop hplaced.head v (room_of_peak hpeak)

end Connective

/-! ### Code for values and conditions -/

/-- The emitted code computes a word onto the stack, or traps. -/
def Emitter.Computes (x : Site) (e : Emitter) (result : Option Semantics.Word) : Prop :=
  ∀ ⦃before code after⦄, e.Yields before code after →
    ∀ pc stack, PlacedAt x.stream pc code → peak stack.length code ≤ maxStack →
      x.Leads pc stack (.orTrap (x.trap stack) result fun v =>
        x.reached (pc + codeSize code) (v.toNat :: stack))

/-- The emitted code jumps if the word takes the target, and falls through
otherwise, or traps. -/
def Emitter.Branches (x : Site) (e : Emitter) (target : BranchTarget)
    (result : Option Semantics.Word) : Prop :=
  ∀ ⦃before code after⦄, e.Yields before code after →
    ∀ pc stack dest, PlacedAt x.stream pc code → peak stack.length code ≤ maxStack →
      LabelAt x.stream (some target.label) dest →
      x.Leads pc stack (.orTrap (x.trap stack) result fun v =>
        x.reached (if target.takes v then dest else pc + codeSize code) stack)

namespace Emitter

variable {x : Site} {e value first second : Emitter} {before after : Labels}
  {code rest : List Instruction} {pc dest : Nat} {stack : List Nat}
  {a b : Option Semantics.Word} {T : Semantics.Word → Target} {trap : Target}

/-- A value is computed, and then the rest of the code is run. -/
theorem Computes.andThen (h : e.Computes x a) (hturns : e.Turns 0 1)
    (htrap : (x.trap stack).Implies trap) (hyields : e.Yields before code after)
    (hplaced : PlacedAt x.stream pc (code ++ rest))
    (hpeak : peak stack.length (code ++ rest) ≤ maxStack)
    (hrest : ∀ v, a = some v → PlacedAt x.stream (pc + codeSize code) rest →
      peak (stack.length + 1) rest ≤ maxStack →
      x.Leads (pc + codeSize code) (v.toNat :: stack) (T v)) :
    x.Leads pc stack (.orTrap trap a T) := by
  obtain ⟨hpeak₁, hpeak₂⟩ := hturns.peaks hyields stack.length hpeak
  refine Machine.Leads.andThen (h hyields pc stack hplaced.left hpeak₁) htrap fun v hv => ?_
  exact hrest v hv hplaced.right hpeak₂

/-- A condition is decided, and then the code at the target or the rest of the
code is run. -/
theorem Branches.andThen {target : BranchTarget} (h : e.Branches x target a)
    (hturns : e.Turns 0 0) (htrap : (x.trap stack).Implies trap)
    (hyields : e.Yields before code after)
    (hplaced : PlacedAt x.stream pc (code ++ rest))
    (hpeak : peak stack.length (code ++ rest) ≤ maxStack)
    (hlabel : LabelAt x.stream (some target.label) dest)
    (hrest : ∀ v, a = some v → PlacedAt x.stream (pc + codeSize code) rest →
      peak stack.length rest ≤ maxStack →
      x.Leads (if target.takes v then dest else pc + codeSize code) stack (T v)) :
    x.Leads pc stack (.orTrap trap a T) := by
  obtain ⟨hpeak₁, hpeak₂⟩ := hturns.peaks hyields stack.length hpeak
  refine Machine.Leads.andThen (h hyields pc stack dest hplaced.left hpeak₁ hlabel) htrap
    fun v hv => ?_
  exact hrest v hv hplaced.right hpeak₂

/-- A number is pushed, and then the rest of the code is run. -/
theorem leads_push {options : CompilerOptions} {n : Nat} {T : Target}
    (hyields : (push options n).Yields before code after)
    (hplaced : PlacedAt x.stream pc (code ++ rest))
    (hpeak : peak stack.length (code ++ rest) ≤ maxStack)
    (hrest : PlacedAt x.stream (pc + codeSize code) rest →
      peak (stack.length + 1) rest ≤ maxStack → x.Leads (pc + codeSize code) (n :: stack) T) :
    x.Leads pc stack T := by
  obtain ⟨data, rfl, -, hpos, hlen, rfl⟩ := yields_push hyields
  refine Leads.trans (x.assembled.leads_push hplaced.left hpos hlen (room_of_peak hpeak)) ?_
  exact hrest hplaced.right (peak_cons_le.mp hpeak).2

theorem Computes.push {options : CompilerOptions} {n : Nat} :
    (push options n).Computes x (some (BitVec.ofNat 256 n)) := by
  intro before code after hyields pc stack hplaced hpeak
  obtain ⟨data, rfl, -, hpos, hlen, rfl⟩ := yields_push hyields
  have hv : BigEndian.toNat data < Word.modulus :=
    Nat.lt_of_lt_of_le (BigEndian.toNat_lt data) (BigEndian.capacity_mono hlen)
  show x.Leads pc stack (x.reached _ ((BitVec.ofNat 256 (BigEndian.toNat data)).toNat :: stack))
  rw [Semantics.toNat_ofNat hv]
  exact x.assembled.leads_push hplaced hpos hlen (room_of_peak hpeak)

/-- A value is computed and then looked at by a jump. -/
theorem Computes.jumpOn (h : value.Computes x a) (hturns : value.Turns 0 1)
    (target : BranchTarget) : (value.jumpOn target).Branches x target a := by
  intro before code after hyields pc stack dest hplaced hpeak hlabel
  cases target with
  | whenTrue label =>
      obtain ⟨front, middle, back, hfront, hback, rfl⟩ := yields_append.mp hyields
      obtain ⟨rfl, -⟩ := yields_emit.mp hback
      refine h.andThen hturns (.refl _) hfront hplaced hpeak fun v _ hplaced hpeak => ?_
      refine Leads.trans
        (x.assembled.leads_pushLabel hplaced.head hlabel (room_of_peak hpeak)) ?_
      have hstop : pc + codeSize (front ++ [.pushLabel label, .op .jumpi])
          = pc + codeSize front + (Instruction.pushLabel label).length + 1 := by
        rw [codeSize_append]
        rfl
      rw [BranchTarget.ite_whenTrue, hstop]
      exact x.assembled.leads_jumpi hplaced.tail hlabel v
  | whenFalse label =>
      obtain ⟨front, middle, back, hfront, hback, rfl⟩ := yields_append.mp hyields
      obtain ⟨rfl, -⟩ := yields_emit.mp hback
      refine h.andThen hturns (.refl _) hfront hplaced hpeak fun v _ hplaced hpeak => ?_
      have hpeak' := (peak_cons_le.mp hpeak).2
      refine Leads.trans (x.assembled.leads_isZero hplaced.head v (room_of_peak hpeak)) ?_
      refine Leads.trans
        (x.assembled.leads_pushLabel hplaced.tail.head hlabel (room_of_peak hpeak')) ?_
      have hstop : pc + codeSize (front ++ [.op .isZero, .pushLabel label, .op .jumpi])
          = pc + codeSize front + 1 + (Instruction.pushLabel label).length + 1 := by
        rw [codeSize_append]
        rfl
      rw [BranchTarget.ite_whenFalse, hstop]
      exact x.assembled.leads_jumpi hplaced.tail.tail hlabel _

/-- The second condition is looked at only if the first one does not jump. Both
jump to one label. -/
theorem Branches.append {target : BranchTarget} (hfirst : first.Branches x target a)
    (hturns : first.Turns 0 0) (hsecond : second.Branches x target b) :
    (first ++ second).Branches x target
      (a.bind fun v => if target.takes v then some v else b) := by
  intro before code after hyields pc stack dest hplaced hpeak hlabel
  obtain ⟨front, middle, back, hfront, hback, rfl⟩ := yields_append.mp hyields
  obtain ⟨hpeak₁, hpeak₂⟩ := hturns.peaks hfront stack.length hpeak
  have hleads := hfirst hfront pc stack dest hplaced.left hpeak₁ hlabel
  cases a with
  | none => exact hleads
  | some v =>
      rw [Target.orTrap_some] at hleads
      rw [Option.bind_some]
      by_cases htakes : target.takes v = true
      · rw [if_pos htakes, Target.orTrap_some, if_pos htakes]
        rwa [if_pos htakes] at hleads
      · rw [if_neg htakes] at hleads ⊢
        rw [codeSize_append, ← Nat.add_assoc]
        exact Leads.trans hleads (hsecond hback _ stack dest hplaced.right hpeak₂ hlabel)

/-- The second condition is looked at only if the first one does not jump over
it. Jumping over it is falling through. -/
theorem Branches.skip {bypass target : BranchTarget} {skip : Int} (hbypass : bypass.label = skip)
    (hfirst : first.Branches x bypass a) (hturns : first.Turns 0 0)
    (hsecond : second.Branches x target b) (hturns' : second.Turns 0 0)
    (hexclude : ∀ v, bypass.takes v = true → target.takes v = false) :
    (first ++ second ++ emit [.jumpdest skip]).Branches x target
      (a.bind fun v => if bypass.takes v then some v else b) := by
  intro before code after hyields pc stack dest hplaced hpeak hlabel
  obtain ⟨both, _, _, hboth, hlast, rfl⟩ := yields_append.mp hyields
  obtain ⟨front, middle, back, hfront, hback, rfl⟩ := yields_append.mp hboth
  obtain ⟨rfl, -⟩ := yields_emit.mp hlast
  have hdest : PlacedAt x.stream (pc + codeSize front + codeSize back) [.jumpdest skip] := by
    rw [Nat.add_assoc, ← codeSize_append]
    exact hplaced.right
  have hstop : pc + codeSize (front ++ back ++ [.jumpdest skip])
      = pc + codeSize front + codeSize back + 1 := by
    rw [codeSize_append, codeSize_append, ← Nat.add_assoc, ← Nat.add_assoc]
    rfl
  rw [List.append_assoc] at hplaced hpeak
  rw [Target.orTrap_bind, hstop]
  -- the label of the jump over is placed right behind the second condition
  refine hfirst.andThen hturns (.refl _) hfront hplaced hpeak ⟨_, rfl, hbypass ▸ rfl, hdest⟩
    fun v _ hplaced hpeak => ?_
  by_cases htakes : bypass.takes v = true
  · rw [if_pos htakes, if_pos htakes, Target.orTrap_some, hexclude v htakes]
    exact x.assembled.leads_jumpdest hdest
  · rw [if_neg htakes, if_neg htakes]
    -- the second condition falls through to the label of the jump over, too
    obtain ⟨hpeak₁, -⟩ := hturns'.peaks hback stack.length hpeak
    have hleads := hsecond hback _ stack dest hplaced.left hpeak₁ hlabel
    cases b with
    | none => exact hleads
    | some w =>
        rw [Target.orTrap_some] at hleads ⊢
        by_cases htakes' : target.takes w = true
        · rw [if_pos htakes'] at hleads ⊢
          exact hleads
        · rw [if_neg htakes'] at hleads ⊢
          exact Leads.trans hleads (x.assembled.leads_jumpdest hdest)

/-- The value of a connective: the left operand is kept if the tested word is not
zero, and is otherwise replaced by the right one. -/
theorem leads_join {join : Nat} {v test : Semantics.Word} (hrhs : second.Computes x b)
    (hturns : second.Turns 0 1) (hyields : second.Yields before code after)
    (hplaced : PlacedAt x.stream pc
      ([.pushLabel join, .op .jumpi, .op .pop] ++ code ++ [.jumpdest join]))
    (hpeak : peak (stack.length + 2)
      ([.pushLabel join, .op .jumpi, .op .pop] ++ code ++ [.jumpdest join]) ≤ maxStack) :
    x.Leads pc (test.toNat :: v.toNat :: stack)
      (.orTrap (x.trap stack) (if test = 0 then b else some v) fun u =>
        x.reached
          (pc + codeSize ([.pushLabel join, .op .jumpi, .op .pop] ++ code ++ [.jumpdest join]))
          (u.toNat :: stack)) := by
  have hdest := hplaced.right
  have hlabel : LabelAt x.stream (some (join : Int)) _ := ⟨_, rfl, rfl, hdest⟩
  have hstop : codeSize ([.pushLabel join, .op .jumpi, .op .pop] ++ code ++ [.jumpdest join])
      = codeSize ([.pushLabel join, .op .jumpi, .op .pop] ++ code) + 1 := codeSize_append _ _
  rw [hstop, ← Nat.add_assoc]
  rw [List.append_assoc] at hplaced hpeak
  have hjumpi := hplaced.tail
  refine Leads.trans
    (x.assembled.leads_pushLabel hplaced.head hlabel (room_of_peak hpeak)) ?_
  -- if the jump is taken, the left operand is still on the stack, and it is the value
  refine Leads.trans (x.assembled.leads_jumpi hjumpi.head hlabel test) ?_
  by_cases htest : test = 0
  · rw [if_pos htest, if_pos htest]
    refine Leads.trans (x.assembled.leads_pop hjumpi.tail.head v.toNat) ?_
    have hcode := hjumpi.tail.tail
    have hpeak' : peak stack.length (code ++ [.jumpdest join]) ≤ maxStack :=
      (peak_cons_le.mp (peak_cons_le.mp (peak_cons_le.mp hpeak).2).2).2
    refine hrhs.andThen hturns (.refl _) hyields hcode hpeak' fun u _ hlast _ => ?_
    have hpc : pc + codeSize ([.pushLabel join, .op .jumpi, .op .pop] ++ code)
        = pc + (Instruction.pushLabel join).length + 1 + 1 + codeSize code := by
      rw [codeSize_append]
      simp only [codeSize_cons, codeSize_nil, Instruction.length, Instruction.op]
      omega
    rw [hpc]
    exact x.assembled.leads_jumpdest hlast
  · rw [if_neg htest, if_neg htest]
    exact x.assembled.leads_jumpdest hdest

end Emitter

/-! ### Terms -/

/-- Both ways to lower a term agree with its result. -/
structure Lowering.Correct (x : Site) (l : Lowering) (result : Option Semantics.Word) : Prop where
  balanced : l.Balanced
  value : l.value.Computes x result
  branch : ∀ target, (l.branch target).Branches x target result

namespace Lowering.Correct

variable {x : Site} {value : Emitter} {lhs rhs : Lowering} {a b : Option Semantics.Word}

theorem ofValue (h : value.Computes x a) (hturns : value.Turns 0 1) :
    (Lowering.ofValue value).Correct x a :=
  ⟨.ofValue hturns, h, h.jumpOn hturns⟩

theorem connect (op : Connective) (hl : lhs.Correct x a) (hr : rhs.Correct x b) :
    (Lowering.connect op lhs rhs).Correct x
      (a.bind fun v => if Semantics.decides op v then some v else b) where
  balanced := .connect op hl.balanced hr.balanced
  value := by
    intro before code after hyields pc stack hplaced hpeak
    obtain ⟨_, _, _, hboth, hback, rfl⟩ := yields_append.mp hyields
    obtain ⟨front, _, test, hfront, htest, rfl⟩ := yields_append.mp hboth
    obtain ⟨_, _, _, hboth, hlast, rfl⟩ := yields_append.mp (yields_withFresh.mp hback)
    obtain ⟨_, _, code, hjump, hcode, rfl⟩ := yields_append.mp hboth
    obtain ⟨rfl, rfl⟩ := yields_emit.mp hjump
    obtain ⟨rfl, -⟩ := yields_emit.mp hlast
    -- the left operand is computed and tested before the code that may replace it
    rw [List.append_assoc] at hplaced hpeak
    rw [Target.orTrap_bind]
    refine hl.value.andThen hl.balanced.value (.refl _) hfront hplaced hpeak
      fun v _ hplaced hpeak => ?_
    obtain ⟨rfl, rfl⟩ : test = op.testCode ∧ _ = _ := by
      cases op <;> exact yields_emit.mp htest
    obtain ⟨hpeak₁, hpeak₂⟩ := peak_append_le.mp hpeak
    rw [op.heightAfter_testCode] at hpeak₂
    refine Leads.trans (op.leads_testCode x v hplaced.left hpeak₁) ?_
    rw [op.ite_decides, codeSize_append, codeSize_append, Nat.add_assoc (codeSize front),
      ← Nat.add_assoc pc, ← Nat.add_assoc (pc + codeSize front)]
    exact leads_join hr.value hr.balanced.value hcode hplaced.right hpeak₂
  branch target := by
    cases op <;> cases target
    case and.whenTrue label =>
      intro before code after hyields
      have hskip := Branches.skip rfl (hl.branch (.whenFalse before.next)) (hl.balanced.branch _)
        (hr.branch (.whenTrue label)) (hr.balanced.branch _)
        fun v hv => by simpa [BranchTarget.takes] using hv
      exact hskip hyields
    case or.whenFalse label =>
      intro before code after hyields
      have hskip := Branches.skip rfl (hl.branch (.whenTrue before.next)) (hl.balanced.branch _)
        (hr.branch (.whenFalse label)) (hr.balanced.branch _)
        fun v hv => by simpa [BranchTarget.takes] using hv
      exact hskip hyields
    all_goals exact (hl.branch _).append (hl.balanced.branch _) (hr.branch _)

end Lowering.Correct

open Semantics in
/-- The code of an operator computes it, by one operation of the machine, or by
one whose truth is then negated. -/
theorem Arithmetic.code_spec (op : Arithmetic) :
    ∃ (o : Opcode) (f : Nat → Nat → Nat) (g : Semantics.Word → Semantics.Word → Semantics.Word),
      Machine.binary? o = some f ∧ (∀ a b, (g a b).toNat = f a.toNat b.toNat) ∧
      ((op.code = [.op o] ∧ ∀ a b, arithmetic op a b = g a b) ∨
        (op.code = [.op o, .op .isZero] ∧ ∀ a b, arithmetic op a b = truth (g a b = 0))) := by
  cases op with
  | add => exact ⟨.add, _, (· + ·), rfl, toNat_add, Or.inl ⟨rfl, fun _ _ => rfl⟩⟩
  | subtract => exact ⟨.sub, _, (· - ·), rfl, toNat_sub, Or.inl ⟨rfl, fun _ _ => rfl⟩⟩
  | multiply => exact ⟨.mul, _, (· * ·), rfl, toNat_mul, Or.inl ⟨rfl, fun _ _ => rfl⟩⟩
  | divide => exact ⟨.div, _, _, rfl, toNat_div, Or.inl ⟨rfl, fun _ _ => rfl⟩⟩
  | remainder => exact ⟨.mod, _, _, rfl, toNat_mod, Or.inl ⟨rfl, fun _ _ => rfl⟩⟩
  | equals => exact ⟨.eq, _, _, rfl, toNat_equals, Or.inl ⟨rfl, fun _ _ => rfl⟩⟩
  | lessThan => exact ⟨.lt, _, _, rfl, toNat_lessThan, Or.inl ⟨rfl, fun _ _ => rfl⟩⟩
  | greaterThan => exact ⟨.gt, _, _, rfl, toNat_greaterThan, Or.inl ⟨rfl, fun _ _ => rfl⟩⟩
  | notEquals =>
      refine ⟨.eq, _, _, rfl, toNat_equals, Or.inr ⟨rfl, fun a b => ?_⟩⟩
      simp only [arithmetic, truth_eq_zero, decide_eq_false_iff_not, ne_eq]
  | lessOrEquals =>
      refine ⟨.gt, _, _, rfl, toNat_greaterThan, Or.inr ⟨rfl, fun a b => ?_⟩⟩
      simp only [arithmetic, truth_eq_zero, decide_eq_false_iff_not, BitVec.not_lt]
  | greaterOrEquals =>
      refine ⟨.lt, _, _, rfl, toNat_lessThan, Or.inr ⟨rfl, fun a b => ?_⟩⟩
      simp only [arithmetic, truth_eq_zero, decide_eq_false_iff_not, BitVec.not_lt]


namespace Emitter

variable {x : Site} {lhs rhs : Lowering} {a b : Option Semantics.Word} {pc : Nat}
  {stack : List Nat}

theorem leads_arithmetic (op : Arithmetic) (hplaced : PlacedAt x.stream pc op.code)
    (hpeak : peak (stack.length + 2) op.code ≤ maxStack) (v w : Semantics.Word) :
    x.Leads pc (v.toNat :: w.toNat :: stack)
      (x.reached (pc + codeSize op.code) ((Semantics.arithmetic op v w).toNat :: stack)) := by
  have hlen : stack.length + 2 ≤ maxStack := Nat.le_trans le_peak hpeak
  obtain ⟨o, f, g, hf, hg, ⟨hcode, hvalue⟩ | ⟨hcode, hvalue⟩⟩ := op.code_spec
  · rw [hcode] at hplaced ⊢
    rw [hvalue]
    exact x.assembled.leads_binary hplaced hf hg v w (by omega)
  · rw [hcode] at hplaced ⊢
    rw [hvalue]
    refine Leads.trans (x.assembled.leads_binary hplaced.head hf hg v w (by omega)) ?_
    exact x.assembled.leads_isZero hplaced.tail (g v w) (by omega)

theorem Computes.arithmetic (op : Arithmetic) (hl : lhs.Correct x a) (hr : rhs.Correct x b) :
    (rhs.value ++ lhs.value ++ emit op.code).Computes x
      (b.bind fun w => a.bind fun v => some (Semantics.arithmetic op v w)) := by
  intro before code after hyields pc stack hplaced hpeak
  obtain ⟨_, _, _, hboth, hlast, rfl⟩ := yields_append.mp hyields
  obtain ⟨right, _, left, hright, hleft, rfl⟩ := yields_append.mp hboth
  obtain ⟨rfl, -⟩ := yields_emit.mp hlast
  rw [List.append_assoc] at hplaced hpeak
  rw [List.append_assoc, codeSize_append, codeSize_append, ← Nat.add_assoc, ← Nat.add_assoc,
    Target.orTrap_bind]
  refine hr.value.andThen hr.balanced.value (.refl _) hright hplaced hpeak
    fun w _ hplaced hpeak => ?_
  rw [Target.orTrap_bind]
  -- the right operand is on the stack while the left one is computed
  refine hl.value.andThen hl.balanced.value (.memoryBound (List.suffix_cons _ _)) hleft hplaced
    hpeak fun v _ hplaced hpeak => ?_
  exact leads_arithmetic op hplaced hpeak v w

theorem Computes.load (r : Region) (h : lhs.Correct x a) :
    (lhs.value ++ emit [r.load]).Computes x (a.bind (x.env.read r)) := by
  intro before code after hyields pc stack hplaced hpeak
  obtain ⟨front, _, _, hfront, hlast, rfl⟩ := yields_append.mp hyields
  obtain ⟨rfl, -⟩ := yields_emit.mp hlast
  have hstop : pc + codeSize (front ++ [r.load]) = pc + codeSize front + 1 := by
    rw [codeSize_append]
    cases r <;> rfl
  rw [hstop, Target.orTrap_bind]
  refine h.value.andThen h.balanced.value (.refl _) hfront hplaced hpeak
    fun i _ hplaced hpeak => ?_
  cases r with
  | memory =>
      rw [Semantics.Env.read, Target.orTrap_ite]
      exact x.assembled.leads_mload hplaced i.toNat (room_of_peak hpeak)
  | storage => exact x.assembled.leads_sload hplaced i.toNat (room_of_peak hpeak)
  | callData => exact x.assembled.leads_callDataLoad hplaced i.toNat (room_of_peak hpeak)

end Emitter

/-- The code of an expression computes it, and the code of a condition jumps as
its value says. -/
theorem Term.IsExpression.correct (x : Site) (options : CompilerOptions) {t : Term}
    (h : t.IsExpression) : (t.lower options).Correct x (Semantics.eval x.env t) := by
  induction h with
  | literal l =>
      have hturns := ((literal l).balanced options).value
      rw [Term.lower] at hturns ⊢
      refine .ofValue ?_ hturns
      intro before code after hyields
      rw [pushLiteral] at hyields
      rw [Semantics.eval]
      split at hyields
      · exact absurd hyields not_yields_fail
      · exact Computes.push hyields
  | arithmetic op hl hr ihl ihr =>
      have hturns := ((hl.arithmetic op hr).balanced options).value
      rw [Term.lower] at hturns ⊢
      rw [Semantics.eval]
      exact .ofValue (.arithmetic op ihl ihr) hturns
  | connective op _ _ ihl ihr =>
      rw [Term.lower, Semantics.eval]
      exact .connect op ihl ihr
  | access r hindex ih =>
      have hturns := ((hindex.access r).balanced options).value
      rw [Term.lower] at hturns ⊢
      rw [Semantics.eval]
      exact .ofValue (.load r ih) hturns

end EvmToolchain
