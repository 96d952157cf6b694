import EvmToolchain.Proofs.Machine.StackEffect

/-!
# EvmToolchain.Proofs.Machine.Accounting

Every step keeps the accounts of the opcode table.

A step on a supported instruction lacks operands exactly if the stack has fewer
items than the table says are consumed, and otherwise lacks room exactly if the
stack would get too high by the table. If it goes on, it has replaced as many items
as the table says and left those below alone (`Machine.Step.Accounts`).

Operands are taken off one by one, so the accounts of an instruction are those of
what it does with them, with one more operand for each (`Machine.Step.Accounts.cons`).
The cases of `executeOp` are put together from those of their parts.

The accounts of a step name every way for it to end, so they can be read backwards:
one that lacks operands or room does halt for that (`Machine.step_keepsAccounts`).
-/

namespace EvmToolchain

open Instruction

/-- A stack of the height has the items that are consumed, and room for those that
are produced. -/
structure StackEffect.Fits (effect : StackEffect) (height : Nat) : Prop where
  operands : effect.pops ≤ height
  room : height - effect.pops + effect.pushes ≤ maxStack

/-- Whether the machine has an effect for the opcode. -/
def Opcode.isSupported : Opcode → Bool
  | .stop | .ret | .revert | .invalid | .dup _ | .swap _ | .pop | .mload | .mstore | .sload
  | .sstore | .callDataLoad | .callDataSize | .jump | .jumpi => true
  | o => (Machine.binary? o).isSome || (Machine.unary? o).isSome

/-- Whether the machine has an effect for the instruction. -/
def Instruction.isSupported (i : Instruction) : Bool :=
  match i.mnemonic with
  | .push | .push0 | .jumpdest => true
  | .op o => o.isSupported
  | _ => false

namespace Machine

/-! ### Accounts -/

/-- What it takes for execution to halt with a fault on a stack of the height.
Instructions are supported, and only some jumps may be refused. -/
def Fault.Accounts (refuses : Nat → Prop) (effect : StackEffect) (height : Nat) : Fault → Prop
  | .stackUnderflow => height < effect.pops
  | .stackOverflow => effect.pops ≤ height ∧ maxStack < height - effect.pops + effect.pushes
  | .invalidJump dest => effect.Fits height ∧ refuses dest
  | .unsupported _ => False
  | .invalidInstruction | .memoryBound => effect.Fits height

/-- What it takes for execution to end on a stack of the height. -/
def Ending.Accounts (refuses : Nat → Prop) (effect : StackEffect) (height : Nat) : Ending → Prop
  | .faulted f => f.Accounts refuses effect height
  | .stopped | .returned _ | .reverted _ => effect.Fits height

/-- The step does to the stack what the effect says: it ends for lack of operands or
room only where they are lacking, and goes on only where they are there, with so
many new items in the place of the operands. -/
def Step.Accounts (refuses : Nat → Prop) (effect : StackEffect) (stack : List Nat) : Step → Prop
  | .next t =>
    effect.Fits stack.length ∧
      ∃ results, results.length = effect.pushes ∧ t.stack = results ++ stack.drop effect.pops
  | .halt e _ => e.Accounts refuses effect stack.length
  | .error _ => False

section

variable {refuses : Nat → Prop} {effect : StackEffect} {stack : List Nat} {pops pushes : Nat}

/-- One more operand is one more item on the stack. -/
theorem fits_succ {height : Nat} (h : (⟨pops, pushes⟩ : StackEffect).Fits height) :
    (⟨pops + 1, pushes⟩ : StackEffect).Fits (height + 1) where
  operands := Nat.succ_le_succ h.operands
  room := by
    rw [Nat.add_sub_add_right]
    exact h.room

theorem Fault.Accounts.succ {f : Fault} {height : Nat}
    (h : f.Accounts refuses ⟨pops, pushes⟩ height) :
    f.Accounts refuses ⟨pops + 1, pushes⟩ (height + 1) := by
  cases f with
  | stackUnderflow => exact Nat.succ_lt_succ h
  | stackOverflow =>
      refine ⟨Nat.succ_le_succ h.1, ?_⟩
      rw [Nat.add_sub_add_right]
      exact h.2
  | invalidJump dest => exact ⟨fits_succ h.1, h.2⟩
  | unsupported name => exact h
  | invalidInstruction | memoryBound => exact fits_succ h

theorem Step.Accounts.cons {step : Step} {a : Nat}
    (h : step.Accounts refuses ⟨pops, pushes⟩ stack) :
    step.Accounts refuses ⟨pops + 1, pushes⟩ (a :: stack) := by
  match step, h with
  | .next t, h => exact ⟨fits_succ h.1, h.2⟩
  | .halt (.faulted f) t, h => exact Fault.Accounts.succ h
  | .halt .stopped t, h => exact fits_succ h
  | .halt (.returned data) t, h => exact fits_succ h
  | .halt (.reverted data) t, h => exact fits_succ h

/-- Any other end finds its operands, and has room. -/
theorem Ending.accounts_of_fits {e : Ending} {height : Nat} (he : ∀ f, e ≠ .faulted f)
    (h : effect.Fits height) : e.Accounts refuses effect height := by
  cases e with
  | faulted f => exact absurd rfl (he f)
  | stopped | returned _ | reverted _ => exact h

end

namespace State

/-! ### Parts of steps -/

variable {s : State} {refuses : Nat → Prop} {next : Nat}

/-- Nothing is consumed or produced. -/
theorem fits_none (hlen : s.stack.length ≤ maxStack) :
    (⟨0, 0⟩ : StackEffect).Fits s.stack.length :=
  ⟨Nat.zero_le _, hlen⟩

theorem push_accounts (value : Nat) : (s.push next value).Accounts refuses ⟨0, 1⟩ s.stack := by
  unfold push
  split
  · next hlt => exact ⟨⟨Nat.zero_le _, hlt⟩, [_], rfl, rfl⟩
  · next hge => exact ⟨Nat.zero_le _, Nat.lt_succ_of_le (Nat.not_lt.mp hge)⟩

theorem next_accounts (hlen : s.stack.length ≤ maxStack) {t : State} (ht : t.stack = s.stack) :
    (Step.next t).Accounts refuses ⟨0, 0⟩ s.stack :=
  ⟨fits_none hlen, [], rfl, ht⟩

theorem jump_accounts {p : Program} {dest : Nat} (hlen : s.stack.length ≤ maxStack)
    (hrefuses : p.isJumpdest dest = false → refuses dest) :
    (s.jump p dest).Accounts refuses ⟨0, 0⟩ s.stack := by
  unfold jump
  split
  · exact next_accounts hlen rfl
  · next hdest => exact ⟨fits_none hlen, hrefuses (Bool.eq_false_iff.mpr hdest)⟩

/-- Taking an operand consumes an item, or there is none. -/
theorem withOne_accounts {k : Nat → State → Step} {pops pushes : Nat}
    (hk : ∀ a rest, s.stack = a :: rest →
      (k a { s with stack := rest }).Accounts refuses ⟨pops, pushes⟩ rest) :
    (s.withOne k).Accounts refuses ⟨pops + 1, pushes⟩ s.stack := by
  unfold withOne
  split
  · next a rest hstack =>
    rw [hstack]
    exact (hk a rest hstack).cons
  · next hstack =>
    rw [hstack]
    exact Nat.succ_pos pops

theorem withTwo_accounts {k : Nat → Nat → State → Step} {pops pushes : Nat}
    (hk : ∀ a b rest, s.stack = a :: b :: rest →
      (k a b { s with stack := rest }).Accounts refuses ⟨pops, pushes⟩ rest) :
    (s.withTwo k).Accounts refuses ⟨pops + 2, pushes⟩ s.stack :=
  withOne_accounts fun a _ hstack =>
    withOne_accounts (s := { s with stack := _ }) fun b rest hrest =>
      hk a b rest (hstack.trans (congrArg _ hrest))

theorem finish_accounts (hlen : s.stack.length ≤ maxStack) (offset size : Nat)
    {ending : Bytes → Ending} (hending : ∀ b f, ending b ≠ .faulted f) :
    (s.finish offset size ending).Accounts refuses ⟨0, 0⟩ s.stack := by
  unfold finish
  split
  · exact Ending.accounts_of_fits (hending _) (fits_none hlen)
  · exact fits_none hlen

theorem load_accounts (hlen : s.stack.length < maxStack) (offset : Nat) :
    (s.load next offset).Accounts refuses ⟨0, 1⟩ s.stack := by
  unfold load
  split
  · exact push_accounts (s := { s with memory := _ }) _
  · exact ⟨Nat.zero_le _, hlen⟩

/-- A word fits the bytes that are written for it. -/
theorem store_accounts (hlen : s.stack.length ≤ maxStack) (offset : Nat) {value : Nat}
    (hvalue : value < Word.modulus) :
    (s.store next offset value).Accounts refuses ⟨0, 0⟩ s.stack := by
  unfold store
  split
  · exact fits_none hlen
  · rw [if_pos hvalue]
    exact next_accounts hlen rfl

/-- A copy is found if the stack reaches down to it. -/
theorem dup_accounts (p : Program) (n : Fin 16) :
    (executeOp p (.dup n) next s).Accounts refuses ⟨n + 1, n + 2⟩ s.stack := by
  have hcount : s.stack.length - (n.val + 1) + (n.val + 2) = s.stack.length + 1 ∨
      s.stack.length ≤ n.val := by omega
  simp only [executeOp]
  split
  · next value hvalue =>
    obtain ⟨hlt, -⟩ := List.getElem?_eq_some_iff.mp hvalue
    have hcount := hcount.resolve_right (Nat.not_le.mpr hlt)
    unfold push
    split
    · next hroom =>
      refine ⟨⟨hlt, hcount.trans_le hroom⟩, Word.wrap value :: s.stack.take (n + 1), ?_, ?_⟩
      · rw [List.length_cons, List.length_take_of_le hlt]
      · rw [List.cons_append, List.take_append_drop]
    · next hfull =>
      exact ⟨hlt, hcount.symm ▸ Nat.lt_succ_of_le (Nat.not_lt.mp hfull)⟩
  · next hnone => exact Nat.lt_succ_of_le (List.getElem?_eq_none_iff.mp hnone)

/-- An exchange leaves all items below those that it exchanges. -/
theorem swap_accounts (hlen : s.stack.length ≤ maxStack) (p : Program) (n : Fin 16) :
    (executeOp p (.swap n) next s).Accounts refuses ⟨n + 2, n + 2⟩ s.stack := by
  simp only [executeOp]
  split
  · next top other _ hother =>
    obtain ⟨hlt, -⟩ := List.getElem?_eq_some_iff.mp hother
    have hdrop : ((s.stack.set 0 other).set (n + 1) top).drop (n + 2) = s.stack.drop (n + 2) := by
      rw [List.drop_set_of_lt (Nat.lt_succ_self _), List.drop_set_of_lt (Nat.succ_pos _)]
    refine ⟨⟨hlt, (Nat.sub_add_cancel hlt).trans_le hlen⟩,
      ((s.stack.set 0 other).set (n + 1) top).take (n + 2), ?_, ?_⟩
    · rw [List.length_take_of_le]
      rw [List.length_set, List.length_set]
      exact hlt
    · rw [← hdrop, List.take_append_drop]
  · next hnone =>
    show s.stack.length < n + 2
    by_contra hle
    have hlt : n.val + 1 < s.stack.length := by omega
    exact hnone _ _ (List.getElem?_eq_getElem (by omega)) (List.getElem?_eq_getElem hlt)

/-- The opcodes without an effect of their own that are supported compute a word
from their operands. -/
theorem operation_accounts {p : Program} {o : Opcode}
    (hsupported : ((binary? o).isSome || (unary? o).isSome) = true)
    (hop : executeOp p o next s = match binary? o, unary? o with
      | some f, _ => s.withTwo fun a b s => s.push next (f a b)
      | none, some f => s.withOne fun a s => s.push next (f a)
      | none, none => s.fault (.unsupported o.name)) :
    (executeOp p o next s).Accounts refuses ⟨o.pops, o.pushes⟩ s.stack := by
  rw [hop]
  split
  · next f _ hf =>
    obtain ⟨hpops, hpushes⟩ := binary?_arity hf
    rw [hpops, hpushes]
    exact withTwo_accounts fun a b rest _ => push_accounts (s := { s with stack := rest }) _
  · next f _ hf =>
    obtain ⟨hpops, hpushes⟩ := unary?_arity hf
    rw [hpops, hpushes]
    exact withOne_accounts fun a rest _ => push_accounts (s := { s with stack := rest }) _
  · next hb hu =>
    rw [hb, hu] at hsupported
    cases hsupported

/-! ### Steps -/

theorem executeOp_accounts {p : Program} {o : Opcode} (hsupported : o.isSupported = true)
    (hwords : AllWords s.stack) (hlen : s.stack.length ≤ maxStack)
    (hrefuses : ∀ {dest rest}, Takes (.op o) s.stack dest rest → p.isJumpdest dest = false →
      refuses dest) :
    (executeOp p o next s).Accounts refuses ⟨o.pops, o.pushes⟩ s.stack := by
  have hone : ∀ {a rest}, s.stack = a :: rest → rest.length < maxStack := by
    intro a rest hstack
    rwa [hstack] at hlen
  have htwo : ∀ {a b rest}, s.stack = a :: b :: rest → rest.length ≤ maxStack := by
    intro a b rest hstack
    exact Nat.le_of_succ_le (Nat.le_of_lt (hone hstack))
  cases o with
  | stop | invalid => exact fits_none hlen
  | ret | revert =>
      exact withTwo_accounts fun offset size rest hstack =>
        finish_accounts (s := { s with stack := rest }) (htwo hstack) _ _ nofun
  | dup n => exact dup_accounts p n
  | swap n => exact swap_accounts hlen p n
  | pop =>
      simp only [executeOp]
      refine withOne_accounts fun _ rest hstack => ?_
      exact next_accounts (s := { s with stack := rest }) (Nat.le_of_lt (hone hstack)) rfl
  | mload =>
      simp only [executeOp]
      refine withOne_accounts fun offset rest hstack => ?_
      exact load_accounts (s := { s with stack := rest }) (hone hstack) offset
  | mstore =>
      refine withTwo_accounts fun offset value rest hstack => ?_
      rw [hstack] at hwords
      exact store_accounts (s := { s with stack := rest }) (htwo hstack) offset
        (allWords_cons.mp (allWords_cons.mp hwords).2).1
  | sload | callDataLoad =>
      simp only [executeOp]
      refine withOne_accounts fun _ rest _ => ?_
      exact push_accounts (s := { s with stack := rest }) _
  | sstore =>
      refine withTwo_accounts fun _ _ rest hstack => ?_
      exact next_accounts (s := { s with stack := rest }) (htwo hstack) rfl
  | callDataSize => exact push_accounts _
  | jump =>
      simp only [executeOp]
      refine withOne_accounts fun dest rest hstack => ?_
      have htakes : Takes (.op .jump) s.stack dest rest := hstack ▸ .jump
      exact jump_accounts (s := { s with stack := rest }) (Nat.le_of_lt (hone hstack))
        (hrefuses htakes)
  | jumpi =>
      refine withTwo_accounts fun dest cond rest hstack => ?_
      split
      · exact next_accounts (s := { s with stack := rest }) (htwo hstack) rfl
      · next hcond =>
        have htakes : Takes (.op .jumpi) s.stack dest rest := hstack ▸ .jumpi hcond
        exact jump_accounts (s := { s with stack := rest }) (htwo hstack) (hrefuses htakes)
  -- what is left computes a word from its operands, if it is supported
  | _ => exact operation_accounts hsupported rfl

theorem execute_accounts {p : Program} {i : Instruction} (hi : i.Readable)
    (hsupported : i.isSupported = true) {effect : StackEffect} (heffect : i.stackEffect = .ok effect)
    (hwords : AllWords s.stack) (hlen : s.stack.length ≤ maxStack)
    (hrefuses : ∀ {dest rest}, Takes i s.stack dest rest → p.isJumpdest dest = false →
      refuses dest) :
    (execute p i s).Accounts refuses effect s.stack := by
  cases hi with
  | push | push0 =>
      obtain rfl := Except.ok.inj heffect
      exact push_accounts _
  | jumpdest label =>
      obtain rfl := Except.ok.inj heffect
      exact next_accounts hlen rfl
  | op o =>
      obtain rfl := Except.ok.inj heffect
      exact executeOp_accounts hsupported hwords hlen hrefuses

/-- A step on a supported instruction keeps the accounts of the table. If it is
refused, the jump that it takes goes to no jump destination. -/
theorem step_accounts {p : Program} (hpc : s.pc < p.code.size) (hwords : AllWords s.stack)
    (hlen : s.stack.length ≤ maxStack) (hsupported : (decodeAt p.code s.pc).isSupported = true)
    {effect : StackEffect} (heffect : (decodeAt p.code s.pc).stackEffect = .ok effect) :
    (step p s).Accounts
      (fun dest => (∃ rest, Takes (decodeAt p.code s.pc) s.stack dest rest) ∧
        p.isJumpdest dest = false) effect s.stack := by
  rw [step_of_lt hpc]
  exact execute_accounts (s := { s with steps := s.steps + 1 }) (readable_decodeAt _ _) hsupported
    heffect hwords hlen fun htakes hdest => ⟨⟨_, htakes⟩, hdest⟩

/-- The opcodes without an effect of their own do nothing but halt if they do not
compute a word either. -/
theorem operation_of_not_supported {p : Program} {o : Opcode}
    (hsupported : ((binary? o).isSome || (unary? o).isSome) = false)
    (hop : executeOp p o next s = match binary? o, unary? o with
      | some f, _ => s.withTwo fun a b s => s.push next (f a b)
      | none, some f => s.withOne fun a s => s.push next (f a)
      | none, none => s.fault (.unsupported o.name)) :
    executeOp p o next s = s.fault (.unsupported o.name) := by
  obtain ⟨hb, hu⟩ := Bool.or_eq_false_iff.mp hsupported
  rw [Option.isSome_eq_false_iff, Option.isNone_iff_eq_none] at hb hu
  rw [hop, hb, hu]

theorem executeOp_of_not_supported (p : Program) {o : Opcode} (h : o.isSupported = false) :
    executeOp p o next s = s.fault (.unsupported o.name) := by
  cases o with
  | stop | ret | revert | invalid | dup | swap | pop | mload | mstore | sload | sstore
  | callDataLoad | callDataSize | jump | jumpi => cases h
  | _ => exact operation_of_not_supported h rfl

theorem execute_of_not_supported (p : Program) {i : Instruction} (hi : i.Readable)
    (h : i.isSupported = false) : execute p i s = s.fault (.unsupported i.mnemonic.name) := by
  cases hi with
  | push | push0 | jumpdest => cases h
  | op o => exact executeOp_of_not_supported p h

end State

/-! ### Accounts read off -/

/-- The step ends with a fault. -/
def Step.Faults (step : Step) (f : Fault) : Prop := ∃ t, step = .halt (.faulted f) t

namespace Step.Accounts

variable {step : Step} {refuses : Nat → Prop} {effect : StackEffect} {stack : List Nat}

theorem lt_of_underflow (h : step.Accounts refuses effect stack)
    (hunder : step.Faults .stackUnderflow) : stack.length < effect.pops := by
  obtain ⟨t, rfl⟩ := hunder
  exact h

theorem full_of_overflow (h : step.Accounts refuses effect stack)
    (hover : step.Faults .stackOverflow) :
    effect.pops ≤ stack.length ∧ maxStack < stack.length - effect.pops + effect.pushes := by
  obtain ⟨t, rfl⟩ := hover
  exact h

/-- Whatever else a step does, it finds its operands, and has room. -/
theorem fits_of_not_faults (h : step.Accounts refuses effect stack)
    (hunder : ¬ step.Faults .stackUnderflow) (hover : ¬ step.Faults .stackOverflow) :
    effect.Fits stack.length := by
  match step, h with
  | .next t, h => exact h.1
  | .halt (.faulted .stackUnderflow) t, _ => exact absurd ⟨t, rfl⟩ hunder
  | .halt (.faulted .stackOverflow) t, _ => exact absurd ⟨t, rfl⟩ hover
  | .halt (.faulted (.invalidJump dest)) t, h => exact h.1
  | .halt (.faulted .invalidInstruction) t, h | .halt (.faulted .memoryBound) t, h => exact h
  | .halt .stopped t, h | .halt (.returned data) t, h | .halt (.reverted data) t, h => exact h

theorem underflow_iff (h : step.Accounts refuses effect stack) :
    step.Faults .stackUnderflow ↔ stack.length < effect.pops := by
  refine ⟨h.lt_of_underflow, fun hlt => ?_⟩
  by_contra hunder
  have hover : ¬ step.Faults .stackOverflow := fun hover =>
    Nat.not_lt.mpr (h.full_of_overflow hover).1 hlt
  exact Nat.not_lt.mpr (h.fits_of_not_faults hunder hover).operands hlt

theorem overflow_iff (h : step.Accounts refuses effect stack) :
    step.Faults .stackOverflow ↔
      effect.pops ≤ stack.length ∧ maxStack < stack.length - effect.pops + effect.pushes := by
  refine ⟨h.full_of_overflow, fun ⟨hoperands, hfull⟩ => ?_⟩
  by_contra hover
  have hunder : ¬ step.Faults .stackUnderflow := fun hunder =>
    Nat.not_lt.mpr hoperands (h.lt_of_underflow hunder)
  exact Nat.not_lt.mpr (h.fits_of_not_faults hunder hover).room hfull

/-- The items below the operands are those below the results. -/
theorem stack_of_next {t : State} (h : (Step.next t).Accounts refuses effect stack) :
    t.stack.length = stack.length - effect.pops + effect.pushes ∧
      t.stack.drop effect.pushes = stack.drop effect.pops := by
  obtain ⟨-, results, hresults, hstack⟩ := h
  constructor
  · rw [hstack, List.length_append, List.length_drop, hresults, Nat.add_comm]
  · rw [hstack, ← hresults, List.drop_left]

end Step.Accounts

/-- The stack accounting of the machine is that of the opcode table. A step on a
supported instruction halts for lack of operands exactly if the stack has fewer items
than the instruction consumes, and if it has them, halts for lack of room exactly if the
stack would get too high with what the instruction produces. A step that goes on leaves
a stack of just that height, and the items below the operands as they were; no step
fails. An instruction that is not supported is refused as such. -/
theorem step_keepsAccounts {p : Program} {s : State} (hpc : s.pc < p.code.size)
    (hwords : AllWords s.stack) (hlen : s.stack.length ≤ maxStack) :
    ∃ i, decode p.code s.pc = .ok i ∧
      (i.isSupported = true → ∃ effect, i.stackEffect = .ok effect ∧
        ((step p s).Faults .stackUnderflow ↔ s.stack.length < effect.pops) ∧
        (effect.pops ≤ s.stack.length → ((step p s).Faults .stackOverflow ↔
          maxStack < s.stack.length - effect.pops + effect.pushes)) ∧
        (∀ t, step p s = .next t →
          t.stack.length = s.stack.length - effect.pops + effect.pushes ∧
            t.stack.drop effect.pushes = s.stack.drop effect.pops) ∧
        ∀ e, step p s ≠ .error e) ∧
      (i.isSupported = false → (step p s).Faults (.unsupported i.mnemonic.name)) := by
  have hi := readable_decodeAt p.code s.pc
  refine ⟨_, decode_of_lt hpc, fun hsupported => ?_, fun hsupported => ?_⟩
  · obtain ⟨effect, heffect⟩ := StackState.stackEffect_readable hi
    have haccounts := State.step_accounts hpc hwords hlen hsupported heffect
    refine ⟨effect, heffect, haccounts.underflow_iff, fun hoperands => ?_, fun t hstep => ?_,
      fun e hstep => ?_⟩
    · exact haccounts.overflow_iff.trans (and_iff_right hoperands)
    · rw [hstep] at haccounts
      exact haccounts.stack_of_next
    · rw [hstep] at haccounts
      exact haccounts
  · exact ⟨_, (step_of_lt hpc).trans (State.execute_of_not_supported p hi hsupported)⟩

/-- A copy of the third item: of two items there is none, and on a full stack there is
no room for it. -/
theorem step_keepsAccounts_dup :
    let p : Program := .load ⟨#[0x82]⟩ ⟨#[]⟩
    decode p.code 0 = .ok (.op (.dup 2)) ∧ 0 < p.code.size ∧
      AllWords [4, 2] ∧ (step p { stack := [4, 2] }).Faults .stackUnderflow ∧
      AllWords (List.replicate maxStack 7) ∧
      (step p { stack := List.replicate maxStack 7 }).Faults .stackOverflow := by
  intro p
  have hinsn : decode p.code 0 = .ok (.op (.dup 2)) :=
    (decode_of_lt (by decide)).trans (congrArg Except.ok (decodeAt_op rfl))
  have hpc : 0 < p.code.size := by decide
  have htwo : AllWords [4, 2] := by
    show ∀ v ∈ [4, 2], v < Word.modulus
    decide
  have hfull : AllWords (List.replicate maxStack 7) := by
    intro v hv
    rw [List.eq_of_mem_replicate hv]
    decide
  have heffect : (Instruction.op (.dup 2)).stackEffect = .ok ⟨3, 4⟩ := rfl
  refine ⟨hinsn, hpc, htwo, ?_, hfull, ?_⟩
  · obtain ⟨i, hi, hsupported, -⟩ :=
      step_keepsAccounts (p := p) (s := { stack := [4, 2] }) hpc htwo (by decide)
    obtain rfl := Except.ok.inj (hinsn.symm.trans hi)
    obtain ⟨effect, heffect', hunder, -⟩ := hsupported rfl
    obtain rfl := Except.ok.inj (heffect.symm.trans heffect')
    exact hunder.mpr (by decide)
  · have hlen : (List.replicate maxStack 7).length = maxStack := List.length_replicate
    generalize List.replicate maxStack 7 = stack at hfull hlen ⊢
    obtain ⟨i, hi, hsupported, -⟩ :=
      step_keepsAccounts (p := p) (s := { stack }) hpc hfull (Nat.le_of_eq hlen)
    obtain rfl := Except.ok.inj (hinsn.symm.trans hi)
    obtain ⟨effect, heffect', -, hover, -⟩ := hsupported rfl
    obtain rfl := Except.ok.inj (heffect.symm.trans heffect')
    rw [hlen] at hover
    exact (hover (by decide)).mpr (by decide)

end Machine

end EvmToolchain
