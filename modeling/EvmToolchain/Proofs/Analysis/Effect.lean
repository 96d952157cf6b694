import EvmToolchain.Analysis.Disassembly
import EvmToolchain.Proofs.Analysis.Order
import EvmToolchain.Proofs.Code.Encoding
import EvmToolchain.Proofs.Code.Walk

/-!
# EvmToolchain.Proofs.Analysis.Effect

The effect of instructions on stack states.

Instructions that were read from code (`Instruction.Readable`) have a total
effect on every state, `StackState.after`, and one along a taken jump,
`StackState.branched`. Both distribute over the join, so they are monotone. An
effect never invents a value that is no word and never tracks more slots than
the stack can have.
-/

namespace EvmToolchain

open Instruction

namespace StackAction

/-- The actions of instructions that were read from code. -/
inductive Regular : StackAction → Prop
  | push (v : Nat) : v < BigEndian.capacity maxImmediate → Regular (.push (.known v))
  | copy (n : Nat) : Regular (.copy (n + 1))
  | exchange (n : Nat) : Regular (.exchange (n + 1))
  | replace (effect : StackEffect) : Regular (.replace effect)

theorem ofInstruction_readable {i : Instruction} (h : i.Readable) :
    ∃ action, ofInstruction i = .ok action ∧ action.Regular := by
  cases h with
  | @push data _ hlen =>
      have hv := Nat.lt_of_lt_of_le (BigEndian.toNat_lt data) (BigEndian.capacity_mono hlen)
      exact ⟨_, rfl, .push _ hv⟩
  | push0 => exact ⟨_, rfl, .push 0 (BigEndian.capacity_pos _)⟩
  | jumpdest label => exact ⟨_, rfl, .replace ⟨0, 0⟩⟩
  | op o =>
      cases o with
      | dup n => exact ⟨_, rfl, .copy n.val⟩
      | swap n => exact ⟨_, rfl, .exchange n.val⟩
      | _ => exact ⟨_, rfl, .replace _⟩

/-- The slots after an action, also where `apply` fails. -/
def result (slots : List Slot) (action : StackAction) : List Slot :=
  match action with
  | push slot => slot :: slots
  | copy depth => slots.getD (depth - 1).toNat .unknown :: slots
  | exchange depth => exchangeTop depth.toNat (pad (depth + 1).toNat slots)
  | replace effect => List.replicate effect.pushes .unknown ++ slots.drop effect.pops

theorem apply_eq_result {action : StackAction} (h : action.Regular) (slots : List Slot) :
    apply slots action = .ok (result slots action) := by
  cases h with
  | push v hv => rfl
  | copy n => simp [apply, slotAt?, position?, result]
  | exchange n =>
      have hdepth : (0 : Int) ≤ (n : Int) + 1 := by omega
      simp [apply, position?, hdepth, result]
  | replace effect => rfl

/-! ### Actions distribute over the join -/

theorem getD_zipWith_join (a b : List Slot) (n : Nat) :
    (List.zipWith Slot.join a b).getD n .unknown
      = (a.getD n .unknown).join (b.getD n .unknown) := by
  simp only [List.getD_eq_getElem?_getD, List.getElem?_zipWith]
  cases a[n]? <;> cases b[n]? <;> simp

theorem zipWith_set (a b : List Slot) (n : Nat) (x y : Slot) :
    List.zipWith Slot.join (a.set n x) (b.set n y)
      = (List.zipWith Slot.join a b).set n (x.join y) := by
  refine List.ext_getElem? fun k => ?_
  by_cases hk : n = k
  · subst hk
    by_cases ha : n < a.length <;> by_cases hb : n < b.length <;>
      simp [ha, hb]
  · simp [List.getElem?_zipWith, List.getElem?_set_ne hk]

theorem getElem?_pad (count : Nat) (slots : List Slot) (k : Nat) :
    (pad count slots)[k]?
      = if k < max count slots.length then some (slots.getD k .unknown) else none := by
  simp only [pad, List.getElem?_append, List.getElem?_replicate, List.getD_eq_getElem?_getD]
  by_cases hk : k < slots.length
  · rw [if_pos hk, if_pos (by omega), List.getElem?_eq_getElem hk]
    rfl
  · rw [if_neg hk, List.getElem?_eq_none (Nat.not_lt.mp hk)]
    by_cases hc : k < count
    · rw [if_pos (by omega), if_pos (by omega)]
      rfl
    · rw [if_neg (by omega), if_neg (by omega)]

theorem pad_zipWith (count : Nat) (a b : List Slot) :
    pad count (List.zipWith Slot.join a b)
      = List.zipWith Slot.join (pad count a) (pad count b) := by
  refine List.ext_getElem? fun k => ?_
  rw [List.getElem?_zipWith, getElem?_pad, getElem?_pad, getElem?_pad, List.length_zipWith,
    getD_zipWith_join]
  by_cases ha : k < max count a.length <;> by_cases hb : k < max count b.length
  · rw [if_pos ha, if_pos hb, if_pos (by omega)]
  all_goals
    simp only [ha, hb, if_false, if_true]
    rw [if_neg (by omega)]

theorem exchangeTop_zipWith (position : Nat) (a b : List Slot) :
    exchangeTop position (List.zipWith Slot.join a b)
      = List.zipWith Slot.join (exchangeTop position a) (exchangeTop position b) := by
  simp only [exchangeTop, zipWith_set, getD_zipWith_join]

theorem result_zipWith (action : StackAction) (h : action.Regular) (a b : List Slot) :
    result (List.zipWith Slot.join a b) action
      = List.zipWith Slot.join (result a action) (result b action) := by
  cases h with
  | push v hv => simp [result]
  | copy n => simp only [result, getD_zipWith_join, List.zipWith_cons_cons]
  | exchange n => simp only [result, pad_zipWith, exchangeTop_zipWith]
  | replace effect =>
      simp only [result]
      rw [List.zipWith_append (by simp), List.drop_zipWith]
      simp

end StackAction

namespace StackState

/-- The state after an instruction, also where `transfer` fails. -/
def after (i : Instruction) (s : StackState) : StackState :=
  match s.transfer i with
  | .ok t => t
  | .error _ => bottom

/-- The state along a taken jump, also where `branch` fails. -/
def branched (i : Instruction) (s : StackState) : StackState :=
  match s.branch i with
  | .ok t => t
  | .error _ => bottom

@[simp] theorem after_bottom (i : Instruction) : after i bottom = bottom := rfl

@[simp] theorem branched_bottom (i : Instruction) : branched i bottom = bottom := rfl

/-- The effect of an instruction on a stack, spelled out. -/
theorem transfer_stack {i : Instruction} (h : i.Readable) (slots : List Slot) :
    ∃ action, StackAction.ofInstruction i = .ok action ∧ action.Regular ∧
      (stack slots).transfer i = .ok
        (if i.isTerminator then bottom else stack ((action.result slots).take maxStack)) := by
  obtain ⟨action, haction, hregular⟩ := StackAction.ofInstruction_readable h
  refine ⟨action, haction, hregular, ?_⟩
  rw [transfer]
  split
  · rfl
  · rw [haction]
    show (do let after ← action.apply slots; return stack (after.take maxStack)) = _
    rw [StackAction.apply_eq_result hregular]
    rfl

theorem transfer_eq {i : Instruction} (h : i.Readable) (s : StackState) :
    s.transfer i = .ok (after i s) := by
  cases s with
  | bottom => rfl
  | stack slots =>
      obtain ⟨action, -, -, hok⟩ := transfer_stack h slots
      rw [after, hok]

theorem stackEffect_readable {i : Instruction} (h : i.Readable) :
    ∃ effect, i.stackEffect = .ok effect := by
  cases h <;> exact ⟨_, rfl⟩

theorem branch_stack {i : Instruction} {effect : StackEffect} (h : i.stackEffect = .ok effect)
    (slots : List Slot) : branched i (stack slots) = stack (slots.drop effect.pops) := by
  rw [branched, branch, h]

theorem branch_eq {i : Instruction} (h : i.Readable) (s : StackState) :
    s.branch i = .ok (branched i s) := by
  cases s with
  | bottom => rfl
  | stack slots =>
      obtain ⟨effect, heffect⟩ := stackEffect_readable h
      rw [branch_stack heffect, branch, heffect]

/-- An instruction that may fall through leaves a stack, any other one nothing. -/
theorem after_stack {i : Instruction} (h : i.Readable) (slots : List Slot) :
    ∃ action, StackAction.ofInstruction i = .ok action ∧ action.Regular ∧
      after i (stack slots) =
        if i.isTerminator then bottom else stack ((action.result slots).take maxStack) := by
  obtain ⟨action, haction, hregular, hok⟩ := transfer_stack h slots
  exact ⟨action, haction, hregular, by rw [after, hok]⟩

theorem after_of_isTerminator {i : Instruction} (h : i.Readable) (ht : i.isTerminator = true)
    (s : StackState) : after i s = bottom := by
  cases s with
  | bottom => rfl
  | stack slots =>
      obtain ⟨_, -, -, hafter⟩ := after_stack h slots
      rw [hafter, if_pos ht]

theorem after_ne_bottom {i : Instruction} (h : i.Readable) (ht : i.isTerminator = false)
    {s : StackState} (hs : s ≠ bottom) : after i s ≠ bottom := by
  cases s with
  | bottom => exact absurd rfl hs
  | stack slots =>
      obtain ⟨_, -, -, hafter⟩ := after_stack h slots
      rw [hafter, ht]
      simp

theorem branched_ne_bottom {i : Instruction} (h : i.Readable) {s : StackState}
    (hs : s ≠ bottom) : branched i s ≠ bottom := by
  cases s with
  | bottom => exact absurd rfl hs
  | stack slots =>
      obtain ⟨effect, heffect⟩ := stackEffect_readable h
      rw [branch_stack heffect]
      simp

/-! ### Effects distribute over the join -/

theorem after_sup {i : Instruction} (h : i.Readable) (s t : StackState) :
    after i (s ⊔ t) = after i s ⊔ after i t := by
  cases s with
  | bottom => rw [bottom_sup, after_bottom, bottom_sup]
  | stack a =>
      cases t with
      | bottom => rw [sup_bottom, after_bottom, sup_bottom]
      | stack b =>
          cases ht : i.isTerminator with
          | true => simp only [after_of_isTerminator h ht, sup_idem]
          | false =>
              obtain ⟨action, haction, hregular, hafter⟩ := after_stack h a
              obtain ⟨action', haction', -, hafter'⟩ := after_stack h b
              obtain ⟨action'', haction'', -, hafter''⟩ :=
                after_stack h (List.zipWith Slot.join a b)
              obtain rfl : action = action' := Except.ok.inj (haction.symm.trans haction')
              obtain rfl : action = action'' := Except.ok.inj (haction.symm.trans haction'')
              rw [sup_stack, hafter, hafter', hafter'', ht]
              simp only [Bool.false_eq_true, if_false, sup_stack]
              -- cutting off at the greatest height is pointwise, like the join
              rw [StackAction.result_zipWith _ hregular, List.take_zipWith]

theorem branched_sup {i : Instruction} (h : i.Readable) (s t : StackState) :
    branched i (s ⊔ t) = branched i s ⊔ branched i t := by
  cases s with
  | bottom => rw [bottom_sup, branched_bottom, bottom_sup]
  | stack a =>
      cases t with
      | bottom => rw [sup_bottom, branched_bottom, sup_bottom]
      | stack b =>
          obtain ⟨effect, heffect⟩ := stackEffect_readable h
          rw [sup_stack, branch_stack heffect, branch_stack heffect, branch_stack heffect,
            sup_stack, List.drop_zipWith]

theorem after_mono {i : Instruction} (h : i.Readable) {s t : StackState} (hst : s ≤ t) :
    after i s ≤ after i t := by
  rw [← sup_eq_right, ← after_sup h, sup_eq_right.mpr hst]

theorem branched_mono {i : Instruction} (h : i.Readable) {s t : StackState} (hst : s ≤ t) :
    branched i s ≤ branched i t := by
  rw [← sup_eq_right, ← branched_sup h, sup_eq_right.mpr hst]

/-- Every instruction that was read from code has an effect on every state, and
one along a jump. Both distribute over the merge of states, whatever their
heights, and so they keep the order of states. -/
theorem transfer_merge {code : Bytes} {offset : Int} {i : Instruction}
    (h : decode code offset = .ok i) (a b : StackState) :
    (∃ a' b', a.transfer i = .ok a' ∧ b.transfer i = .ok b' ∧
        (a.merge b).1.transfer i = .ok (a'.merge b').1 ∧ (a ≤ b → a' ≤ b')) ∧
      ∃ a' b', a.branch i = .ok a' ∧ b.branch i = .ok b' ∧
        (a.merge b).1.branch i = .ok (a'.merge b').1 ∧ (a ≤ b → a' ≤ b') := by
  have hi := readable_of_decode h
  refine ⟨⟨_, _, transfer_eq hi a, transfer_eq hi b, ?_, after_mono hi⟩,
    ⟨_, _, branch_eq hi a, branch_eq hi b, ?_, branched_mono hi⟩⟩
  · exact (transfer_eq hi (a ⊔ b)).trans (congrArg Except.ok (after_sup hi a b))
  · exact (branch_eq hi (a ⊔ b)).trans (congrArg Except.ok (branched_sup hi a b))

/-- An exchange that reaches below the tracked slots of one state, but not of the
other one. -/
theorem transfer_merge_swap :
    decode ⟨#[0x91]⟩ 0 = .ok (.op (.swap 1)) ∧
      (stack [.known 4]).transfer (.op (.swap 1)) = .ok (stack [.unknown, .unknown, .known 4]) ∧
      (stack [.known 4, .known 2, .known 7, .known 1]).transfer (.op (.swap 1))
        = .ok (stack [.known 7, .known 2, .known 4, .known 1]) ∧
      ((stack [.known 4, .known 2, .known 7, .known 1]).merge (stack [.known 4])).1.transfer
        (.op (.swap 1)) = .ok (stack [.unknown, .unknown, .known 4]) ∧
      stack [.known 7, .known 2, .known 4, .known 1] ≤ stack [.unknown, .unknown, .known 4] := by
  have hdecode : decode ⟨#[0x91]⟩ 0 = .ok (.op (.swap 1)) := congrArg Except.ok (decodeAt_op rfl)
  obtain ⟨⟨a, b, ha, hb, hmerge, hle⟩, -⟩ := transfer_merge hdecode
    (stack [.known 4, .known 2, .known 7, .known 1]) (stack [.known 4])
  obtain rfl := Except.ok.inj ha
  obtain rfl := Except.ok.inj hb
  refine ⟨hdecode, rfl, rfl, hmerge, hle ?_⟩
  rw [← sup_eq_right]
  rfl

/-! ### What effects know, and how much they track -/

/-- Every value that the state knows has the property. -/
def Knows (P : Int → Prop) : StackState → Prop
  | bottom => True
  | stack slots => ∀ v, Slot.known v ∈ slots → P v

theorem Knows.mono {P Q : Int → Prop} {s : StackState} (hs : s.Knows P) (h : ∀ v, P v → Q v) :
    s.Knows Q := by
  cases s with
  | bottom => trivial
  | stack slots => exact fun v hv => h v (hs v hv)

/-- The values that a stack word can have. -/
def IsWord (v : Int) : Prop := 0 ≤ v ∧ v < BigEndian.capacity maxImmediate

theorem knows_sup {P : Int → Prop} {s t : StackState} (hs : s.Knows P) (ht : t.Knows P) :
    (s ⊔ t).Knows P := by
  cases s with
  | bottom => rwa [bottom_sup]
  | stack a =>
      cases t with
      | bottom => rwa [sup_bottom]
      | stack b =>
          rw [sup_stack]
          intro v hv
          obtain ⟨n, hn⟩ := List.mem_iff_getElem?.mp hv
          obtain ⟨x, y, hx, -, hxy⟩ := getElem?_zipWith_join.mp hn
          have hle : x ≤ .known v := hxy ▸ (le_sup_left : x ≤ x ⊔ y)
          rw [Slot.eq_of_le_known hle] at hx
          exact hs v (List.mem_of_getElem? hx)

theorem known_mem_of_getD {slots : List Slot} {n : Nat} {v : Int}
    (h : slots.getD n .unknown = .known v) : Slot.known v ∈ slots := by
  rw [List.getD_eq_getElem?_getD] at h
  cases hn : slots[n]? with
  | none => simp [hn] at h
  | some slot =>
      obtain rfl : slot = .known v := by simpa [hn] using h
      exact List.mem_of_getElem? hn

/-- An action leaves values that were there before, and words. -/
theorem known_mem_result {action : StackAction} (h : action.Regular) {slots : List Slot} {v : Int}
    (hv : Slot.known v ∈ action.result slots) : Slot.known v ∈ slots ∨ IsWord v := by
  cases h with
  | push w hw =>
      rcases List.mem_cons.mp hv with hv | hv
      · obtain rfl := Slot.known.inj hv
        exact Or.inr ⟨Int.natCast_nonneg w, Int.ofNat_lt.mpr hw⟩
      · exact Or.inl hv
  | copy n =>
      rcases List.mem_cons.mp hv with hv | hv
      · exact Or.inl (known_mem_of_getD hv.symm)
      · exact Or.inl hv
  | exchange n =>
      have hpad : ∀ {w : Int}, Slot.known w ∈ StackAction.pad ((n : Int) + 1 + 1).toNat slots →
          Slot.known w ∈ slots := by
        intro w hw
        rcases List.mem_append.mp hw with hw | hw
        · exact hw
        · exact absurd (List.eq_of_mem_replicate hw) (by simp)
      refine Or.inl (hpad ?_)
      rcases List.mem_or_eq_of_mem_set hv with hv | hv
      · rcases List.mem_or_eq_of_mem_set hv with hv | hv
        · exact hv
        · exact known_mem_of_getD hv.symm
      · exact known_mem_of_getD hv.symm
  | replace effect =>
      rcases List.mem_append.mp hv with hv | hv
      · exact absurd (List.eq_of_mem_replicate hv) (by simp)
      · exact Or.inl (List.mem_of_mem_drop hv)

theorem knows_after {P : Int → Prop} (hP : ∀ v, IsWord v → P v) {i : Instruction}
    (h : i.Readable) {s : StackState} (hs : s.Knows P) : (after i s).Knows P := by
  cases s with
  | bottom => trivial
  | stack slots =>
      obtain ⟨action, -, hregular, hafter⟩ := after_stack h slots
      rw [hafter]
      split
      · trivial
      · intro v hv
        rcases known_mem_result hregular (List.mem_of_mem_take hv) with hv | hv
        · exact hs v hv
        · exact hP v hv

theorem knows_branched {P : Int → Prop} {i : Instruction} (h : i.Readable) {s : StackState}
    (hs : s.Knows P) : (branched i s).Knows P := by
  cases s with
  | bottom => trivial
  | stack slots =>
      obtain ⟨effect, heffect⟩ := stackEffect_readable h
      rw [branch_stack heffect]
      exact fun v hv => hs v (List.mem_of_mem_drop hv)

theorem height_after_le {i : Instruction} (h : i.Readable) (s : StackState) :
    (after i s).height ≤ maxStack := by
  cases s with
  | bottom => exact Nat.zero_le _
  | stack slots =>
      obtain ⟨action, -, -, hafter⟩ := after_stack h slots
      rw [hafter]
      split
      · exact Nat.zero_le _
      · exact List.length_take_le _ _

theorem height_branched_le {i : Instruction} (h : i.Readable) (s : StackState) :
    (branched i s).height ≤ s.height := by
  cases s with
  | bottom => exact Nat.zero_le _
  | stack slots =>
      obtain ⟨effect, heffect⟩ := stackEffect_readable h
      rw [branch_stack heffect, height, height, List.length_drop]
      exact Nat.sub_le _ _

/-! ### The effect of several instructions -/

/-- The state after some instructions. -/
def afterAll (s : StackState) (insns : List Located) : StackState :=
  insns.foldl (fun s l => after l.instruction s) s

@[simp] theorem afterAll_nil (s : StackState) : afterAll s [] = s := rfl

theorem afterAll_append (s : StackState) (a b : List Located) :
    afterAll s (a ++ b) = afterAll (afterAll s a) b := List.foldl_append

theorem transferAll_eq {insns : List Located} (h : ∀ l ∈ insns, l.instruction.Readable)
    (s : StackState) : Disassembly.transferAll s insns = .ok (afterAll s insns) := by
  induction insns generalizing s with
  | nil => rfl
  | cons l rest ih =>
      have hfirst : Domain.transfer l.instruction s = .ok (after l.instruction s) :=
        transfer_eq (h l List.mem_cons_self) s
      rw [Disassembly.transferAll, hfirst]
      exact ih (fun l' hl' => h l' (List.mem_cons_of_mem _ hl')) _

theorem afterAll_mono {insns : List Located} (h : ∀ l ∈ insns, l.instruction.Readable)
    {s t : StackState} (hst : s ≤ t) : afterAll s insns ≤ afterAll t insns := by
  induction insns generalizing s t with
  | nil => exact hst
  | cons l rest ih =>
      exact ih (fun l' hl' => h l' (List.mem_cons_of_mem _ hl'))
        (after_mono (h l List.mem_cons_self) hst)

theorem knows_afterAll {P : Int → Prop} (hP : ∀ v, IsWord v → P v) {insns : List Located}
    (h : ∀ l ∈ insns, l.instruction.Readable) {s : StackState} (hs : s.Knows P) :
    (afterAll s insns).Knows P := by
  induction insns generalizing s with
  | nil => exact hs
  | cons l rest ih =>
      exact ih (fun l' hl' => h l' (List.mem_cons_of_mem _ hl'))
        (knows_after hP (h l List.mem_cons_self) hs)

theorem height_afterAll_le {insns : List Located} (h : ∀ l ∈ insns, l.instruction.Readable)
    {s : StackState} {bound : Nat} (hbound : maxStack ≤ bound) (hs : s.height ≤ bound) :
    (afterAll s insns).height ≤ bound := by
  induction insns generalizing s with
  | nil => exact hs
  | cons l rest ih =>
      exact ih (fun l' hl' => h l' (List.mem_cons_of_mem _ hl'))
        (Nat.le_trans (height_after_le (h l List.mem_cons_self) s) hbound)

/-- Instructions that may all fall through keep a stack. -/
theorem afterAll_ne_bottom {insns : List Located} (h : ∀ l ∈ insns, l.instruction.Readable)
    (ht : ∀ l ∈ insns, l.instruction.isTerminator = false) {s : StackState} (hs : s ≠ bottom) :
    afterAll s insns ≠ bottom := by
  induction insns generalizing s with
  | nil => exact hs
  | cons l rest ih =>
      exact ih (fun l' hl' => h l' (List.mem_cons_of_mem _ hl'))
        (fun l' hl' => ht l' (List.mem_cons_of_mem _ hl'))
        (after_ne_bottom (h l List.mem_cons_self) (ht l List.mem_cons_self) hs)

end StackState

/-- The instructions of a sweep were read from code. -/
theorem readable_of_mem_sweep {code : Bytes} {a b : Nat} {l : Located} (h : l ∈ sweep code a b) :
    l.instruction.Readable := by
  rw [(mem_sweep.mp h).2.2]
  exact readable_decodeAt code l.offset

end EvmToolchain
