import EvmToolchain.Instruction.Decoding

/-!
# EvmToolchain.Proofs.Code.Walk

Instruction boundaries of raw code.

`sweep` lists the instructions between two offsets; `Walk` is the relation
behind it: decoding one instruction after the other leads from one offset to
another one. Sweeps are cut and put together at offsets on a walk, and the
offsets of the instructions of some code are those on the walk from its start.
Nothing below this module looks at the recursion of `sweep` again.
-/

namespace EvmToolchain

/-- Reading an offset of the code gives an instruction. -/
theorem Instruction.decode_of_lt {code : Bytes} {pc : Nat} (h : pc < code.size) :
    decode code pc = .ok (decodeAt code pc) := by
  rw [decode, if_pos (by omega), Int.toNat_natCast]

/-- Decoding one instruction after the other leads from an offset to another. -/
inductive Walk (code : Bytes) : Nat → Nat → Prop
  | refl (pc : Nat) : Walk code pc pc
  | step {pc stop : Nat} :
      Walk code (pc + (Instruction.decodeAt code pc).length) stop → Walk code pc stop

namespace Walk

variable {code : Bytes} {a b c : Nat}

theorem le (h : Walk code a b) : a ≤ b := by
  induction h with
  | refl => exact Nat.le_refl _
  | step _ ih => omega

theorem trans (h₁ : Walk code a b) (h₂ : Walk code b c) : Walk code a c := by
  induction h₁ with
  | refl => exact h₂
  | step _ ih => exact .step (ih h₂)

/-- The walk past one more instruction. -/
theorem snoc (h : Walk code a b) :
    Walk code a (b + (Instruction.decodeAt code b).length) :=
  h.trans (.step (.refl _))

/-- Of two offsets on a walk the greater one is on the walk from the other. -/
theorem tail_of_le (hb : Walk code a b) (hc : Walk code a c) (hle : b ≤ c) : Walk code b c := by
  induction hb with
  | refl => exact hc
  | @step pc stop rest ih =>
      cases hc with
      | refl =>
          have := rest.le
          have := Instruction.length_decodeAt_pos code c
          omega
      | step rest' => exact ih rest' hle

/-- No offset of a walk lies within an instruction of it. -/
theorem next_le_of_lt (hb : Walk code a b) (hc : Walk code a c) (hlt : b < c) :
    b + (Instruction.decodeAt code b).length ≤ c := by
  cases hb.tail_of_le hc (Nat.le_of_lt hlt) with
  | refl => exact absurd hlt (Nat.lt_irrefl _)
  | step rest => exact rest.le

/-- Every offset lies in an instruction of the walk. -/
theorem exists_covering {code : Bytes} {a pc : Nat} (h : a ≤ pc) :
    ∃ offset, Walk code a offset ∧ offset ≤ pc ∧
      pc < offset + (Instruction.decodeAt code offset).length := by
  by_cases hlt : pc < a + (Instruction.decodeAt code a).length
  · exact ⟨a, .refl a, h, hlt⟩
  · obtain ⟨offset, hwalk, hoffset⟩ := exists_covering (Nat.not_lt.mp hlt)
    exact ⟨offset, .step hwalk, hoffset⟩
termination_by pc - a
decreasing_by
  have := Instruction.length_decodeAt_pos code a
  omega

/-- Only one instruction of a walk covers an offset. -/
theorem eq_of_covering (hb : Walk code a b) (hc : Walk code a c) {pc : Nat} (hb' : b ≤ pc)
    (hbnext : pc < b + (Instruction.decodeAt code b).length) (hc' : c ≤ pc)
    (hcnext : pc < c + (Instruction.decodeAt code c).length) : b = c := by
  rcases Nat.lt_trichotomy b c with hlt | heq | hlt
  · have hle := hb.next_le_of_lt hc hlt
    omega
  · exact heq
  · have hle := hc.next_le_of_lt hb hlt
    omega

end Walk

/-! ### Sweeps along a walk -/

section Sweep

variable {code : Bytes} {a b m : Nat}

@[simp] theorem sweep_self (code : Bytes) (a : Nat) : sweep code a a = [] :=
  sweep_of_le (Nat.le_refl a)

/-- A sweep can be cut at every offset on its walk. -/
theorem sweep_append (hm : Walk code a m) (hle : m ≤ b) :
    sweep code a b = sweep code a m ++ sweep code m b := by
  induction hm with
  | refl => rw [sweep_self, List.nil_append]
  | @step pc stop rest ih =>
      have hpos := Instruction.length_decodeAt_pos code pc
      have hlt := rest.le
      rw [sweep_of_lt (show pc < b by omega), sweep_of_lt (show pc < stop by omega), ih hle,
        List.cons_append]

/-- The sweep up to the instruction after the one at `m`. -/
theorem sweep_snoc (hm : Walk code a m) :
    sweep code a (m + (Instruction.decodeAt code m).length)
      = sweep code a m ++ [⟨m, Instruction.decodeAt code m⟩] := by
  have hpos := Instruction.length_decodeAt_pos code m
  rw [sweep_append hm (Nat.le_add_right _ _), sweep_of_lt (Nat.lt_add_of_pos_right hpos), sweep_self]

/-- The instructions of a sweep are those that start on its walk. -/
theorem mem_sweep {l : Located} :
    l ∈ sweep code a b ↔
      Walk code a l.offset ∧ l.offset < b ∧ l.instruction = Instruction.decodeAt code l.offset := by
  constructor
  · intro h
    fun_induction sweep code a b with
    | case1 pc hlt _ ih =>
        rcases List.mem_cons.mp h with rfl | hrest
        · exact ⟨.refl _, hlt, rfl⟩
        · obtain ⟨hwalk, hrest⟩ := ih hrest
          exact ⟨.step hwalk, hrest⟩
    | case2 => cases h
  · rintro ⟨hwalk, hlt, hinsn⟩
    rw [sweep_append hwalk (Nat.le_of_lt hlt), sweep_of_lt hlt]
    refine List.mem_append_right _ (List.mem_cons.mpr (Or.inl ?_))
    rw [← hinsn]

/-- An instruction of a sweep is as it is read at its offset. -/
theorem exists_of_mem_sweep {l : Located} (h : l ∈ sweep code a b) :
    ∃ pc, l = ⟨pc, Instruction.decodeAt code pc⟩ ∧ Walk code a pc ∧ pc < b := by
  obtain ⟨hwalk, hlt, hinsn⟩ := mem_sweep.mp h
  exact ⟨l.offset, by rw [← hinsn], hwalk, hlt⟩

/-- What stands before and after an instruction of a sweep are sweeps, too. -/
theorem sweep_split {pre post : List Located} {l : Located}
    (h : sweep code a b = pre ++ l :: post) :
    Walk code a l.offset ∧ l.offset < b ∧ l.instruction = Instruction.decodeAt code l.offset
      ∧ pre = sweep code a l.offset ∧ post = sweep code l.next b := by
  induction pre generalizing a with
  | nil =>
      by_cases hlt : a < b
      · rw [sweep_of_lt hlt] at h
        obtain ⟨rfl, rfl⟩ := List.cons.inj h
        exact ⟨.refl _, hlt, rfl, (sweep_self code a).symm, rfl⟩
      · rw [sweep_of_le (Nat.le_of_not_lt hlt)] at h
        cases h
  | cons first pre ih =>
      by_cases hlt : a < b
      · rw [sweep_of_lt hlt, List.cons_append, List.cons.injEq] at h
        obtain ⟨rfl, h⟩ := h
        obtain ⟨hwalk, hlt', hinsn, hpre, hpost⟩ := ih h
        have hpos := Instruction.length_decodeAt_pos code a
        have hle := hwalk.le
        refine ⟨.step hwalk, hlt', hinsn, ?_, hpost⟩
        rw [sweep_of_lt (show a < l.offset by omega), ← hpre]
      · rw [sweep_of_le (Nat.le_of_not_lt hlt)] at h
        cases h

/-- An instruction of a sweep starts where the one before it ends. -/
theorem offset_eq_next {pre post : List Located} {l l' : Located}
    (h : sweep code a b = pre ++ l :: l' :: post) : l'.offset = l.next := by
  obtain ⟨-, -, -, -, hpost⟩ := sweep_split h
  by_cases hlt : l.next < b
  · rw [sweep_of_lt hlt] at hpost
    rw [(List.cons.inj hpost).1]
  · rw [sweep_of_le (Nat.le_of_not_lt hlt)] at hpost
    cases hpost

/-- Every instruction of a sweep splits it. -/
theorem sweep_eq_cons (hm : Walk code a m) (hlt : m < b) :
    sweep code a b = sweep code a m ++ ⟨m, Instruction.decodeAt code m⟩ ::
      sweep code (m + (Instruction.decodeAt code m).length) b := by
  rw [sweep_append hm (Nat.le_of_lt hlt), sweep_of_lt hlt]

end Sweep

end EvmToolchain
