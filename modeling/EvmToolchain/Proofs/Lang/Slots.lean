import EvmToolchain.Proofs.Lang.Semantics

/-!
# EvmToolchain.Proofs.Lang.Slots

Values in slots of their own.

An expression depends on the memory only through the words that it reads there as it
is evaluated (`Semantics.eval_congr`), and those are all that can make it trap
(`Semantics.exists_eval`). So values which read the memory behind all slots do not
see what has been stored for those before them, and each is stored as it is before
the first one is stored (`Semantics.Program.storeAll_eq`). Slots of at least a word
do not overlap, hence the memory shows each value in its slot, and between the slots
what was there before (`Semantics.laidOut_writeSlots`).
-/

namespace EvmToolchain.Semantics

/-! ### Reading memory -/

/-- The evaluation of an expression reads the word of the memory at an offset. The
right operand of an arithmetic operator comes before the left one. That of a
connective is evaluated only if the left one does not decide the outcome. -/
inductive Reads (env : Env) : Term → Nat → Prop
  | word {index : Term} {i : Word} : eval env index = some i →
      Reads env (.access (.region .memory) index) i.toNat
  | index {r : Region} {index : Term} {offset : Nat} : Reads env index offset →
      Reads env (.access (.region r) index) offset
  | right {op : Arithmetic} {lhs rhs : Term} {offset : Nat} : Reads env rhs offset →
      Reads env (.arithmetic op lhs rhs) offset
  | left {op : Arithmetic} {lhs rhs : Term} {b : Word} {offset : Nat} : eval env rhs = some b →
      Reads env lhs offset → Reads env (.arithmetic op lhs rhs) offset
  | first {op : Connective} {lhs rhs : Term} {offset : Nat} : Reads env lhs offset →
      Reads env (.connective op lhs rhs) offset
  | second {op : Connective} {lhs rhs : Term} {a : Word} {offset : Nat} : eval env lhs = some a →
      decides op a = false → Reads env rhs offset → Reads env (.connective op lhs rhs) offset

variable {env : Env} {t : Term} {memory memory' : Nat → UInt8}

/-- A literal reads nothing. -/
theorem not_reads_literal {l : Literal} {offset : Nat} : ¬ Reads env (.literal l) offset := by
  intro h
  cases h

theorem readWord_congr {offset : Nat}
    (h : ∀ k < wordBytes, memory' (offset + k) = memory (offset + k)) :
    readWord memory' offset = readWord memory offset := by
  have hbytes : (List.range wordBytes).map (fun k => memory' (offset + k))
      = (List.range wordBytes).map fun k => memory (offset + k) :=
    List.map_congr_left fun k hk => h k (List.mem_range.mp hk)
  rw [readWord, readWord, hbytes]

/-- The value of an expression depends on the memory only through the words that are
read. -/
theorem eval_congr (ht : t.IsExpression)
    (h : ∀ offset, Reads env t offset →
      ∀ k < wordBytes, memory' (offset + k) = env.memory (offset + k)) :
    eval { env with memory := memory' } t = eval env t := by
  induction ht with
  | literal l => rfl
  | @arithmetic op lhs rhs _ _ ihl ihr =>
      rw [eval, eval, ihr fun o ho => h o (.right ho)]
      cases hb : eval env rhs with
      | none => rw [Option.bind_none, Option.bind_none]
      | some b => rw [Option.bind_some, Option.bind_some, ihl fun o ho => h o (.left hb ho)]
  | @connective op lhs rhs _ _ ihl ihr =>
      rw [eval, eval, ihl fun o ho => h o (.first ho)]
      cases ha : eval env lhs with
      | none => rw [Option.bind_none, Option.bind_none]
      | some a =>
          rw [Option.bind_some, Option.bind_some]
          cases hdecides : decides op a with
          | true => rfl
          | false => exact ihr fun o ho => h o (.second ha hdecides ho)
  | @access r index _ ih =>
      rw [eval, eval, ih fun o ho => h o (.index ho)]
      cases hi : eval env index with
      | none => rw [Option.bind_none, Option.bind_none]
      | some i =>
          rw [Option.bind_some, Option.bind_some]
          cases r with
          | memory => rw [Env.read, Env.read, readWord_congr (h _ (.word hi))]
          | storage => rfl
          | callData => rfl

/-- An expression traps only if it reads past the bound of the memory. -/
theorem exists_eval (ht : t.IsExpression)
    (h : ∀ offset, Reads env t offset → offset + wordBytes ≤ maxMemory) :
    ∃ v, eval env t = some v := by
  induction ht with
  | literal l => exact ⟨_, rfl⟩
  | arithmetic op _ _ ihl ihr =>
      obtain ⟨b, hb⟩ := ihr fun o ho => h o (.right ho)
      obtain ⟨a, ha⟩ := ihl fun o ho => h o (.left hb ho)
      exact ⟨_, by rw [eval, hb, ha]; rfl⟩
  | connective op _ _ ihl ihr =>
      obtain ⟨a, ha⟩ := ihl fun o ho => h o (.first ho)
      rw [eval, ha, Option.bind_some]
      cases hdecides : decides op a with
      | true => exact ⟨a, rfl⟩
      | false => exact ihr fun o ho => h o (.second ha hdecides ho)
  | access r _ ih =>
      obtain ⟨i, hi⟩ := ih fun o ho => h o (.index ho)
      rw [eval, hi, Option.bind_some]
      cases r with
      | memory => exact ⟨_, if_pos (h _ (.word hi))⟩
      | storage => exact ⟨_, rfl⟩
      | callData => exact ⟨_, rfl⟩

/-! ### Writing slots -/

/-- The memory with words written to slots, the first to the given one. -/
def writeSlots (size slot : Nat) (memory : Nat → UInt8) : List Word → Nat → UInt8
  | [] => memory
  | v :: rest => writeSlots size (slot + 1) (writeWord memory (slot * size) v) rest

variable {size slot i j : Nat} {words : List Word} {v : Word}

/-- Slots are at least a word apart. -/
theorem add_lt_slot (hsize : wordBytes ≤ size) (hj : j < wordBytes) (k : Nat) :
    slot * size + j < (slot + 1 + k) * size := by
  have hle : (slot + 1) * size ≤ (slot + 1 + k) * size :=
    Nat.mul_le_mul_right size (Nat.le_add_right _ _)
  rw [Nat.succ_mul] at hle
  omega

/-- Nothing is written outside of the slots. -/
theorem writeSlots_outside
    (h : ∀ k < words.length, ¬ ((slot + k) * size ≤ i ∧ i < (slot + k) * size + wordBytes)) :
    writeSlots size slot memory words i = memory i := by
  induction words generalizing slot memory with
  | nil => rfl
  | cons v rest ih =>
      have hrest : ∀ k < rest.length,
          ¬ ((slot + 1 + k) * size ≤ i ∧ i < (slot + 1 + k) * size + wordBytes) := by
        intro k hk
        rw [Nat.add_right_comm, Nat.add_assoc]
        exact h (k + 1) (Nat.succ_lt_succ hk)
      have hfirst := h 0 (Nat.succ_pos _)
      rw [Nat.add_zero] at hfirst
      rw [writeSlots, ih hrest, writeWord, if_neg hfirst]

/-- Each slot keeps what was written there. -/
theorem writeSlots_slot (hsize : wordBytes ≤ size) (hv : words[i]? = some v)
    (hj : j < wordBytes) :
    writeSlots size slot memory words ((slot + i) * size + j)
      = (BigEndian.ofNat wordBytes v.toNat).getD j 0 := by
  induction words generalizing slot i memory with
  | nil => cases hv
  | cons w rest ih =>
      cases i with
      | zero =>
          obtain rfl := Option.some.inj hv
          have hlater : ∀ k < rest.length, ¬ ((slot + 1 + k) * size ≤ slot * size + j ∧
              slot * size + j < (slot + 1 + k) * size + wordBytes) :=
            fun k _ hin => Nat.not_lt.mpr hin.1 (add_lt_slot hsize hj k)
          rw [Nat.add_zero, writeSlots, writeSlots_outside hlater, writeWord,
            if_pos ⟨Nat.le_add_right _ _, Nat.add_lt_add_left hj _⟩, Nat.add_sub_cancel_left]
      | succ i =>
          rw [writeSlots, ← Nat.add_assoc, Nat.add_right_comm]
          exact ih hv

/-- Words lie in slots of their own: each of them at the start of its slot, and
elsewhere what the memory reads as. -/
structure LaidOut (size : Nat) (words : List Word) (memory : Nat → UInt8) (data : List UInt8) :
    Prop where
  length_eq : data.length = words.length * size
  slot : ∀ {i : Nat} {v : Word}, words[i]? = some v →
    (data.drop (i * size)).take wordBytes = BigEndian.ofNat wordBytes v.toNat
  rest : ∀ {k : Nat}, k < words.length * size →
    (∀ i < words.length, ¬ (i * size ≤ k ∧ k < i * size + wordBytes)) → data[k]? = some (memory k)

theorem laidOut_writeSlots (hsize : wordBytes ≤ size) (words : List Word)
    (memory : Nat → UInt8) :
    LaidOut size words memory
      ((List.range (words.length * size)).map (writeSlots size 0 memory words)) where
  length_eq := by rw [List.length_map, List.length_range]
  slot := by
    intro i v hv
    obtain ⟨hi, -⟩ := List.getElem?_eq_some_iff.mp hv
    have hend : i * size + wordBytes ≤ words.length * size := by
      have hle := Nat.mul_le_mul_right size hi
      rw [Nat.succ_mul] at hle
      omega
    refine List.ext_getElem ?_ fun j hj hj' => ?_
    · simp only [List.length_take, List.length_drop, List.length_map, List.length_range,
        BigEndian.length_ofNat]
      omega
    · have hj'' : j < wordBytes := by rwa [BigEndian.length_ofNat] at hj'
      have hslot : writeSlots size 0 memory words ((0 + i) * size + j)
          = (BigEndian.ofNat wordBytes v.toNat).getD j 0 := writeSlots_slot hsize hv hj''
      rw [Nat.zero_add] at hslot
      rw [List.getElem_take, List.getElem_drop, List.getElem_map, List.getElem_range, hslot,
        List.getD_eq_getElem?_getD, List.getElem?_eq_getElem hj', Option.getD_some]
  rest := by
    intro k hk hout
    have hsame : writeSlots size 0 memory words k = memory k := by
      refine writeSlots_outside fun i hi => ?_
      rw [Nat.zero_add]
      exact hout i hi
    rw [List.getElem?_map, List.getElem?_range hk, Option.map_some, hsame]

/-! ### Storing values -/

/-- Values that read the memory behind all slots are stored as they are at first. -/
theorem Program.storeAll_eq (p : Program) {values : List Term}
    (hvalues : ∀ t ∈ values, t.IsExpression) {storage : Storage} {slot low : Nat}
    (hreads : ∀ t ∈ values, ∀ offset, Reads ⟨p.calldata, memory, storage⟩ t offset →
      low ≤ offset ∧ offset + wordBytes ≤ maxMemory)
    (hsame : ∀ i, low ≤ i → memory' i = memory i)
    (hslots : ∀ k < values.length, (slot + k) * p.slotSize + wordBytes ≤ low ∧
      (slot + k) * p.slotSize + wordBytes ≤ maxMemory) :
    ∃ words, values.mapM (eval ⟨p.calldata, memory, storage⟩) = some words ∧
      words.length = values.length ∧
      p.storeAll storage slot memory' values = some (writeSlots p.slotSize slot memory' words) := by
  induction values generalizing slot memory' with
  | nil => exact ⟨[], rfl, rfl, rfl⟩
  | cons t rest ih =>
      have ht := hvalues t List.mem_cons_self
      have hread := hreads t List.mem_cons_self
      obtain ⟨v, hv⟩ := exists_eval ht fun o ho => (hread o ho).2
      have hsee : eval ⟨p.calldata, memory', storage⟩ t = eval ⟨p.calldata, memory, storage⟩ t :=
        eval_congr ht fun o ho k _ => hsame (o + k) (Nat.le_add_right_of_le (hread o ho).1)
      obtain ⟨hlow, hmax⟩ := hslots 0 (Nat.succ_pos _)
      rw [Nat.add_zero] at hlow hmax
      -- the word that is written lies before all that is read later
      have hsame' : ∀ i, low ≤ i → writeWord memory' (slot * p.slotSize) v i = memory i := by
        intro i hi
        rw [writeWord, if_neg fun hin => by omega]
        exact hsame i hi
      have hslots' : ∀ k < rest.length, (slot + 1 + k) * p.slotSize + wordBytes ≤ low ∧
          (slot + 1 + k) * p.slotSize + wordBytes ≤ maxMemory := by
        intro k hk
        rw [Nat.add_right_comm, Nat.add_assoc]
        exact hslots (k + 1) (Nat.succ_lt_succ hk)
      obtain ⟨words, hwords, hlength, hstore⟩ :=
        ih (fun u hu => hvalues u (List.mem_cons_of_mem _ hu))
          (fun u hu => hreads u (List.mem_cons_of_mem _ hu)) hsame' hslots'
      refine ⟨v :: words, ?_, congrArg (· + 1) hlength, ?_⟩
      · rw [List.mapM_cons, hv, hwords]
        rfl
      · rw [storeAll, hsee, hv, Option.bind_some, if_pos hmax, hstore, writeSlots]

end EvmToolchain.Semantics
