import EvmToolchain.Proofs.Code.Encoding
import EvmToolchain.Proofs.Code.Walk
import EvmToolchain.Proofs.Compiler.Reports
import Mathlib.Data.List.Induction
import Mathlib.Data.Nat.Digits.Defs

/-!
# EvmToolchain.Proofs.Compiler.Literals

How a literal is lowered.

A literal denotes the number that its digits stand for in the positional system of
its radix (`Literal.value_eq_numeral`). It is lowered to a push of that number in as
few bytes as hold it (`BigEndian.Shortest`), so zeros in front of the digits make no
difference, and the push is read again from its encoding. Only a number that no word
holds is refused (`Session.compile_literal`).
-/

namespace EvmToolchain

/-! ### Numerals -/

/-- The value of a digit of either case: its place among all digits. -/
def Radix.digitPlace (c : Char) : Nat := "0123456789abcdef".toList.idxOf c.toLower

/-- The number that the digits of a literal stand for: each counts as often as its
position says, from the last digit on. -/
def Literal.numeral (l : Literal) : Nat :=
  Nat.ofDigits l.radix.base (l.digits.toList.reverse.map Radix.digitPlace)

namespace Radix

theorem digitPlace_of_lt :
    ∀ n < 128, ∀ d, Hex.digitValue? (Char.ofNat n) = some d → digitPlace (Char.ofNat n) = d := by
  decide

theorem toNat_lt_of_digitValue? {c : Char} {d : Nat} (h : Hex.digitValue? c = some d) :
    c.toNat < 128 := by
  have hle : ∀ {bound : Char}, bound.toNat < 128 → c ≤ bound → c.toNat < 128 :=
    fun hbound hc => Nat.lt_of_le_of_lt hc hbound
  unfold Hex.digitValue? at h
  split at h
  · next hc => exact hle (by decide) hc.2
  split at h
  · next hc => exact hle (by decide) hc.2
  split at h
  · next hc => exact hle (by decide) hc.2
  · cases h

theorem digitValue?_eq_some {r : Radix} {c : Char} (h : (r.digitValue? c).isSome) :
    r.digitValue? c = some (digitPlace c) := by
  obtain ⟨d, hd⟩ := Option.isSome_iff_exists.mp h
  have hhex : Hex.digitValue? c = some d := (Option.filter_eq_some_iff.mp hd).1
  have hplace := digitPlace_of_lt c.toNat (toNat_lt_of_digitValue? hhex) d
  rw [Char.ofNat_toNat] at hplace
  rw [hd, hplace hhex]

end Radix

/-- Reading digits one after the other gives the number they stand for. -/
theorem ofDigits_reverse_map (b : Nat) (f : Char → Nat) (cs : List Char) :
    Nat.ofDigits b (cs.reverse.map f) = cs.foldl (fun n c => b * n + f c) 0 := by
  induction cs using List.reverseRecOn with
  | nil => rfl
  | append_singleton cs c ih =>
      simp only [List.reverse_append, List.reverse_singleton, List.singleton_append, List.map_cons,
        Nat.ofDigits_cons, List.foldl_append, List.foldl_cons, List.foldl_nil, ih]
      exact Nat.add_comm _ _

/-- A literal denotes the number that its digits stand for. -/
theorem Literal.value_eq_numeral (l : Literal) : l.value = l.numeral := by
  have hdigits := (Bool.and_eq_true_iff.mp l.wellFormed).2
  rw [List.all_eq_true] at hdigits
  rw [value, numeral, ofDigits_reverse_map]
  refine List.foldl_ext _ _ 0 fun n c hc => ?_
  rw [Radix.digitValue?_eq_some (hdigits c hc), Option.getD_some]

/-! ### Shortest byte strings -/

namespace BigEndian

/-- The bytes hold a number, and no fewer bytes do. The first byte counts, except
that zero takes a byte too. -/
structure Shortest (data : List UInt8) (n : Nat) : Prop where
  value : toNat data = n
  zero : n = 0 → data = [0]
  head_ne : n ≠ 0 → data.head? ≠ some 0
  length_le : ∀ other, other ≠ [] → toNat other = n → data.length ≤ other.length

theorem toNat_zero_cons (data : List UInt8) : toNat (0 :: data) = toNat data := rfl

/-- Bytes hold no number that needs more of them. -/
theorem width_toNat_le (data : List UInt8) : width (toNat data) ≤ data.length :=
  (width_le_iff _ _).mpr (toNat_lt data)

theorem width_zero : width 0 = 0 := by
  rw [width, if_pos rfl]

theorem width_pos {n : Nat} (h : n ≠ 0) : 1 ≤ width n := by
  rw [width, if_neg h]
  exact Nat.le_add_left 1 _

theorem shortest_ofNat (n : Nat) : Shortest (ofNat (max 1 (width n)) n) n where
  value := by
    have hfits : n < capacity (max 1 (width n)) := (width_le_iff _ _).mp (Nat.le_max_right _ _)
    rw [toNat_ofNat, Nat.mod_eq_of_lt hfits]
  zero := by
    intro h
    rw [h, width_zero]
    rfl
  head_ne := by
    intro h hhead
    rw [Nat.max_eq_right (width_pos h)] at hhead
    -- without the zero in front the rest would hold the number in fewer bytes
    obtain ⟨rest, hrest⟩ := List.head?_eq_some_iff.mp hhead
    have hlength : rest.length + 1 = width n := by
      rw [← List.length_cons, ← hrest, length_ofNat]
    have hvalue : toNat rest = n := by
      rw [← toNat_zero_cons, ← hrest, toNat_ofNat,
        Nat.mod_eq_of_lt ((width_le_iff _ _).mp (Nat.le_refl _))]
    have hle := width_toNat_le rest
    rw [hvalue] at hle
    omega
  length_le := by
    intro other hne hother
    rw [length_ofNat, ← hother]
    exact Nat.max_le.mpr ⟨List.length_pos_iff.mpr hne, width_toNat_le other⟩

end BigEndian

/-! ### Lowering -/

/-- A push of 1 to 32 bytes is encoded, and it is all that is read from its encoding. -/
theorem Instruction.exists_encode_push {data : List UInt8} (hpos : 1 ≤ data.length)
    (hle : data.length ≤ maxImmediate) :
    ∃ bytes, (push data).encode = .ok bytes ∧ decode (.ofList bytes) 0 = .ok (push data) ∧
      decodeAll (.ofList bytes) = [push data] := by
  have hpush : (push data).Readable := .push hpos hle
  obtain ⟨bytes, hencode⟩ := hpush.exists_encode
  have hdecode : decodeAt (.ofList bytes) 0 = push data :=
    decodeAt_encode hpush hencode (.ofList bytes)
  have hlength : (push data).length = (Bytes.ofList bytes).size := by
    rw [Bytes.size_ofList, length_encode hencode]
  have hsize : 0 < (Bytes.ofList bytes).size := by
    rw [← hlength]
    exact Nat.lt_of_lt_of_le Nat.one_pos (Nat.le_add_right 1 _)
  refine ⟨bytes, hencode, ?_, ?_⟩
  · rw [← hdecode]
    exact decode_of_lt hsize
  · rw [decodeAll, listing, sweep_of_lt hsize, hdecode, Nat.zero_add, hlength,
      sweep_of_le (Nat.le_refl _)]
    rfl

/-- Literals are lowered exactly, and to the least code. A literal is refused if and
only if no word holds the number that its digits stand for, and then the session is
as before. Otherwise it becomes one push of that number in the least number of bytes,
and this push is what is read from its encoding. -/
theorem Session.compile_literal {s : Session} (hoptions : s.options.Valid) {l : Literal}
    (hlong : l.radix = .decimal → l.digits.length ≤ 4300) :
    ((s.compile (.literal l)).2 = .error (.literalOverflow l.numeral s.options.wordSize) ↔
        256 ^ s.options.wordSize ≤ l.numeral) ∧
      (256 ^ s.options.wordSize ≤ l.numeral → (s.compile (.literal l)).1 = s) ∧
      (l.numeral < 256 ^ s.options.wordSize →
        ∃ data, s.compile (.literal l) = (s.push (.push data), .ok ()) ∧
          (Instruction.push data).value? = some l.numeral ∧ BigEndian.Shortest data l.numeral ∧
          ∃ bytes, (Instruction.push data).encode = .ok bytes ∧
            Instruction.decode (.ofList bytes) 0 = .ok (.push data) ∧
            decodeAll (.ofList bytes) = [.push data]) := by
  have hread : l.isTooLong = false := by
    unfold Literal.isTooLong
    cases hradix : l.radix with
    | decimal => exact decide_eq_false (Nat.not_lt.mpr (hlong hradix))
    | hexadecimal => rfl
  have hcompile : s.compile (.literal l) = s.run (Emitter.push s.options l.numeral) := by
    have hlower : Emitter.pushLiteral s.options l = Emitter.push s.options l.numeral := by
      rw [Emitter.pushLiteral, hread, l.value_eq_numeral]
      rfl
    rw [← hlower, compile, Term.lower]
    rfl
  by_cases hfits : l.numeral < 256 ^ s.options.wordSize
  · have hpush : s.compile (.literal l)
        = (s.push (.push (BigEndian.ofNat (max 1 (BigEndian.width l.numeral)) l.numeral)),
          .ok ()) := by
      rw [hcompile, Emitter.push, Emitter.makePush_of_fits hoptions.pos hoptions.le hfits]
      rfl
    have hshortest := BigEndian.shortest_ofNat l.numeral
    refine ⟨?_, fun h => absurd hfits (Nat.not_lt.mpr h), fun _ =>
      ⟨_, hpush, congrArg some hshortest.value, hshortest, ?_⟩⟩
    · rw [hpush]
      exact ⟨fun h => (by cases h), fun h => absurd hfits (Nat.not_lt.mpr h)⟩
    · refine Instruction.exists_encode_push ?_ ?_ <;> rw [BigEndian.length_ofNat]
      · exact Nat.le_max_left _ _
      · exact Nat.le_trans (Nat.max_le.mpr ⟨hoptions.pos, (BigEndian.width_le_iff _ _).mpr hfits⟩)
          hoptions.le
  · have hfail : s.compile (.literal l)
        = (s, .error (.literalOverflow l.numeral s.options.wordSize)) := by
      rw [hcompile, Emitter.push, Emitter.makePush_of_lt (Nat.not_lt.mp hfits)]
      simp [run]
    rw [hfail]
    exact ⟨iff_of_true rfl (Nat.not_lt.mp hfits), fun _ => rfl, fun h => absurd h hfits⟩

/-- With words of one byte, the greatest literal that one holds and the least that none does. -/
theorem Session.compile_literal_byte :
    let s : Session := { options := { wordSize := 1 } }
    (∃ data, s.compile (.literal ⟨.hexadecimal, "00fF", rfl⟩) = (s.push (.push data), .ok ()) ∧
        BigEndian.Shortest data 255) ∧
      s.compile (.literal ⟨.decimal, "256", rfl⟩) = (s, .error (.literalOverflow 256 1)) := by
  intro s
  have hoptions : s.options.Valid := ⟨by decide, by decide⟩
  have hhigh : Literal.numeral ⟨.hexadecimal, "00fF", rfl⟩ = 255 := by
    rw [← Literal.value_eq_numeral]
    rfl
  have hover : Literal.numeral ⟨.decimal, "256", rfl⟩ = 256 := by
    rw [← Literal.value_eq_numeral]
    rfl
  refine ⟨?_, Prod.ext ?_ ?_⟩
  · obtain ⟨data, hcompile, -, hshortest, -⟩ :=
      (compile_literal hoptions (l := ⟨.hexadecimal, "00fF", rfl⟩) (by decide)).2.2
        (by rw [hhigh]; decide)
    exact ⟨data, hcompile, hhigh ▸ hshortest⟩
  · exact (compile_literal hoptions (l := ⟨.decimal, "256", rfl⟩) (by decide)).2.1
      (by rw [hover]; decide)
  · have hiff := (compile_literal hoptions (l := ⟨.decimal, "256", rfl⟩) (by decide)).1
    rw [hover] at hiff
    exact hiff.mpr (by decide)

end EvmToolchain
