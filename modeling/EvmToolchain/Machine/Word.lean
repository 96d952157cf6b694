import EvmToolchain.Limits
import EvmToolchain.Numeric.BigEndian

/-!
# EvmToolchain.Machine.Word

Arithmetic on machine words. A word is a natural number below `Word.modulus`;
results are taken modulo it. Truth values are one and zero.
-/

namespace EvmToolchain.Word

/-- The number of words. -/
def modulus : Nat := BigEndian.capacity wordBytes

/-- The greatest word: all bits set. -/
def mask : Nat := modulus - 1

/-- The word with the same low-order bits. -/
def wrap (n : Nat) : Nat := n % modulus

/-- The word that an integer is congruent to. -/
def ofInt (v : Int) : Nat := (v % modulus).toNat

/-- One for true and zero for false. -/
def ofBool (b : Bool) : Nat := if b then 1 else 0

/-- The remainder of `a ^ b` modulo `m`, by repeated squaring. -/
def powMod (m a b : Nat) : Nat :=
  if b = 0 then 1 % m
  else
    let half := powMod m (a * a % m) (b / 2)
    if b % 2 = 1 then a * half % m else half

def add (a b : Nat) : Nat := wrap (a + b)

def sub (a b : Nat) : Nat := ofInt ((a : Int) - b)

def mul (a b : Nat) : Nat := wrap (a * b)

/-- The quotient rounded down; zero for a zero divisor. -/
def div (a b : Nat) : Nat := a / b

/-- The remainder; zero for a zero divisor. -/
def mod (a b : Nat) : Nat := if b = 0 then 0 else a % b

def exp (a b : Nat) : Nat := powMod modulus a b

def lt (a b : Nat) : Nat := ofBool (a < b)

def gt (a b : Nat) : Nat := ofBool (b < a)

def eq (a b : Nat) : Nat := ofBool (a = b)

def isZero (a : Nat) : Nat := ofBool (a = 0)

/-- The bitwise complement. -/
def not (a : Nat) : Nat := a ^^^ mask

theorem modulus_pos : 0 < modulus := by decide

theorem wrap_lt (n : Nat) : wrap n < modulus := Nat.mod_lt _ modulus_pos

theorem wrap_of_lt {n : Nat} (h : n < modulus) : wrap n = n := Nat.mod_eq_of_lt h

theorem ofInt_natCast (n : Nat) : ofInt n = wrap n := by
  simp only [ofInt, wrap]
  omega

theorem ofInt_lt (v : Int) : ofInt v < modulus := by
  have h := modulus_pos
  have := Int.emod_lt_of_pos v (show (0 : Int) < modulus by omega)
  have := Int.emod_nonneg v (show (modulus : Int) ≠ 0 by omega)
  simp only [ofInt]
  omega

/-- Repeated squaring computes the power. -/
theorem powMod_eq (m a b : Nat) : powMod m a b = Nat.pow a b % m := by
  show powMod m a b = a ^ b % m
  fun_induction powMod m a b with
  | case1 => simp
  | case2 a b hb half hodd ih =>
    have hb' : b = b / 2 * 2 + 1 := by omega
    have hhalf : half = (a * a) ^ (b / 2) % m := by
      rw [Nat.pow_mod]
      exact ih
    have hpow : a ^ b = a * (a * a) ^ (b / 2) := by
      conv => lhs; rw [hb', Nat.pow_succ, Nat.mul_comm (b / 2), Nat.pow_mul, Nat.pow_two]
      rw [Nat.mul_comm]
    rw [hhalf, hpow, Nat.mul_mod_mod]
  | case3 a b hb half heven ih =>
    have hb' : b = b / 2 * 2 := by omega
    have hpow : a ^ b = (a * a) ^ (b / 2) := by
      conv => lhs; rw [hb', Nat.mul_comm (b / 2), Nat.pow_mul, Nat.pow_two]
    rw [hpow, Nat.pow_mod]
    exact ih

end EvmToolchain.Word
