import EvmToolchain.Numeric.Decimal

/-!
# EvmToolchain.Numeric.Binary64

Binary floating-point numbers of 64 bits. A finite one is a significand below
`2 ^ 53` times a power of two, in the form that has the greatest significand.

Every operation computes its result exactly, on natural numbers, and then
rounds it to the nearest number of the format; of two that are equally near,
to the one with the even significand (`ofRatio`). What is too great becomes
infinite.
-/

namespace EvmToolchain

/-- A binary floating-point number. -/
inductive Binary64
  /-- The number `± significand · 2 ^ exponent`. -/
  | finite (negative : Bool) (significand : Nat) (exponent : Int)
  | infinite (negative : Bool)
  /-- The result of an operation that has no result. -/
  | undefined
  deriving Repr, DecidableEq

namespace Binary64

/-- The number whose binary digits are a one and `n` zeros. -/
def twoTo (n : Nat) : Nat := Nat.pow 2 n

/-- The least exponent of a finite number. -/
def minExponent : Int := -1074

/-- The greatest exponent of a finite number. -/
def maxExponent : Int := 971

/-- The number of binary digits of a significand. -/
def precision : Nat := 53

/-- A quotient rounded to the nearest integer, a half to the even one. -/
def roundDiv (num den : Nat) : Nat :=
  let q := num / den
  let r := num % den
  if 2 * r < den then q else if den < 2 * r then q + 1 else q + q % 2

/-- A rounded quotient is at most half a unit off. -/
theorem roundDiv_near (num den : Nat) (h : 0 < den) :
    2 * (roundDiv num den * den) ≤ 2 * num + den ∧
      2 * num ≤ 2 * (roundDiv num den * den) + den := by
  have e : den * (num / den) + num % den = num := Nat.div_add_mod num den
  have l : num % den < den := Nat.mod_lt _ h
  have step (k : Nat) : (num / den + k) * den = den * (num / den) + k * den := by
    rw [Nat.add_mul, Nat.mul_comm (num / den)]
  simp only [roundDiv]
  split
  · have := step 0
    simp only [Nat.add_zero, Nat.zero_mul] at this
    omega
  split
  · have := step 1
    omega
  · have := step (num / den % 2)
    rcases Nat.mod_two_eq_zero_or_one (num / den) with h2 | h2 <;> rw [h2] at this ⊢ <;> omega

/-- Of two equally near integers the even one is taken. -/
theorem roundDiv_even (num den : Nat) (h : 2 * (num % den) = den) :
    roundDiv num den % 2 = 0 := by
  simp only [roundDiv]
  split
  · omega
  split <;> omega

/-- The quotient `num / (den · 2 ^ exponent)` as numerator and denominator. -/
def scale (num den : Nat) (exponent : Int) : Nat × Nat :=
  (num * twoTo (-exponent).toNat, den * twoTo exponent.toNat)

/-- The greatest power of two, by its exponent, that is not above the quotient
of two positive numbers. -/
def logRatio (num den : Nat) : Int :=
  let guess : Int := (num.log2 : Int) - den.log2
  let (n, d) := scale num den guess
  if n < d then guess - 1 else guess

/-- The number of the format that is nearest to `± num / den`. -/
def ofRatio (negative : Bool) (num den : Nat) : Binary64 :=
  if num = 0 then finite negative 0 minExponent
  else
    let exponent := max (logRatio num den - (precision - 1 : Nat)) minExponent
    let (n, d) := scale num den exponent
    let significand := roundDiv n d
    let (significand, exponent) :=
      if significand = twoTo precision then (twoTo (precision - 1), exponent + 1)
      else (significand, exponent)
    if maxExponent < exponent then infinite negative else finite negative significand exponent

/-- The number of the format that is nearest to `± significand · 2 ^ exponent`. -/
def ofScaled (negative : Bool) (significand : Nat) (exponent : Int) : Binary64 :=
  ofRatio negative (significand * twoTo exponent.toNat) (twoTo (-exponent).toNat)

/-- The number of the format that is nearest to an integer. -/
def ofInt (v : Int) : Binary64 := ofRatio (v < 0) v.natAbs 1

/-- The number of the format that is nearest to a decimal fraction. Exponents
far outside of the range of the format are settled without writing the number
out. -/
def ofDecimal (d : Decimal) : Binary64 :=
  if d.significand = 0 then ofRatio d.negative 0 1
  else if 310 < d.exponent then infinite d.negative
  else if (d.significand.log2 : Int) + 1 + d.exponent < -330 then ofRatio d.negative 0 1
  else
    ofRatio d.negative (d.significand * Decimal.tenTo d.exponent.toNat)
      (Decimal.tenTo (-d.exponent).toNat)

/-- The number with the other sign. -/
def neg : Binary64 → Binary64
  | finite s m e => finite (!s) m e
  | infinite s => infinite !s
  | undefined => undefined

/-- The product of two numbers. -/
def mul : Binary64 → Binary64 → Binary64
  | finite s m e, finite t n f => ofScaled (s != t) (m * n) (e + f)
  | finite s m _, infinite t | infinite t, finite s m _ =>
    if m = 0 then undefined else infinite (s != t)
  | infinite s, infinite t => infinite (s != t)
  | _, _ => undefined

/-- The significand with its sign. -/
def signed (negative : Bool) (significand : Nat) : Int :=
  if negative then -(significand : Int) else significand

/-- The sum of two numbers. -/
def add : Binary64 → Binary64 → Binary64
  | finite s m e, finite t n f =>
    let least := min e f
    let sum := signed s m * twoTo (e - least).toNat + signed t n * twoTo (f - least).toNat
    ofScaled (if sum = 0 then s && t else sum < 0) sum.natAbs least
  | infinite s, infinite t => if s = t then infinite s else undefined
  | infinite s, finite .. | finite .., infinite s => infinite s
  | _, _ => undefined

end Binary64

end EvmToolchain
