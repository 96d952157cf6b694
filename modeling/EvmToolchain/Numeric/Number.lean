import EvmToolchain.Limits
import EvmToolchain.Numeric.Shortest

/-!
# EvmToolchain.Numeric.Number

Numbers among settings. A truth value is a number too, one or zero, but is
kept and written as a truth value. Numbers of different kinds are compared by
their exact values.
-/

namespace EvmToolchain

/-- A numeric setting. -/
inductive Number
  | whole (value : Int)
  | truth (value : Bool)
  | real (value : Binary64)
  deriving Repr, DecidableEq

/-- A place on the number line. -/
inductive Position
  | belowAll
  /-- The point `significand · 2 ^ exponent`. -/
  | point (significand exponent : Int)
  | aboveAll
  deriving Repr, DecidableEq

namespace Position

/-- Whether a place comes before another one. -/
def lt : Position → Position → Bool
  | belowAll, belowAll => false
  | belowAll, _ => true
  | point m e, point n f =>
    let least := min e f
    m * Binary64.twoTo (e - least).toNat < n * Binary64.twoTo (f - least).toNat
  | point .., aboveAll => true
  | _, _ => false

end Position

namespace Number

/-- Where the number stands, if it has a value at all. -/
def position? : Number → Option Position
  | whole v => some (.point v 0)
  | truth b => some (.point (if b then 1 else 0) 0)
  | real (.finite s m e) => some (.point (Binary64.signed s m) e)
  | real (.infinite s) => some (if s then .belowAll else .aboveAll)
  | real .undefined => none

/-- Whether a number is below another one. -/
def lt (a b : Number) : Bool :=
  match a.position?, b.position? with
  | some p, some q => p.lt q
  | _, _ => false

/-- Whether a number is not above another one. -/
def le (a b : Number) : Bool :=
  match a.position?, b.position? with
  | some p, some q => !q.lt p
  | _, _ => false

/-- Whether two numbers have the same value. -/
def sameValue (a b : Number) : Bool := a.le b && b.le a

/-- The greatest integer that is not above the number; `none` if there is no
greatest one. -/
def floor? : Number → Option Int
  | whole v => some v
  | truth b => some (if b then 1 else 0)
  | real (.finite s m e) =>
    some (Int.fdiv (Binary64.signed s m * Binary64.twoTo e.toNat) (Binary64.twoTo (-e).toNat))
  | real _ => none

/-- The integer that the number is kept as, unless it is a fraction. -/
def whole? : Number → Option Int
  | whole v => some v
  | truth b => some (if b then 1 else 0)
  | real _ => none

/-- Whether the number has no more digits than can be written. -/
def isWritable : Number → Bool
  | whole v => v.natAbs < Decimal.tenTo maxDigits
  | _ => true

instance : ToString Number where
  toString
    | whole v => toString v
    | truth b => if b then "True" else "False"
    | real r => toString r

end Number

end EvmToolchain
