import Pagewright.Decimal.Binary64

/-! The fewest decimal digits that read back as a given binary number. A decimal reads back
when it lies between the midpoints to the two neighbouring values, the midpoints included
exactly when the significand is even. On each decimal grid only the two points around the
value can be nearest, so the search tries those, coarse grids first. -/

namespace Pagewright.Decimal

/-- The number `digits * 10 ^ exponent`. -/
structure Scientific where
  digits : Nat
  exponent : Int
deriving DecidableEq, Inhabited

/-- Whether `a * 10 ^ i ≤ b * 2 ^ j`. -/
def decimalAtMost (a : Nat) (i : Int) (b : Nat) (j : Int) : Bool :=
  a * Nat.pow 10 i.toNat * Nat.pow 2 (-j).toNat ≤ b * Nat.pow 2 j.toNat * Nat.pow 10 (-i).toNat

/-- Whether `b * 2 ^ j ≤ a * 10 ^ i`. -/
def decimalAtLeast (a : Nat) (i : Int) (b : Nat) (j : Int) : Bool :=
  b * Nat.pow 2 j.toNat * Nat.pow 10 (-i).toNat ≤ a * Nat.pow 10 i.toNat * Nat.pow 2 (-j).toNat

namespace Binary64

/-- The midpoint below, in quarters of the last bit. At a power of two the value below is
only half as far away. -/
def lowerEnd (x : Binary64) : Nat :=
  if x.significand = Nat.pow 2 52 ∧ -1074 < x.exponent then 4 * x.significand - 1
  else 4 * x.significand - 2

/-- The midpoint above, in quarters of the last bit. -/
def upperEnd (x : Binary64) : Nat := 4 * x.significand + 2

def readsBack (x : Binary64) (decimal : Scientific) : Bool :=
  let grid := x.exponent - 2
  let inside := decimalAtLeast decimal.digits decimal.exponent x.lowerEnd grid &&
    decimalAtMost decimal.digits decimal.exponent x.upperEnd grid
  let onEnd := decimalAtMost decimal.digits decimal.exponent x.lowerEnd grid ||
    decimalAtLeast decimal.digits decimal.exponent x.upperEnd grid
  inside && (x.significand % 2 == 0 || !onEnd)

/-- Where the leading decimal digit of the magnitude stands. The binary length gives it up to
one place. -/
def leadingPlace (x : Binary64) : Int :=
  let guess := ((Nat.log2 x.significand : Int) + x.exponent) * 30103 / 100000
  if decimalAtMost 1 (guess + 1) x.significand x.exponent then guess + 1
  else if decimalAtMost 1 guess x.significand x.exponent then guess
  else guess - 1

/-- The grid point at or below the magnitude. -/
def floorOn (x : Binary64) (place : Int) : Nat :=
  x.numerator * Nat.pow 10 (-place).toNat / (x.denominator * Nat.pow 10 place.toNat)

/-- Whether the grid point above is nearer than the one below; a tie goes to the even one. -/
def isNearerAbove (x : Binary64) (place : Int) : Bool :=
  let low := x.floorOn place
  let middle := 2 * low + 1
  if decimalAtMost middle place (2 * x.significand) x.exponent then
    if decimalAtLeast middle place (2 * x.significand) x.exponent then low % 2 == 1 else true
  else false

/-- The nearest grid point that reads back, if one does. -/
def onGrid (x : Binary64) (place : Int) : Option Scientific :=
  let below : Scientific := ⟨x.floorOn place, place⟩
  let above : Scientific := ⟨x.floorOn place + 1, place⟩
  match x.readsBack below, x.readsBack above with
  | true, true => some (if x.isNearerAbove place then above else below)
  | true, false => some below
  | false, true => some above
  | false, false => none

/-- Tries grids that leave more and more digits. Seventeen digits always read back, so the
bound is never the reason to stop. -/
def searchGrids (x : Binary64) (place : Int) : Nat → Scientific
  | 0 => ⟨x.floorOn place, place⟩
  | tries + 1 => (x.onGrid place).getD (x.searchGrids (place - 1) tries)

def shortest (x : Binary64) : Scientific := x.searchGrids x.leadingPlace 17

end Binary64
end Pagewright.Decimal
