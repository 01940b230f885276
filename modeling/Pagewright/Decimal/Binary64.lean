/-! Finite binary floating-point numbers of 64 bits, held as exact fractions. A value is a
significand below `2 ^ 53` times a power of two not under `2 ^ (-1074)`. Every operation
rounds the exact result to the nearest value, a tie to the even significand, and gives
nothing when the result is too large. -/

namespace Pagewright.Decimal

/-- The number `± significand * 2 ^ exponent`. Zero keeps its sign. -/
structure Binary64 where
  negative : Bool
  significand : Nat
  exponent : Int
deriving DecidableEq, Inhabited

/-- A quotient rounded to the nearest integer, a tie to the even one. -/
def divideToEven (numerator denominator : Nat) : Nat :=
  let quotient := numerator / denominator
  let rest := 2 * (numerator % denominator)
  if rest < denominator then quotient
  else if denominator < rest then quotient + 1
  else quotient + quotient % 2

namespace Binary64

def zero (negative : Bool) : Binary64 := ⟨negative, 0, -1074⟩

/-- Where the last of 53 bits of a quotient stands. The lengths of the two numbers give the
place up to one; a quotient with only 52 bits there has its last bit one place lower. -/
def lastBit (numerator denominator : Nat) : Int :=
  let guess : Int := (Nat.log2 numerator : Int) - Nat.log2 denominator - 52
  let bits := numerator * Nat.pow 2 (-guess).toNat / (denominator * Nat.pow 2 guess.toNat)
  if bits < Nat.pow 2 52 then guess - 1 else guess

/-- The value nearest to a fraction; `none` from the middle above the largest value on. -/
def ofFraction (negative : Bool) (numerator denominator : Nat) : Option Binary64 :=
  if numerator = 0 then some (zero negative)
  else
    let exponent := max (lastBit numerator denominator) (-1074)
    let significand :=
      divideToEven (numerator * Nat.pow 2 (-exponent).toNat)
        (denominator * Nat.pow 2 exponent.toNat)
    let (significand, exponent) :=
      if significand = Nat.pow 2 53 then (Nat.pow 2 52, exponent + 1) else (significand, exponent)
    if 971 < exponent then none else some ⟨negative, significand, exponent⟩

/-- The magnitude as a fraction. -/
def numerator (x : Binary64) : Nat := x.significand * Nat.pow 2 x.exponent.toNat

def denominator (x : Binary64) : Nat := Nat.pow 2 (-x.exponent).toNat

def isZero (x : Binary64) : Bool := x.significand == 0

def multiply (x y : Binary64) : Option Binary64 :=
  ofFraction (x.negative != y.negative) (x.numerator * y.numerator)
    (x.denominator * y.denominator)

/-- The divisor is never zero here: it is a power of ten. -/
def divide (x y : Binary64) : Option Binary64 :=
  ofFraction (x.negative != y.negative) (x.numerator * y.denominator)
    (x.denominator * y.numerator)

/-- The value nearest to a power of ten. -/
def powerOfTen (n : Nat) : Option Binary64 := ofFraction false (Nat.pow 10 n) 1

/-- A decimal read in two roundings: the digits first, then one product or quotient with a
power of ten, so the last bit can differ from that of the nearest value. Powers beyond
`10 ^ 308` are not representable: a negative one is applied in two steps, and a positive one
is too large unless the digits are zero. -/
def ofDecimal (negative : Bool) (digits : Nat) (exponent : Int) : Option Binary64 := do
  let value ← ofFraction negative digits 1
  if value.isZero then return value
  if 308 < exponent then none
  else if 0 ≤ exponent then value.multiply (← powerOfTen exponent.toNat)
  else if -308 ≤ exponent then value.divide (← powerOfTen (-exponent).toNat)
  else if -616 ≤ exponent then
    let scaled ← value.divide (← powerOfTen 308)
    scaled.divide (← powerOfTen (-exponent - 308).toNat)
  else return zero negative

end Binary64
end Pagewright.Decimal
