import Pagewright.Decimal.Notation

/-! Numbers of a JSON document. A literal without fraction and exponent is an integer while it
fits 64 bits, signed below zero and unsigned above; every other literal is a binary
floating-point number, `-0` included. -/

namespace Pagewright.Json

/-- A number as it is spelled: digits before the point, digits after it, and the sign and
digits of the exponent. -/
structure Literal where
  negative : Bool
  whole : List Char
  fraction : List Char
  exponent : Option (Bool × List Char)
deriving DecidableEq

inductive Number where
  | integer (value : Int)
  | real (value : Decimal.Binary64)
deriving DecidableEq

/-- Appends digits while the number fits 64 bits, and counts those that were used. -/
def appendDigits (value used : Nat) : List Char → Nat × Nat
  | [] => (value, used)
  | d :: rest =>
    let next := 10 * value + Text.digitValue d
    if next < 0x10000000000000000 then appendDigits next (used + 1) rest else (value, used)

namespace Literal

def exponentValue (literal : Literal) : Int :=
  match literal.exponent with
  | none => 0
  | some (negative, digits) =>
    let value : Int := Text.readDigits digits
    if negative then -value else value

/-- The value, unless it is too large. Digits before the point that do not fit 64 bits only
raise the exponent; those after it are dropped. -/
def value (literal : Literal) : Option Number :=
  let (whole, usedWhole) := appendDigits 0 0 literal.whole
  let dropped := literal.whole.length - usedWhole
  if literal.fraction.isEmpty && literal.exponent.isNone && dropped == 0 then
    if !literal.negative then some (.integer whole)
    else if whole = 0 ∨ 0x8000000000000000 < whole then
      (Decimal.Binary64.ofDecimal true whole 0).map .real
    else some (.integer (-whole))
  else
    let (digits, usedFraction) := appendDigits whole 0 literal.fraction
    let exponent := (dropped : Int) - usedFraction + literal.exponentValue
    (Decimal.Binary64.ofDecimal literal.negative digits exponent).map .real

end Literal

def Number.write : Number → List Char
  | .integer value => Text.writeInteger value
  | .real value => Decimal.documentNotation.write value

end Pagewright.Json
