import Pagewright.Text.Digit

/-! Signed integers of 64 bits, written in decimal. Reading accepts a leading `+` and leading
zeros; writing uses neither. Arithmetic on indices is checked against the same range. -/

namespace Pagewright.Text

def InRange64 (n : Int) : Prop := -0x8000000000000000 ≤ n ∧ n < 0x8000000000000000

instance (n : Int) : Decidable (InRange64 n) := inferInstanceAs (Decidable (_ ∧ _))

/-- One sign at most, then ASCII digits, at least one. -/
def readInteger (text : List Char) : Option Int :=
  let (negative, digits) := match text with
    | '-' :: rest => (true, rest)
    | '+' :: rest => (false, rest)
    | _ => (false, text)
  if digits ≠ [] ∧ digits.all isAsciiDigit then
    some (if negative then -(readDigits digits : Int) else readDigits digits)
  else none

def readInteger64 (text : List Char) : Option Int :=
  (readInteger text).filter fun n => decide (InRange64 n)

def writeNatural (n : Nat) : List Char := Nat.toDigits 10 n

def writeInteger (n : Int) : List Char :=
  if n < 0 then '-' :: writeNatural n.natAbs else writeNatural n.natAbs

end Pagewright.Text
