import Pagewright.Decimal.Shortest
import Pagewright.Text.Integer

/-! How a floating-point number is written: plainly while its leading digit stands not too far
from the point, otherwise with an exponent. A plain number keeps a fraction, so it is never
mistaken for an integer. -/

namespace Pagewright.Decimal

/-- The places of the leading digit between which a number is written plainly. -/
structure Notation where
  lowest : Int
  highest : Int

/-- From hundred-thousandths up to sixteen digits before the point. -/
def documentNotation : Notation := ⟨-5, 15⟩

/-- The digits without the zeros at their end, at least one, and how many were dropped. -/
def dropZeros : List Char → List Char × Nat
  | [] => ([], 0)
  | d :: rest =>
    match dropZeros rest with
    | ([], dropped) => if d = '0' then ([], dropped + 1) else ([d], dropped)
    | (kept, dropped) => (d :: kept, dropped)

def Notation.plain (digits : List Char) (leading : Int) : List Char :=
  if leading < 0 then
    '0' :: '.' :: List.replicate (-leading - 1).toNat '0' ++ digits
  else
    let whole := leading.toNat + 1
    let before := digits.take whole ++ List.replicate (whole - digits.length) '0'
    let after := digits.drop whole
    before ++ '.' :: (if after.isEmpty then ['0'] else after)

def Notation.scientific (digits : List Char) (leading : Int) : List Char :=
  let fraction := digits.drop 1
  digits.take 1 ++ (if fraction.isEmpty then [] else '.' :: fraction) ++
    'e' :: (if leading < 0 then '-' else '+') :: Text.writeNatural leading.natAbs

def Notation.write (style : Notation) (x : Binary64) : List Char :=
  let magnitude :=
    if x.isZero then ['0', '.', '0']
    else
      let decimal := x.shortest
      let (digits, dropped) := dropZeros (Text.writeNatural decimal.digits)
      let leading := decimal.exponent + dropped + digits.length - 1
      if style.lowest ≤ leading ∧ leading ≤ style.highest then plain digits leading
      else scientific digits leading
  if x.negative then '-' :: magnitude else magnitude

end Pagewright.Decimal
