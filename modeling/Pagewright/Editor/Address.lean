import Pagewright.Path
import Pagewright.Text.Digit

/-! Paths in requests. A byte may be written as a percent sign and two hexadecimal digits; a
percent sign without them stands for itself. -/

namespace Pagewright.Editor

def hexByte? (high low : UInt8) : Option UInt8 := do
  let high ← Text.hexValue? (Char.ofNat high.toNat)
  let low ← Text.hexValue? (Char.ofNat low.toNat)
  return (high * 16 + low).toUInt8

def decodeBytes : List UInt8 → List UInt8
  | 0x25 :: high :: low :: rest =>
    match hexByte? high low with
    | some byte => byte :: decodeBytes rest
    | none => 0x25 :: decodeBytes (high :: low :: rest)
  | byte :: rest => byte :: decodeBytes rest
  | [] => []

/-- The text that a path stands for, unless its bytes are no text. -/
def percentDecode (text : String) : Option String :=
  String.fromUTF8? ⟨(decodeBytes text.toUTF8.toList).toArray⟩

/-- A request's path without its query. -/
def pathOfTarget (target : String) : String :=
  String.ofList (target.toList.takeWhile fun c => c ≠ '?' && c ≠ '#')

/-- The path that a sub path leads to below a base. Only names may occur in it. -/
def resolveSubPath (base : Path) (subPath : String) : Option Path :=
  let path : Path := ⟨subPath⟩
  if path.components.all fun | .name _ => true | _ => false then some (base.join path)
  else none

end Pagewright.Editor
