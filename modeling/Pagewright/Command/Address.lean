import Pagewright.Text.Integer
import Pagewright.Text.Reader

/-! Addresses that a server can listen on: four numbers or eight groups, and a port. -/

namespace Pagewright.Command

open Text (Reader)

inductive Address where
  | four (parts : List Nat) (port : Nat)
  | six (groups : List Nat) (scope port : Nat)
deriving DecidableEq

/-- A row of digits below a limit. -/
def boundedNumber (limit : Nat) : Reader Nat := do
  let value := Text.readDigits (← Reader.span1 Text.isAsciiDigit)
  guard (value < limit)
  return value

/-- A number of three digits at most, with no zero in front of another digit. -/
def fourPart : Reader Nat := do
  let text ← get
  let digits := (text.take 3).takeWhile Text.isAsciiDigit
  guard (!digits.isEmpty && (digits.length = 1 || digits.head? ≠ some '0'))
  guard (Text.readDigits digits < 256)
  set (text.drop digits.length)
  return Text.readDigits digits

def fourParts : Reader (List Nat) := do
  let a ← fourPart
  Reader.literal "."
  let b ← fourPart
  Reader.literal "."
  let c ← fourPart
  Reader.literal "."
  let d ← fourPart
  return [a, b, c, d]

/-- A group of four hexadecimal digits at most. -/
def sixGroup : Reader Nat := do
  let text ← get
  let digits := (text.take 4).takeWhile Text.isHexDigit
  guard !digits.isEmpty
  set (text.drop digits.length)
  return Text.readDigitsOf 16 digits

/-- Groups as far as there are any, up to a number of them, and whether the last two were given
as four numbers. -/
def sixGroups (first : Bool) : Nat → Reader (List Nat × Bool)
  | 0 => return ([], false)
  | left + 1 => do
    let separator : Reader Unit := if first then return () else Reader.literal ":"
    if left ≠ 0 then
      if let some [a, b, c, d] ← Reader.optional (do separator; fourParts) then
        return ([a * 256 + b, c * 256 + d], true)
    match ← Reader.optional (do separator; sixGroup) with
    | none => return ([], false)
    | some group =>
      let (groups, four) ← sixGroups false left
      return (group :: groups, four)

/-- Eight groups, of which one row of zeros may be left out. -/
def allGroups : Reader (List Nat) := do
  let (head, four) ← sixGroups true 8
  if head.length = 8 then return head
  guard !four
  Reader.literal "::"
  let (tail, _) ← sixGroups true (7 - head.length)
  return head ++ List.replicate (8 - head.length - tail.length) 0 ++ tail

def portNumber : Reader Nat := do
  Reader.literal ":"
  boundedNumber 65536

def address : Reader Address :=
  (do
    let parts ← fourParts
    return .four parts (← portNumber)) <|> do
  Reader.literal "["
  let groups ← allGroups
  let scope ← Reader.optional do
    Reader.literal "%"
    boundedNumber 0x100000000
  Reader.literal "]"
  return .six groups (scope.getD 0) (← portNumber)

namespace Address

def ofText? (text : String) : Option Address :=
  match address.run text.toList with
  | some (found, []) => some found
  | _ => none

def port : Address → Nat
  | .four _ port => port
  | .six _ _ port => port

def decimal (n : Nat) : String := String.ofList (Text.writeNatural n)

def hexadecimal (n : Nat) : String := String.ofList (Nat.toDigits 16 n)

/-- The length of the zeros in front. -/
def zerosInFront (groups : List Nat) : Nat := (groups.takeWhile (· = 0)).length

/-- Where the first of the longest rows of zeros starts, and its length. -/
def longestZeros : List Nat → Nat × Nat
  | [] => (0, 0)
  | group :: rest =>
    let here := zerosInFront (group :: rest)
    let (start, length) := longestZeros rest
    if length ≤ here then (0, here) else (start + 1, length)

def groupsText (groups : List Nat) : String := ":".intercalate (groups.map hexadecimal)

def sixText (groups : List Nat) : String :=
  match groups with
  | [0, 0, 0, 0, 0, 0xFFFF, high, low] =>
    "::ffff:" ++ ".".intercalate
      ([high / 256, high % 256, low / 256, low % 256].map decimal)
  | groups =>
    let (start, length) := longestZeros groups
    if 1 < length then
      groupsText (groups.take start) ++ "::" ++ groupsText (groups.drop (start + length))
    else groupsText groups

def text : Address → String
  | .four parts port => ".".intercalate (parts.map decimal) ++ ":" ++ decimal port
  | .six groups scope port =>
    "[" ++ sixText groups ++ (if scope = 0 then "" else "%" ++ decimal scope) ++ "]:" ++
      decimal port

/-- Whether an address always belongs to the machine itself. -/
def isLocal : Address → Bool
  | .four parts _ => parts.head? = some 127 || parts = [0, 0, 0, 0]
  | .six groups _ _ => groups = [0, 0, 0, 0, 0, 0, 0, 0] || groups = [0, 0, 0, 0, 0, 0, 0, 1]

end Address
end Pagewright.Command
