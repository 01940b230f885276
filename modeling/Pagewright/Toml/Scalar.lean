import Pagewright.Text.Integer
import Pagewright.Toml.Line

/-! Texts, numbers and dates of a settings file. Floats and dates are only recognised: no
setting has one, so no value is kept. -/

namespace Pagewright.Toml

open Text (Reader)

/-- The character that hexadecimal digits name. -/
def namedChar? (digits : List Char) : Option Char := do
  guard (digits.all Text.isHexDigit)
  let code := Text.readDigitsOf 16 digits
  if code.isValidChar then some (Char.ofNat code) else none

def simpleEscape? : Char → Option Char
  | 'b' => some '\x08'
  | 't' => some '\t'
  | 'n' => some '\n'
  | 'f' => some '\x0c'
  | 'r' => some '\r'
  | '"' => some '"'
  | '\\' => some '\\'
  | _ => none

/-- The rest of a text between quotes on one line. -/
def quotedFrom (found : List Char) : Reader String
  | '"' :: rest => some (String.ofList found.reverse, rest)
  | '\\' :: 'u' :: a :: b :: c :: d :: rest => do
    quotedFrom ((← namedChar? [a, b, c, d]) :: found) rest
  | '\\' :: 'U' :: a :: b :: c :: d :: e :: f :: g :: h :: rest => do
    quotedFrom ((← namedChar? [a, b, c, d, e, f, g, h]) :: found) rest
  | '\\' :: c :: rest => do quotedFrom ((← simpleEscape? c) :: found) rest
  | c :: rest => if isPrintable c then quotedFrom (c :: found) rest else none
  | [] => none

/-- Whether a backslash stands in front of a line end. -/
def breaksLine (rest : List Char) : Bool :=
  match rest.dropWhile isBlankOrTab with
  | '\n' :: _ | '\r' :: '\n' :: _ => true
  | _ => false

/-- The rest of a text between threefold quotes. After a backslash at the end of a line all
blanks and line ends are dropped. Up to two quotes may stand in front of the closing ones. -/
def blockFrom (found : List Char) (trimming : Bool) : Reader String
  | '"' :: '"' :: '"' :: '"' :: '"' :: rest =>
    some (String.ofList ('"' :: '"' :: found).reverse, rest)
  | '"' :: '"' :: '"' :: '"' :: rest => some (String.ofList ('"' :: found).reverse, rest)
  | '"' :: '"' :: '"' :: rest => some (String.ofList found.reverse, rest)
  | '\n' :: rest => blockFrom (if trimming then found else '\n' :: found) trimming rest
  | '\r' :: '\n' :: rest => blockFrom (if trimming then found else '\n' :: found) trimming rest
  | '\\' :: 'u' :: a :: b :: c :: d :: rest => do
    blockFrom ((← namedChar? [a, b, c, d]) :: found) false rest
  | '\\' :: 'U' :: a :: b :: c :: d :: e :: f :: g :: h :: rest => do
    blockFrom ((← namedChar? [a, b, c, d, e, f, g, h]) :: found) false rest
  | '\\' :: c :: rest =>
    if breaksLine (c :: rest) then blockFrom found true (c :: rest)
    else do blockFrom ((← simpleEscape? c) :: found) false rest
  | c :: rest =>
    if trimming && isBlankOrTab c then blockFrom found true rest
    else if isPrintable c then blockFrom (c :: found) false rest
    else none
  | [] => none

/-- The rest of a text between threefold single quotes, in which nothing is escaped. -/
def rawBlockFrom (found : List Char) : Reader String
  | '\'' :: '\'' :: '\'' :: '\'' :: '\'' :: rest =>
    some (String.ofList ('\'' :: '\'' :: found).reverse, rest)
  | '\'' :: '\'' :: '\'' :: '\'' :: rest => some (String.ofList ('\'' :: found).reverse, rest)
  | '\'' :: '\'' :: '\'' :: rest => some (String.ofList found.reverse, rest)
  | '\n' :: rest => rawBlockFrom ('\n' :: found) rest
  | '\r' :: '\n' :: rest => rawBlockFrom ('\n' :: found) rest
  | c :: rest => if isPrintable c then rawBlockFrom (c :: found) rest else none
  | [] => none

def quoted : Reader String := do
  Reader.literal "\""
  quotedFrom []

def raw : Reader String := do
  Reader.literal "'"
  let found ← Reader.span fun c => isPrintable c && c ≠ '\''
  Reader.literal "'"
  return String.ofList found

/-- A line end right after the opening quotes is dropped. -/
def block : Reader String := do
  Reader.literal "\"\"\""
  discard (Reader.optional newline)
  blockFrom [] false

def rawBlock : Reader String := do
  Reader.literal "'''"
  discard (Reader.optional newline)
  rawBlockFrom []

def string : Reader String := block <|> quoted <|> rawBlock <|> raw

/-- Digits of a number. An underscore may stand between two of them. -/
def digitsFrom (accept : Char → Bool) : Reader (List Char)
  | '_' :: d :: rest => do
    guard (accept d)
    let (digits, rest) ← digitsFrom accept rest
    return (d :: digits, rest)
  | ['_'] => none
  | d :: rest =>
    if accept d then do
      let (digits, rest) ← digitsFrom accept rest
      return (d :: digits, rest)
    else some ([], d :: rest)
  | [] => some ([], [])

def digits (accept : Char → Bool) : Reader (List Char) := do
  let first ← Reader.next accept
  return first :: (← digitsFrom accept)

def sign : Reader Bool := do
  let found ← Reader.optional (Reader.next fun c => c = '+' || c = '-')
  return found = some '-'

/-- A whole number in decimal, with no zero in front of another digit. -/
def decimal : Reader (Bool × List Char) := do
  let negative ← sign
  if (← Reader.peek) = some '0' then
    discard (Reader.next fun _ => true)
    return (negative, ['0'])
  else return (negative, ← digits Text.isAsciiDigit)

def inRange (value : Int) : Reader Int := do
  guard (Text.InRange64 value)
  return value

def based (lead : String) (base : Nat) (accept : Char → Bool) : Reader Int := do
  Reader.literal lead
  let found ← digits accept
  inRange (Text.readDigitsOf base found)

def integer : Reader Int :=
  based "0x" 16 Text.isHexDigit <|>
  based "0o" 8 (fun c => '0' ≤ c && c ≤ '7') <|>
  based "0b" 2 (fun c => c = '0' || c = '1') <|> do
    let (negative, found) ← decimal
    let value : Int := Text.readDigits found
    inRange (if negative then -value else value)

def exponent : Reader Int := do
  discard (Reader.next fun c => c = 'e' || c = 'E')
  let negative ← sign
  let value : Int := Text.readDigits (← digits Text.isAsciiDigit)
  return if negative then -value else value

/-- Whether a decimal is nearer to what lies beyond the largest binary number of 64 bits than to
that number. -/
def overflows (found : List Char) (exponent : Int) : Bool :=
  let value := Text.readDigits found
  let limit := (Nat.pow 2 54 - 1) * Nat.pow 2 970
  if value = 0 then false
  else if 400 < (found.length : Int) + exponent then true
  else if 0 ≤ exponent then limit ≤ value * Nat.pow 10 exponent.toNat
  else if (found.length : Int) + exponent < 300 then false
  else limit * Nat.pow 10 exponent.natAbs ≤ value

def float : Reader Unit := do
  let number : Reader Unit := do
    let (negative, whole) ← decimal
    let (fraction, shift) ← (do return ([], ← exponent)) <|> do
      Reader.literal "."
      let fraction ← digits Text.isAsciiDigit
      return (fraction, ((← Reader.optional exponent).getD 0))
    guard (negative || !overflows (whole ++ fraction) (shift - fraction.length))
  let special : Reader Unit := do
    discard sign
    Reader.literal "inf" <|> Reader.literal "nan"
  number <|> special

/-- A number of a fixed width and at most a given value. -/
def field (width least most : Nat) : Reader Nat := do
  let value := Text.readDigits (← Reader.exactly Text.isAsciiDigit width)
  guard (least ≤ value && value ≤ most)
  return value

def isLeapYear (year : Nat) : Bool := year % 4 = 0 && (year % 100 ≠ 0 || year % 400 = 0)

def daysIn (year month : Nat) : Nat :=
  if month = 2 then if isLeapYear year then 29 else 28
  else if month = 4 || month = 6 || month = 9 || month = 11 then 30
  else 31

def date : Reader Unit := do
  let year ← field 4 0 9999
  Reader.literal "-"
  let month ← field 2 1 12
  Reader.literal "-"
  discard (field 2 1 (daysIn year month))

def time : Reader Unit := do
  discard (field 2 0 23)
  Reader.literal ":"
  discard (field 2 0 59)
  Reader.literal ":"
  discard (field 2 0 60)
  if (← Reader.peek) = some '.' then
    Reader.literal "."
    discard (Reader.span1 Text.isAsciiDigit)

def timeOffset : Reader Unit := do
  let first ← Reader.next fun c => c = 'Z' || c = 'z' || c = '+' || c = '-'
  if first = '+' || first = '-' then
    discard (field 2 0 23)
    Reader.literal ":"
    discard (field 2 0 59)

def dateTime : Reader Unit :=
  (do
    date
    discard (Reader.optional do
      discard (Reader.next fun c => c = 'T' || c = 't' || c = ' ')
      time
      discard (Reader.optional timeOffset))) <|> time

end Pagewright.Toml
