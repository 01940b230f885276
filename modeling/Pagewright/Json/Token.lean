import Pagewright.Json.Number

/-! The tokens of a JSON text. Tokens are cut off the front of the text until it ends or until
something is found that is no token; that place is itself the last token, so whoever reads the
tokens meets the fault where it stands. -/

namespace Pagewright.Json

/-- Why a text was refused: it ended too early, it is not JSON, or it is JSON of a shape that
was not asked for. -/
inductive Fault where
  | ended
  | malformed
  | misshapen
deriving DecidableEq

/-- A fault of the text itself. A value that is only skipped is looked at less closely than one
that is decoded, so the two readers can give different reasons for the same place. -/
structure Break where
  decoded : Fault
  skipped : Fault
deriving DecidableEq

def Break.of (fault : Fault) : Break := ⟨fault, fault⟩

/-- A number that breaks off at the end of the text. -/
def Break.cutNumber : Break := ⟨.ended, .malformed⟩

/-- A string without text has an escape for one half of a surrogate pair. -/
inductive Token where
  | arrayOpen
  | arrayClose
  | objectOpen
  | objectClose
  | colon
  | comma
  | null
  | bool (value : Bool)
  | number (literal : Literal)
  | string (text : Option String)
  | broken (opensString : Bool) (place : Break)
deriving DecidableEq

def isSpace (c : Char) : Bool := c = ' ' || c = '\n' || c = '\t' || c = '\r'

/-- The number of bytes a text takes. -/
def byteCount (text : List Char) : Nat := text.foldr (fun c bytes => c.utf8Size + bytes) 0

/-- The code unit that four hexadecimal digits spell. Four bytes are taken before they are
looked at, so fewer are a text that ended. -/
def hexUnit : List Char → Except Fault (Nat × List Char)
  | text@(a :: b :: c :: d :: rest) =>
    match Text.hexValue? a, Text.hexValue? b, Text.hexValue? c, Text.hexValue? d with
    | some a, some b, some c, some d => .ok (((a * 16 + b) * 16 + c) * 16 + d, rest)
    | _, _, _, _ => .error (if byteCount text < 4 then .ended else .malformed)
  | text => .error (if byteCount text < 4 then .ended else .malformed)

def simpleEscape? : Char → Option Char
  | '"' => some '"'
  | '\\' => some '\\'
  | '/' => some '/'
  | 'b' => some '\x08'
  | 'f' => some '\x0c'
  | 'n' => some '\n'
  | 'r' => some '\r'
  | 't' => some '\t'
  | _ => none

/-- What has been read of a string: its characters in reverse, a first half of a surrogate pair
that waits for its second, and whether some half was left alone. -/
structure StringSoFar where
  characters : List Char := []
  waiting : Option Nat := none
  alone : Bool := false

namespace StringSoFar

/-- Anything but a second half leaves a waiting first half alone. -/
def settle (state : StringSoFar) : StringSoFar :=
  { state with waiting := none, alone := state.alone || state.waiting.isSome }

def push (state : StringSoFar) (c : Char) : StringSoFar :=
  let state := state.settle
  { state with characters := c :: state.characters }

def pushUnit (state : StringSoFar) (unit : Nat) : StringSoFar :=
  if 0xDC00 ≤ unit ∧ unit ≤ 0xDFFF then
    match state.waiting with
    | some first =>
      let c := Char.ofNat ((first - 0xD800) * 0x400 + (unit - 0xDC00) + 0x10000)
      { state with characters := c :: state.characters, waiting := none }
    | none => { state with alone := true }
  else if 0xD800 ≤ unit ∧ unit ≤ 0xDBFF then { state.settle with waiting := some unit }
  else state.push (Char.ofNat unit)

/-- A half that is known to be alone is the first fault of a string that is decoded. -/
def broken (state : StringSoFar) (fault : Fault) : Token :=
  .broken true ⟨if state.alone then .malformed else fault, fault⟩

def close (state : StringSoFar) : Token :=
  let state := state.settle
  .string (if state.alone then none else some (String.ofList state.characters.reverse))

end StringSoFar

/-- Reads a string after its opening quote; the number counts the characters used. -/
def scanString (state : StringSoFar) (used : Nat) : List Char → Token × Nat
  | [] => (state.broken .ended, used)
  | '"' :: _ => (state.close, used + 1)
  | '\\' :: 'u' :: a :: b :: c :: d :: rest =>
    match hexUnit [a, b, c, d] with
    | .ok (unit, _) => scanString (state.pushUnit unit) (used + 6) rest
    | .error fault => (state.broken fault, used)
  | '\\' :: 'u' :: short =>
    (state.broken (if byteCount short < 4 then .ended else .malformed), used)
  | ['\\'] => (state.broken .ended, used)
  | '\\' :: c :: rest =>
    match simpleEscape? c with
    | some c => scanString (state.push c) (used + 2) rest
    | none => (state.broken .malformed, used)
  | c :: rest =>
    if c.toNat < 0x20 then (state.broken .malformed, used)
    else scanString (state.push c) (used + 1) rest

def scanExponent (literal : Literal) (used : Nat) : List Char → Token × Nat
  | e :: rest =>
    if e = 'e' ∨ e = 'E' then
      let (negative, rest, used) := match rest with
        | '-' :: rest => (true, rest, used + 2)
        | '+' :: rest => (false, rest, used + 2)
        | _ => (false, rest, used + 1)
      let digits := rest.takeWhile Text.isAsciiDigit
      if digits.isEmpty then
        (.broken false (if rest.isEmpty then .cutNumber else .of .malformed), used)
      else (.number { literal with exponent := some (negative, digits) }, used + digits.length)
    else (.number literal, used)
  | [] => (.number literal, used)

def scanFraction (literal : Literal) (used : Nat) : List Char → Token × Nat
  | '.' :: rest =>
    let digits := rest.takeWhile Text.isAsciiDigit
    if digits.isEmpty then
      (.broken false (if rest.isEmpty then .cutNumber else .of .malformed), used)
    else
      scanExponent { literal with fraction := digits } (used + 1 + digits.length)
        (rest.dropWhile Text.isAsciiDigit)
  | text => scanExponent literal used text

/-- Reads a number after its sign. A zero in front is the whole integer part. -/
def scanNumber (negative : Bool) (text : List Char) : Token × Nat :=
  let whole := text.takeWhile Text.isAsciiDigit
  let after := text.dropWhile Text.isAsciiDigit
  match whole with
  | [] => (.broken false (if text.isEmpty then .cutNumber else .of .malformed), 0)
  | '0' :: _ :: _ => (.broken false (.of .malformed), 0)
  | _ => scanFraction ⟨negative, whole, [], none⟩ whole.length after

/-- Reads the rest of a word of which the first letter has been seen. -/
def scanWord (token : Token) (used : Nat) : List Char → List Char → Token × Nat
  | [], _ => (token, used)
  | _ :: _, [] => (.broken false (.of .ended), used)
  | e :: expected, c :: rest =>
    if c = e then scanWord token (used + 1) expected rest
    else (.broken false (.of .malformed), used)

/-- The token that starts with a character, and how many of the characters after it belong
to it. -/
def scanToken (c : Char) (rest : List Char) : Token × Nat :=
  match c with
  | '[' => (.arrayOpen, 0)
  | ']' => (.arrayClose, 0)
  | '{' => (.objectOpen, 0)
  | '}' => (.objectClose, 0)
  | ':' => (.colon, 0)
  | ',' => (.comma, 0)
  | '"' => scanString {} 0 rest
  | 'n' => scanWord .null 0 ['u', 'l', 'l'] rest
  | 't' => scanWord (.bool true) 0 ['r', 'u', 'e'] rest
  | 'f' => scanWord (.bool false) 0 ['a', 'l', 's', 'e'] rest
  | '-' => scanNumber true rest
  | _ =>
    if Text.isAsciiDigit c then
      let (token, used) := scanNumber false (c :: rest)
      (token, used - 1)
    else (.broken false (.of .malformed), 0)

/-- The tokens after a number of characters that belong to the token before. -/
def tokensAfter : Nat → List Char → List Token
  | _, [] => []
  | used + 1, _ :: rest => tokensAfter used rest
  | 0, c :: rest =>
    if isSpace c then tokensAfter 0 rest
    else
      match scanToken c rest with
      | (.broken opensString place, _) => [.broken opensString place]
      | (token, used) => token :: tokensAfter used rest

def tokens (text : List Char) : List Token := tokensAfter 0 text

end Pagewright.Json
