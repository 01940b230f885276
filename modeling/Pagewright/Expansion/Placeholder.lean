import Pagewright.Text.Integer

/-! Index tokens in a text. A token is the placeholder, with an offset after it if one follows:
a plus sign, a minus sign or none, and all digits from there on. -/

namespace Pagewright.Expansion

inductive ExpansionError where
  | offsetOutOfRange (token : String)
  | countNotInteger (count : String)
deriving DecidableEq

def ExpansionError.message : ExpansionError → String
  | .offsetOutOfRange token =>
    "Malformed blueprint template: offset in `" ++ token ++ "` is out of range"
  | .countNotInteger count =>
    "Malformed blueprint template: blueprint count `" ++ count ++ "` is not an integer"

/-- The text that stands for the index of an instance. -/
structure Placeholder where
  name : List Char
  nonempty : name ≠ []

namespace Placeholder

def ofString? (name : String) : Option Placeholder :=
  if nonempty : name.toList ≠ [] then some ⟨name.toList, nonempty⟩ else none

def emptyMessage : String := "Invalid placeholder name: placeholder must not be empty"

def standardName : String := "cwrapIndex"

def standard : Placeholder := ⟨"cwrapIndex".toList, by simp⟩

instance : Inhabited Placeholder := ⟨standard⟩

end Placeholder

/-- A text falls into characters that stay and tokens that are replaced. -/
inductive Piece where
  | plain (c : Char)
  | token (offset : Option (List Char))
deriving DecidableEq

/-- The offset in front of a text, without its plus sign. -/
def readOffset : List Char → Option (List Char)
  | '+' :: '-' :: rest =>
    match rest.takeWhile Text.isDigit with
    | [] => none
    | digits => some ('-' :: digits)
  | '+' :: rest =>
    match rest.takeWhile Text.isDigit with
    | [] => none
    | digits => some digits
  | _ => none

/-- How many characters an offset takes in a text. -/
def offsetLength : Option (List Char) → Nat
  | none => 0
  | some offset => offset.length + 1

/-- The pieces after a number of characters that belong to the token before. -/
def piecesAfter (placeholder : Placeholder) : Nat → List Char → List Piece
  | _, [] => []
  | used + 1, _ :: rest => piecesAfter placeholder used rest
  | 0, c :: rest =>
    if placeholder.name.isPrefixOf (c :: rest) then
      let offset := readOffset ((c :: rest).drop placeholder.name.length)
      .token offset ::
        piecesAfter placeholder (placeholder.name.length + offsetLength offset - 1) rest
    else .plain c :: piecesAfter placeholder 0 rest

def pieces (placeholder : Placeholder) (text : List Char) : List Piece :=
  piecesAfter placeholder 0 text

def Piece.isToken : Piece → Bool
  | .plain _ => false
  | .token _ => true

/-- A token as it is written. -/
def tokenText (placeholder : Placeholder) : Option (List Char) → List Char
  | none => placeholder.name
  | some offset => placeholder.name ++ '+' :: offset

/-- The index that a token stands for, while it fits 64 bits. -/
def shiftedIndex (index : Int) : Option (List Char) → Option Int
  | none => some index
  | some offset => do
    let shift ← Text.readInteger64 offset
    if Text.InRange64 (index + shift) then some (index + shift) else none

def Piece.replace (placeholder : Placeholder) (index : Int) :
    Piece → Except ExpansionError (List Char)
  | .plain c => .ok [c]
  | .token offset =>
    match shiftedIndex index offset with
    | some value => .ok (Text.writeInteger value)
    | none => .error (.offsetOutOfRange (String.ofList (tokenText placeholder offset)))

/-- Replaces all pieces; the first token that cannot be replaced is the error. -/
def replacePieces (placeholder : Placeholder) (index : Int) :
    List Piece → Except ExpansionError (List Char)
  | [] => .ok []
  | piece :: rest => do
    let first ← piece.replace placeholder index
    return first ++ (← replacePieces placeholder index rest)

def substitute (placeholder : Placeholder) (index : Int) (text : String) :
    Except ExpansionError String :=
  String.ofList <$> replacePieces placeholder index (pieces placeholder text.toList)

/-- Whether a text has no token at all. -/
def isPlain (placeholder : Placeholder) (text : String) : Bool :=
  !(pieces placeholder text.toList).any Piece.isToken

end Pagewright.Expansion
