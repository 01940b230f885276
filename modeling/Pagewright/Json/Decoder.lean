import Pagewright.Json.Value

/-! Reading typed data off a JSON text. A record is written as an object with members in any
order, or as an array with its fields in the declared order; what is missing at the end has its
default. Text is decoded as it comes, so of all faults the first one in reading order is
reported. Part of a text may also have been read whole before its members are looked at; such
a part has no faults of the text left, and only its shape is still open. -/

namespace Pagewright.Json

inductive Access where
  | stream (room : Nat)
  | memory

namespace Access

def document : Access := .stream nestingLimit

/-- Opens a container. -/
def enter : Access → Except Fault Access
  | .stream 0 => .error .malformed
  | .stream (room + 1) => .ok (.stream room)
  | .memory => .ok .memory

/-- The fault of an array with more items than its record has fields. In a text it shows
already at the comma. -/
def surplus : Access → Fault
  | .stream _ => .malformed
  | .memory => .misshapen

/-- Reads a value to its end before its shape is looked at. -/
def whole (value : Reading) : Access → Except Fault Unit
  | .stream room => do let _ ← value.value room
  | .memory => .ok ()

/-- Passes over a member that no field asks for. -/
def skip (value : Reading) : Access → Except Fault Unit
  | .stream _ => value.skip
  | .memory => .ok ()

end Access

/-- The fault of a value of the wrong shape. A scalar is read before it is refused, a container
is refused where it opens. -/
def Reading.refuse : Reading → Fault
  | .broken place => place.decoded
  | .number literal => if literal.value.isNone then .malformed else .misshapen
  | .string none => .malformed
  | _ => .misshapen

/-- How a value of one type is read. -/
abbrev Decoder (α : Type) := Access → Reading → Except Fault α

namespace Decoder

def string : Decoder String
  | _, .string (some text) => .ok text
  | _, value => .error value.refuse

/-- A value that may be absent, which `null` says as well. -/
def optional (decoder : Decoder α) : Decoder (Option α)
  | _, .null => .ok none
  | access, value => some <$> decoder access value

def each (decoder : Decoder α) (access : Access) : List Reading → Except Fault (List α)
  | [] => .ok []
  | item :: rest => do
    let first ← decoder access item
    return first :: (← each decoder access rest)

def list (decoder : Decoder α) : Decoder (List α)
  | access, .array items ending => do
    let found ← each decoder (← access.enter) items
    checkEnding ending
    return found
  | _, value => .error value.refuse

def eachEntry (decoder : Decoder α) (access : Access) (known : Keyed String α) :
    List (Option String × Reading) → Except Fault (Keyed String α)
  | [] => .ok known
  | (key, value) :: rest => do
    let key ← decodeString key
    let value ← decoder access value
    eachEntry decoder access (known.insert key value) rest

/-- Entries under free keys, in the order of the text. -/
def keyed (decoder : Decoder α) : Decoder (Keyed String α)
  | access, .object members ending => do
    let found ← eachEntry decoder (← access.enter) ∅ members
    checkEnding ending
    return found
  | _, value => .error value.refuse

end Decoder

/-- A field of a record: its name in a document, and how a value for it changes the record. -/
structure RecordField (σ : Type) where
  name : String
  read : Access → Reading → Except Fault (σ → σ)

def RecordField.of (name : String) (decoder : Decoder α) (write : α → σ → σ) :
    RecordField σ where
  name := name
  read access value := write <$> decoder access value

/-- What becomes of a member that no field asks for. -/
inductive Others where
  | skipped
  | readWhole

def Others.pass (access : Access) (value : Reading) : Others → Except Fault Unit
  | .skipped => access.skip value
  | .readWhole => access.whole value

/-- Reads the members of an object. A field may be given once. -/
def readMembers (fields : List (RecordField σ)) (others : Others) (access : Access)
    (seen : List String) (found : σ) :
    List (Option String × Reading) → Except Fault (List String × σ)
  | [] => .ok (seen, found)
  | (key, value) :: rest => do
    let key ← decodeString key
    match fields.find? (·.name = key) with
    | none =>
      others.pass access value
      readMembers fields others access seen found rest
    | some field =>
      if key ∈ seen then .error .misshapen
      else
        let change ← field.read access value
        readMembers fields others access (key :: seen) (change found) rest

/-- Reads the items of an array as the fields of a record. -/
def readItems (access : Access) (seen : List String) (found : σ) :
    List (RecordField σ) → List Reading → Except Fault (List String × σ)
  | _, [] => .ok (seen, found)
  | [], _ :: _ => .error access.surplus
  | field :: fields, value :: rest => do
    let change ← field.read access value
    readItems access (field.name :: seen) (change found) fields rest

def checkRequired (required seen : List String) : Except Fault Unit :=
  if required.all (· ∈ seen) then .ok () else .error .misshapen

/-- Reads a record from a start that holds its defaults; `required` names the fields without. -/
def Decoder.record (fields : List (RecordField σ)) (start : σ) (required : List String) :
    Decoder σ
  | access, .array items ending => do
    let (seen, found) ← readItems (← access.enter) [] start fields items
    checkEnding ending
    checkRequired required seen
    return found
  | access, .object members ending => do
    let (seen, found) ← readMembers fields .skipped (← access.enter) [] start members
    checkEnding ending
    checkRequired required seen
    return found
  | _, value => .error value.refuse

/-- Reads two records whose members stand in one object. The first is read as its members come
while all others are read whole; the second is picked out of the object once that has ended. -/
def Decoder.joined (own : List (RecordField σ)) (start : σ) (required : List String)
    (shared : List (RecordField τ)) (sharedStart : τ) : Decoder (σ × τ)
  | access, .object members ending => do
    let (seen, found) ← readMembers own .readWhole (← access.enter) [] start members
    checkEnding ending
    checkRequired required seen
    let (_, others) ← readMembers shared .skipped .memory [] sharedStart members
    return (found, others)
  | _, value => .error value.refuse

/-- Reads a whole text. -/
def Decoder.ofText (decoder : Decoder α) (text : String) : Except Fault α := do
  let document := Document.ofText text
  let found ← decoder .document document.root
  document.checkTrailing
  return found

end Pagewright.Json
