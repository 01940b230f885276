import Pagewright.Json.Reading
import Pagewright.Keyed

/-! A JSON value, and how much of a text is looked at to obtain one. A repeated key keeps its
first place and its last value. A value that is only skipped may nest as deep as it likes, its
numbers may be out of range and its strings may hold halves of surrogate pairs. -/

namespace Pagewright.Json

inductive Value where
  | null
  | bool (value : Bool)
  | number (value : Number)
  | string (text : String)
  | array (items : List Value)
  | object (members : List (String × Value))
deriving Inhabited

/-- How many containers may stand around a value that is decoded. -/
def nestingLimit : Nat := 127

/-- The fault with which a container ends, if it does. -/
def checkEnding (ending : Option Break) : Except Fault Unit :=
  match ending with
  | none => .ok ()
  | some place => .error place.decoded

def decodeNumber (literal : Literal) : Except Fault Number :=
  match literal.value with
  | some number => .ok number
  | none => .error .malformed

def decodeString (text : Option String) : Except Fault String :=
  match text with
  | some text => .ok text
  | none => .error .malformed

mutual

/-- The value that a reading stands for, where `room` more containers may be opened. -/
def Reading.value (room : Nat) : Reading → Except Fault Value
  | .null => .ok .null
  | .bool value => .ok (.bool value)
  | .number literal => return .number (← decodeNumber literal)
  | .string text => return .string (← decodeString text)
  | .array items ending =>
    if room = 0 then .error .malformed
    else do
      let items ← Reading.items (room - 1) items
      checkEnding ending
      return .array items
  | .object members ending =>
    if room = 0 then .error .malformed
    else do
      let members ← Reading.members (room - 1) [] members
      checkEnding ending
      return .object members
  | .broken place => .error place.decoded

def Reading.items (room : Nat) : List Reading → Except Fault (List Value)
  | [] => .ok []
  | item :: rest => do
    let first ← item.value room
    return first :: (← Reading.items room rest)

def Reading.members (room : Nat) (known : List (String × Value)) :
    List (Option String × Reading) → Except Fault (List (String × Value))
  | [] => .ok known
  | (key, value) :: rest => do
    let key ← decodeString key
    let value ← value.value room
    Reading.members room (insertEntry key value known) rest

end

mutual

/-- The fault that is met where a value is passed over. -/
def Reading.skip : Reading → Except Fault Unit
  | .array items ending => do Reading.skipItems items; skipEnding ending
  | .object members ending => do Reading.skipMembers members; skipEnding ending
  | .broken place => .error place.skipped
  | _ => .ok ()
where
  skipEnding : Option Break → Except Fault Unit
    | none => .ok ()
    | some place => .error place.skipped

def Reading.skipItems : List Reading → Except Fault Unit
  | [] => .ok ()
  | item :: rest => do item.skip; Reading.skipItems rest

def Reading.skipMembers : List (Option String × Reading) → Except Fault Unit
  | [] => .ok ()
  | (_, value) :: rest => do value.skip; Reading.skipMembers rest

end

/-- Refuses a text with more than blanks after its value. -/
def Document.checkTrailing (document : Document) : Except Fault Unit :=
  if document.trailing then .error .malformed else .ok ()

def Value.ofText (text : String) : Except Fault Value := do
  let document := Document.ofText text
  let value ← document.root.value nestingLimit
  document.checkTrailing
  return value

end Pagewright.Json
