import Pagewright.Json.Token

/-! A JSON text as far as it can be read: members with repeated keys and numbers out of range
are kept as they stand, and a fault of the text is a leaf at its place. A reader that walks a
reading from left to right therefore meets faults of the text and faults of its own in the
order of the text, and the first one decides. -/

namespace Pagewright.Json

inductive Reading where
  | null
  | bool (value : Bool)
  | number (literal : Literal)
  | string (text : Option String)
  | array (items : List Reading) (ending : Option Break)
  | object (members : List (Option String × Reading)) (ending : Option Break)
  | broken (place : Break)

/-- A text: its value, and whether anything but blanks follows it. -/
structure Document where
  root : Reading
  trailing : Bool

/-- A container that waits for the value being read. What it holds so far is in reverse. -/
inductive Frame where
  | array (items : List Reading)
  | member (members : List (Option String × Reading)) (key : Option String)

/-- What may come next, with the content of the container it would extend. -/
inductive Expecting where
  | value
  | firstItem
  | itemEnd (items : List Reading)
  | firstKey
  | nextKey (members : List (Option String × Reading))
  | colon (members : List (Option String × Reading)) (key : Option String)
  | memberEnd (members : List (Option String × Reading))

/-- One token further: more to read, the value complete, or the reading stopped at a fault. -/
inductive Step where
  | more (expecting : Expecting) (frames : List Frame)
  | complete (root : Reading)
  | stopped (root : Reading)

/-- Closes the containers around a value that ends in a fault. -/
def collapse (value : Reading) : List Frame → Reading
  | [] => value
  | .array items :: frames => collapse (.array (value :: items).reverse none) frames
  | .member members key :: frames =>
    collapse (.object ((key, value) :: members).reverse none) frames

/-- Puts a finished value into the container that waits for it. -/
def deliver (value : Reading) : List Frame → Step
  | [] => .complete value
  | .array items :: frames => .more (.itemEnd (value :: items)) frames
  | .member members key :: frames => .more (.memberEnd ((key, value) :: members)) frames

def stepValue (frames : List Frame) : Token → Step
  | .null => deliver .null frames
  | .bool value => deliver (.bool value) frames
  | .number literal => deliver (.number literal) frames
  | .string text => deliver (.string text) frames
  | .arrayOpen => .more .firstItem frames
  | .objectOpen => .more .firstKey frames
  | .broken _ place => .stopped (collapse (.broken place) frames)
  | .arrayClose | .objectClose | .colon | .comma =>
    .stopped (collapse (.broken (.of .malformed)) frames)

/-- A token where a key has to stand. -/
def stepKey (members : List (Option String × Reading)) (frames : List Frame) : Token → Step
  | .string key => .more (.colon members key) frames
  | .broken true place => .stopped (collapse (.object members.reverse (some place)) frames)
  | _ => .stopped (collapse (.object members.reverse (some (.of .malformed))) frames)

def Expecting.step (frames : List Frame) : Expecting → Token → Step
  | .value, token => stepValue frames token
  | .firstItem, .arrayClose => deliver (.array [] none) frames
  | .firstItem, token => stepValue (.array [] :: frames) token
  | .itemEnd items, .comma => .more .value (.array items :: frames)
  | .itemEnd items, .arrayClose => deliver (.array items.reverse none) frames
  | .itemEnd items, _ =>
    .stopped (collapse (.array items.reverse (some (.of .malformed))) frames)
  | .firstKey, .objectClose => deliver (.object [] none) frames
  | .firstKey, token => stepKey [] frames token
  | .nextKey members, token => stepKey members frames token
  | .colon members key, .colon => .more .value (.member members key :: frames)
  | .colon members key, _ =>
    .stopped (collapse (.broken (.of .malformed)) (.member members key :: frames))
  | .memberEnd members, .comma => .more (.nextKey members) frames
  | .memberEnd members, .objectClose => deliver (.object members.reverse none) frames
  | .memberEnd members, _ =>
    .stopped (collapse (.object members.reverse (some (.of .malformed))) frames)

/-- The reading when the text ends here. -/
def Expecting.atEnd (frames : List Frame) : Expecting → Reading
  | .value => collapse (.broken (.of .ended)) frames
  | .firstItem => collapse (.broken (.of .ended)) (.array [] :: frames)
  | .itemEnd items => collapse (.array items.reverse (some (.of .ended))) frames
  | .firstKey => collapse (.object [] (some (.of .ended))) frames
  | .nextKey members => collapse (.object members.reverse (some (.of .ended))) frames
  | .colon members key => collapse (.broken (.of .ended)) (.member members key :: frames)
  | .memberEnd members => collapse (.object members.reverse (some (.of .ended))) frames

def assemble (expecting : Expecting) (frames : List Frame) : List Token → Document
  | [] => ⟨expecting.atEnd frames, false⟩
  | token :: rest =>
    match expecting.step frames token with
    | .more expecting frames => assemble expecting frames rest
    | .complete root => ⟨root, !rest.isEmpty⟩
    | .stopped root => ⟨root, false⟩

def Document.ofText (text : String) : Document := assemble .value [] (tokens text.toList)

end Pagewright.Json
