import Pagewright.Toml.Scalar

/-! Documents of a settings file: values, and the tables they stand in. A table may be opened by
a header, implied by a longer header, or made by a dotted key; which of these it was decides
whether it may be opened or extended again. -/

namespace Pagewright.Toml

open Text (Reader)

inductive Value where
  | string (text : String)
  | integer (value : Int)
  | bool (value : Bool)
  | float
  | date
  | array (items : List Value)
  | table (entries : List (String × Value))
deriving Inhabited

inductive Origin where
  | header
  | implied
  | dotted
deriving DecidableEq

inductive Item where
  | value (value : Value)
  | table (origin : Origin) (entries : List (String × Item))
  | tables (elements : List (List (String × Item)))
deriving Inhabited

abbrev Entries := List (String × Item)

/-- Replaces an entry in its place, or adds it at the end. -/
def Entries.set (entries : Entries) (key : String) (item : Item) : Entries :=
  match entries with
  | [] => [(key, item)]
  | (k, old) :: rest =>
    if k = key then (key, item) :: rest else (k, old) :: Entries.set rest key item

/-- Changes the last of some tables, to which later headers and keys refer. -/
def changeLast (change : Entries → Option Entries) : List Entries → Option (List Entries)
  | [] => none
  | [last] => do return [← change last]
  | first :: rest => do return first :: (← changeLast change rest)

/-- Sets a key, after opening tables for the keys in front of it. Neither a table with a header
nor one that a header implies takes keys this way. -/
def insertDotted (origin : Origin) (whole : Bool) (value : Value) :
    List String → Entries → Option Entries
  | [], _ => none
  | [key], entries =>
    if (whole || origin = .dotted) && (entries.lookup key).isNone then
      some (entries.set key (.value value))
    else none
  | key :: rest, entries => do
    match entries.lookup key with
    | none =>
      let inner ← insertDotted .dotted false value rest []
      return entries.set key (.table .dotted inner)
    | some (.value _) => none
    | some (.tables elements) =>
      let elements ← changeLast (insertDotted .header false value rest) elements
      return entries.set key (.tables elements)
    | some (.table .header _) => none
    | some (.table origin inner) =>
      let inner ← insertDotted origin false value rest inner
      return entries.set key (.table origin inner)

/-- Changes the table at the end of a path, and opens those on the way. -/
def alongPath (change : String → Entries → Option Entries) :
    List String → Entries → Option Entries
  | [], _ => none
  | [key], entries => change key entries
  | key :: rest, entries => do
    match entries.lookup key with
    | none =>
      let inner ← alongPath change rest []
      return entries.set key (.table .implied inner)
    | some (.value _) => none
    | some (.tables elements) =>
      let elements ← changeLast (alongPath change rest) elements
      return entries.set key (.tables elements)
    | some (.table origin inner) =>
      let inner ← alongPath change rest inner
      return entries.set key (.table origin inner)

def openTable (key : String) (entries : Entries) : Option Entries :=
  match entries.lookup key with
  | none => some (entries.set key (.table .header []))
  | some (.table .implied inner) => some (entries.set key (.table .header inner))
  | some _ => none

def addTable (key : String) (entries : Entries) : Option Entries :=
  match entries.lookup key with
  | none => some (entries.set key (.tables [[]]))
  | some (.tables elements) => some (entries.set key (.tables (elements ++ [[]])))
  | some _ => none

/-- Sets a key of the table that the last header opened. -/
def insertUnder (header path : List String) (value : Value) (root : Entries) : Option Entries :=
  match header with
  | [] => insertDotted .header true value path root
  | header =>
    alongPath (fun key entries => do
      match entries.lookup key with
      | some (.table origin inner) =>
        let inner ← insertDotted .header true value path inner
        return entries.set key (.table origin inner)
      | some (.tables elements) =>
        let elements ← changeLast (insertDotted .header true value path) elements
        return entries.set key (.tables elements)
      | _ => none) header root

mutual

def Item.toValue : Item → Value
  | .value value => value
  | .table _ entries => .table (entriesToValues entries)
  | .tables elements => .array (tablesToValues elements)

def entriesToValues : List (String × Item) → List (String × Value)
  | [] => []
  | (key, item) :: rest => (key, item.toValue) :: entriesToValues rest

def tablesToValues : List (List (String × Item)) → List Value
  | [] => []
  | entries :: rest => .table (entriesToValues entries) :: tablesToValues rest

end

/-- How many parts a dotted key may have at most, and how many values may nest. -/
def depthLimit : Nat := 79

def isBareKeyCharacter (c : Char) : Bool :=
  Text.isAsciiDigit c || ('A' ≤ c && c ≤ 'Z') || ('a' ≤ c && c ≤ 'z') || c = '_' || c = '-'

def keyPart : Reader String := do
  skipBlanks
  let part ← quoted <|> raw <|> String.ofList <$> Reader.span1 isBareKeyCharacter
  skipBlanks
  return part

/-- A dotted key. The number bounds its parts. -/
def keyWithin : Nat → Reader (List String)
  | 0 => failure
  | parts + 1 => do
    let first ← keyPart
    if (← Reader.optional (Reader.literal ".")).isSome then
      return first :: (← keyWithin parts)
    else return [first]

def key : Reader (List String) := keyWithin depthLimit

/-- The items of an array after its opening bracket. The number bounds them. -/
def arrayItems (value : Reader Value) : Nat → Reader (List Value)
  | 0 => failure
  | items + 1 => do
    skipLines
    if (← Reader.optional (Reader.literal "]")).isSome then return []
    let first ← value
    skipLines
    if (← Reader.optional (Reader.literal ",")).isSome then
      return first :: (← arrayItems value items)
    else
      Reader.literal "]"
      return [first]

/-- The members of a table in braces, of which there is one at least. -/
def inlineMembers (value : Reader Value) (known : Entries) : Nat → Reader Entries
  | 0 => failure
  | members + 1 => do
    let path ← key
    Reader.literal "="
    skipBlanks
    let found ← value
    skipBlanks
    let some known := insertDotted .header true found path known | failure
    if (← Reader.optional (Reader.literal ",")).isSome then inlineMembers value known members
    else
      Reader.literal "\x7d"
      return known

def simpleValue : Reader Value := do
  match ← Reader.peek with
  | some '"' | some '\'' => return .string (← string)
  | some 't' => Reader.literal "true"; return .bool true
  | some 'f' => Reader.literal "false"; return .bool false
  | _ => (do dateTime; return .date) <|> (do float; return .float) <|> .integer <$> integer

/-- A value with at most a number of containers inside one another. -/
def value : Nat → Reader Value
  | 0 => simpleValue
  | depth + 1 => do
    match ← Reader.peek with
    | some '[' =>
      Reader.literal "["
      return .array (← arrayItems (value depth) ((← get).length + 1))
    | some '{' =>
      Reader.literal "\x7b"
      skipBlanks
      if (← Reader.optional (Reader.literal "\x7d")).isSome then return .table []
      else
        let members ← inlineMembers (value depth) [] ((← get).length + 1)
        return .table (entriesToValues members)
    | _ => simpleValue

/-- What has been read: all tables, and the last header. -/
structure Progress where
  root : Entries := []
  header : List String := []

/-- One line that is not blank. -/
def line (progress : Progress) : Reader Progress := do
  if (← Reader.optional (Reader.literal "[[")).isSome then
    let header ← key
    Reader.literal "]]"
    endOfLine
    let some root := alongPath addTable header progress.root | failure
    return { root, header }
  else if (← Reader.optional (Reader.literal "[")).isSome then
    let header ← key
    Reader.literal "]"
    endOfLine
    let some root := alongPath openTable header progress.root | failure
    return { root, header }
  else
    let path ← key
    Reader.literal "="
    skipBlanks
    let found ← value depthLimit
    endOfLine
    let some root := insertUnder progress.header path found progress.root | failure
    return { progress with root }

/-- All lines of a text. The number bounds them. -/
def lines (progress : Progress) : Nat → Reader Progress
  | 0 => failure
  | bound + 1 => do
    skipLines
    if ← Reader.atEnd then return progress
    else lines (← line progress) bound

/-- The entries of a document, which may start with a byte order mark. -/
def ofText (text : String) : Option (List (String × Value)) := do
  let text := match text.toList with
    | '\uFEFF' :: rest => rest
    | text => text
  let (progress, _) ← (lines {} (text.length + 1)).run text
  return entriesToValues progress.root

end Pagewright.Toml
