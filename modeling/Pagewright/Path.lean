/-! Paths as texts. Joining keeps the text of both sides; a path is taken apart into components,
where repeated slashes and single dots that do not lead are nothing. -/

namespace Pagewright

def splitSlash : List Char → List (List Char)
  | [] => [[]]
  | c :: rest =>
    if c = '/' then [] :: splitSlash rest
    else
      match splitSlash rest with
      | [] => [[c]]
      | first :: others => (c :: first) :: others

structure Path where
  text : String
deriving DecidableEq

instance : Inhabited Path := ⟨⟨""⟩⟩

/-- What a path starts with. -/
inductive Lead where
  | nothing
  | current
  | root
deriving DecidableEq

inductive Component where
  | root
  | current
  | parent
  | name (text : String)
deriving DecidableEq

namespace Path

def isEmpty (path : Path) : Bool := path.text.isEmpty

/-- The texts between slashes. -/
def pieces (path : Path) : List String := (splitSlash path.text.toList).map String.ofList

def ofPieces (pieces : List String) : Path := ⟨"/".intercalate pieces⟩

def isAbsolute (path : Path) : Bool := path.text.toList.head? = some '/'

def endsInSlash (path : Path) : Bool := path.text.toList.getLast? = some '/'

/-- The right side under the left one, or alone where it is absolute. -/
def join (base path : Path) : Path :=
  if path.isAbsolute then path
  else if base.isEmpty || base.endsInSlash then ⟨base.text ++ path.text⟩
  else ⟨base.text ++ "/" ++ path.text⟩

/-- The lead of a path and the pieces behind it. -/
def split (path : Path) : Lead × List String :=
  match path.pieces with
  | "" :: piece :: rest => (.root, piece :: rest)
  | "." :: rest => (.current, rest)
  | pieces => (.nothing, pieces)

def ofSplit : Lead → List String → Path
  | .root, pieces => ofPieces ("" :: (if pieces.isEmpty then [""] else pieces))
  | .current, pieces => ofPieces ("." :: pieces)
  | .nothing, pieces => ofPieces pieces

/-- A piece that names nothing. -/
def isVoid (piece : String) : Bool := piece = "" || piece = "."

def pieceComponent? (piece : String) : Option Component :=
  if isVoid piece then none
  else if piece = ".." then some .parent
  else some (.name piece)

def Lead.component? : Lead → Option Component
  | .nothing => none
  | .current => some .current
  | .root => some .root

def components (path : Path) : List Component :=
  let (lead, pieces) := path.split
  (Lead.component? lead).toList ++ pieces.filterMap pieceComponent?

/-- Drops void pieces at the end. -/
def trimVoid (pieces : List String) : List String :=
  (pieces.reverse.dropWhile isVoid).reverse

/-- The path without its last component. -/
def parent? (path : Path) : Option Path :=
  let (lead, pieces) := path.split
  match lead, trimVoid pieces with
  | .current, [] => some ⟨""⟩
  | _, [] => none
  | lead, pieces => some (ofSplit lead (trimVoid pieces.dropLast))

def fileName? (path : Path) : Option String :=
  match path.components.getLast? with
  | some (.name name) => some name
  | _ => none

/-- What follows the last dot of a name. A dot in front of the whole name does not count. -/
def extension? (path : Path) : Option String := do
  let name ← path.fileName?
  let reversed := name.toList.reverse
  let after := reversed.takeWhile (· ≠ '.')
  let before := (reversed.drop after.length).drop 1
  if before.isEmpty then none else some (String.ofList after.reverse)

/-- The path and all its parents, the longest first. -/
def ancestorsWithin : Nat → Path → List Path
  | 0, path => [path]
  | bound + 1, path =>
    match path.parent? with
    | none => [path]
    | some parent => path :: ancestorsWithin bound parent

/-- A parent has fewer components, so these bound the number of ancestors. -/
def ancestors (path : Path) : List Path := ancestorsWithin path.components.length path

/-- The components behind those of a base, if the path lies under the base. -/
def below? (path base : Path) : Option (List Component) :=
  if base.components.isPrefixOf path.components then
    some (path.components.drop base.components.length)
  else none

end Path

/-- The text of a component. -/
def Component.text : Component → String
  | .root => "/"
  | .current => "."
  | .parent => ".."
  | .name text => text

end Pagewright
