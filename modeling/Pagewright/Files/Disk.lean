import Pagewright.Files.Tree
import Pagewright.Path

/-! Files as a program reaches them, by paths from the directory it works in. Each operation
either does all it is for or is an error that leaves the files alone; what is done in several
steps keeps the steps before the one that fails. -/

namespace Pagewright.Files

inductive FileError where
  | notFound
  | permissionDenied
  | alreadyExists
  | notDirectory
  | isDirectory
  | nameTooLong
  | nulByte
  | notText
deriving DecidableEq

def FileError.message : FileError → String
  | .notFound => "No such file or directory (os error 2)"
  | .permissionDenied => "Permission denied (os error 13)"
  | .alreadyExists => "File exists (os error 17)"
  | .notDirectory => "Not a directory (os error 20)"
  | .isDirectory => "Is a directory (os error 21)"
  | .nameTooLong => "File name too long (os error 36)"
  | .nulByte => "file name contained an unexpected NUL byte"
  | .notText => "stream did not contain valid UTF-8"

/-- The files, and the location from which paths lead that are not absolute. -/
structure Disk where
  tree : FileTree
  directory : Location

/-- Where a path leads: to a directory by dots or a slash alone, or to a name in a directory,
which need not be there. -/
inductive Target where
  | directory (location : Location)
  | entry (parent : Location) (name : String)
deriving DecidableEq

def longestPath : Nat := 4095

/-- Follows names from a directory. All names but the last have to be directories. -/
def follow (tree : FileTree) : Location → List String → Except FileError Target
  | here, [] => .ok (.directory here)
  | here, "." :: rest => follow tree here rest
  | here, ".." :: rest => follow tree here.dropLast rest
  | here, name :: rest =>
    if longestName < name.utf8ByteSize then .error .nameTooLong
    else if rest.isEmpty then .ok (.entry here name)
    else
      match tree.at? (here ++ [name]) with
      | none => .error .notFound
      | some (.file _) => .error .notDirectory
      | some .directory => follow tree (here ++ [name]) rest

namespace Disk

def target (disk : Disk) (path : Path) : Except FileError Target :=
  if path.text.toList.contains '\x00' then .error .nulByte
  else if path.isEmpty then .error .notFound
  else if longestPath < path.text.utf8ByteSize then .error .nameTooLong
  else
    follow disk.tree (if path.isAbsolute then [] else disk.directory)
      (path.pieces.filter fun piece => piece ≠ "")

/-- The location of what a path leads to, and what is there. -/
def find (disk : Disk) (path : Path) : Except FileError (Location × Entry) := do
  match ← disk.target path with
  | .directory location =>
    match disk.tree.at? location with
    | some entry => return (location, entry)
    | none => .error .notFound
  | .entry parent name =>
    match disk.tree.at? (parent ++ [name]) with
    | none => .error .notFound
    | some (.file content) =>
      if path.endsInSlash then .error .notDirectory
      else return (parent ++ [name], .file content)
    | some .directory => return (parent ++ [name], .directory)

def contains (disk : Disk) (path : Path) : Bool := (disk.find path).isOk

def isFile (disk : Disk) (path : Path) : Bool :=
  match disk.find path with
  | .ok (_, .file _) => true
  | _ => false

/-- The location of a directory. -/
def directory? (disk : Disk) (path : Path) : Option Location :=
  match disk.find path with
  | .ok (location, .directory) => some location
  | _ => none

def isDirectory (disk : Disk) (path : Path) : Bool := (disk.directory? path).isSome

def read (disk : Disk) (path : Path) : Except FileError ByteArray := do
  match ← disk.find path with
  | (_, .file content) => return content
  | (_, .directory) => .error .isDirectory

def readText (disk : Disk) (path : Path) : Except FileError String := do
  match String.fromUTF8? (← disk.read path) with
  | some text => return text
  | none => .error .notText

/-- Writes a file that is there, or makes it in a directory that is there. -/
def write (disk : Disk) (path : Path) (content : ByteArray) : Except FileError Disk := do
  match ← disk.target path with
  | .directory _ => .error .isDirectory
  | .entry parent name =>
    if path.endsInSlash then .error .isDirectory
    else
      match disk.tree.at? (parent ++ [name]) with
      | some .directory => .error .isDirectory
      | _ => return { disk with tree := disk.tree.put parent name (.file content) }

def makeDirectory (disk : Disk) (path : Path) : Except FileError Disk := do
  match ← disk.target path with
  | .directory _ => .error .alreadyExists
  | .entry parent name =>
    match disk.tree.at? (parent ++ [name]) with
    | some _ => .error .alreadyExists
    | none => return { disk with tree := disk.tree.put parent name .directory }

/-- Removes a file, or a directory with all it holds. -/
def remove (disk : Disk) (path : Path) : Except FileError Disk := do
  let (location, _) ← disk.find path
  return { disk with tree := disk.tree.remove location }

/-- An empty directory to work in, with only its parents around it. -/
def emptyAt (location : Location) : Disk where
  tree := FileTree.empty.putDirectories [] location
  directory := location

end Disk

/-- A series of steps on a disk, which may end in an error. -/
abbrev OnDisk (ε : Type) := ExceptT ε (StateM Disk)

/-- One step: a new disk, or an error and the disk as it was. -/
def change (step : Disk → Except FileError Disk) : OnDisk FileError Unit := do
  match step (← get) with
  | .ok disk => set disk
  | .error error => throw error

def look (f : Disk → Except FileError α) : OnDisk FileError α := do
  match f (← get) with
  | .ok found => return found
  | .error error => throw error

/-- The same steps with errors of another kind. -/
def OnDisk.withError (f : ε → ε') (steps : OnDisk ε α) : OnDisk ε' α :=
  ExceptT.mk ((Except.mapError f) <$> steps.run)

def writeFile (path : Path) (content : ByteArray) : OnDisk FileError Unit :=
  change (·.write path content)

def writeText (path : Path) (text : String) : OnDisk FileError Unit :=
  writeFile path text.toUTF8

/-- Makes a directory, and its parents as far as they are missing. -/
def makeDirectoriesOf : List Path → OnDisk FileError Unit
  | [] => return ()
  | path :: parents => do
    if path.isEmpty then return ()
    match (← get).makeDirectory path with
    | .ok disk => set disk
    | .error .notFound =>
      makeDirectoriesOf parents
      let disk ← get
      match disk.makeDirectory path with
      | .ok disk => set disk
      | .error error => unless disk.isDirectory path do throw error
    | .error error => unless (← get).isDirectory path do throw error

def makeDirectories (path : Path) : OnDisk FileError Unit := makeDirectoriesOf path.ancestors

/-- Copies a file. The destination is emptied before the source is read. -/
def copyFile (source destination : Path) : OnDisk FileError Unit := do
  let _ ← look (·.read source)
  writeFile destination .empty
  let content ← look (·.read source)
  writeFile destination content

end Pagewright.Files
