import Pagewright.Files.Disk
import Pagewright.Skeleton.Decode

/-! Routes: the directories of a site, the routes directory itself included. A route has its
page in a file of a fixed name, and lies as deep as its path has names. -/

namespace Pagewright.Site

open Files

def skeletonName : String := "skeleton.json"

structure Route where
  source : Path
  names : List String
deriving DecidableEq

namespace Route

def depth (route : Route) : Nat := route.names.length

/-- The path of a route as it stands in an address. -/
def url (route : Route) : String := "/".intercalate route.names

def output (route : Route) (root : Path) : Path := root.join ⟨route.url⟩

end Route

/-- The path of an entry below a directory. -/
def pathBelow (root : Path) (names : List String) : Path :=
  names.foldl (fun path name => path.join ⟨name⟩) root

/-- All routes at and below a directory, parents before their children and siblings by name. What
a directory holds is not found where its path is too long to be read. -/
def routes (disk : Disk) (root : Path) : List Route :=
  match disk.directory? root with
  | none => []
  | some location =>
    let directories := (disk.tree.below location).filterMap fun (names, entry) =>
      match entry with
      | .directory =>
        if disk.isDirectory (pathBelow root names.dropLast) then some names else none
      | .file _ => none
    ([] :: directories).map fun names => { source := pathBelow root names, names }

inductive SkeletonError where
  | missing (path : Path)
  | unreadable (path : Path) (cause : FileError)
  | malformed (path : Path) (fault : Json.Fault)
deriving DecidableEq

def SkeletonError.message : SkeletonError → String
  | .missing path => "Could not open " ++ path.text ++ ": skeleton not found"
  | .unreadable path cause => "Failed to read " ++ path.text ++ ": " ++ cause.message
  | .malformed path _ => "Malformed JSON in " ++ path.text

def loadPage (disk : Disk) (source : Path) : Except SkeletonError Skeleton.Page :=
  let path := source.join ⟨skeletonName⟩
  if !disk.isFile path then .error (.missing path)
  else
    match disk.readText path with
    | .error cause => .error (.unreadable path cause)
    | .ok text =>
      match Skeleton.Page.ofText text with
      | .error fault => .error (.malformed path fault)
      | .ok page => .ok page

end Pagewright.Site
