import Pagewright.Site.ClientScript
import Pagewright.Site.Route

/-! Files that go to the output beside the compiled routes: the static files as they are, the
icon of the site, and the client script. -/

namespace Pagewright.Site

open Files

/-- Why a directory could not be copied: it could not be walked, or a step of the copy failed. -/
inductive CopyError where
  | walk (path : Path) (cause : FileError)
  | step (cause : FileError)
deriving DecidableEq

def CopyError.message : CopyError → String
  | .walk path cause => "IO error for operation on " ++ path.text ++ ": " ++ cause.message
  | .step cause => cause.message

/-- What a walk learns of an entry when it reads the directory that holds it. -/
structure Item where
  name : String
  isFile : Bool
deriving DecidableEq

/-- The entries of a directory. -/
def itemsIn (disk : Disk) (path : Path) : Except FileError (List Item) :=
  match disk.find path with
  | .error cause => .error cause
  | .ok (_, .file _) => .error .notDirectory
  | .ok (location, .directory) =>
    .ok ((disk.tree.below location).filterMap fun (names, entry) =>
      match names with
      | [name] => some { name, isFile := entry.isFile }
      | _ => none)

/-- The order in which a walk takes the entries of the directory that some names lead to. Any order may
come, but no entry is left out and none is taken twice. -/
structure Arrangement where
  order : List String → List Item → List Item
  perm : ∀ names items, (order names items).Perm items

/-- The entries as a listing has them. -/
def Arrangement.byName : Arrangement := ⟨fun _ items => items, fun _ _ => .refl _⟩

/-- Copies what is at a path, and gives the number of files. A directory is listed after its
copy has been made, so a copy that lies inside the source is copied again until a path becomes
too long; every level makes paths longer, which bounds the depth. -/
def copyWithin (arrange : Arrangement) (source destination : Path) :
    Nat → List String → Bool → OnDisk CopyError Nat
  | 0, _, _ => return 0
  | depth + 1, names, isFile => do
    let path := pathBelow source names
    let target := destination.join ⟨"/".intercalate names⟩
    if isFile then
      (copyFile path target).withError .step
      return 1
    else
      (makeDirectories target).withError .step
      let items ← (look (itemsIn · path)).withError (.walk path)
      let counts ← (arrange.order names items).mapM fun item =>
        copyWithin arrange source destination depth (names ++ [item.name]) item.isFile
      return counts.foldr (· + ·) 0

/-- Mirrors a directory into another place. -/
def copyDirectory (source destination : Path) (arrange : Arrangement := .byName) : OnDisk CopyError Nat := do
  let (_, entry) ← (look (·.find source)).withError (.walk source)
  copyWithin arrange source destination longestPath [] entry.isFile

/-- Copies the icon to the output root, where the static files have one. -/
def copyFavicon (static output : Path) : OnDisk FileError Bool := do
  let source := (static.join ⟨"favicon"⟩).join ⟨"favicon.ico"⟩
  if !(← get).isFile source then return false
  else
    copyFile source (output.join ⟨"favicon.ico"⟩)
    return true

/-- Puts the client script into the output, and tells whether it is the site's own. -/
def placeClientScript (scripts output : Path) : OnDisk FileError Bool := do
  let directory := output.join ⟨"scripts"⟩
  makeDirectories directory
  let target := directory.join ⟨clientScriptName⟩
  let source := scripts.join ⟨clientScriptName⟩
  if (← get).isFile source then
    copyFile source target
    return true
  else
    writeText target clientScript
    return false

end Pagewright.Site
