import Pagewright.Command.Run

/-! The command line. A command runs on what the working directory holds, and the machine is then
given what has changed. A task that goes on as a server ends where it would start to listen. -/

namespace Pagewright.Command

open Files

/-- What a tree no longer holds, or holds as another kind of entry. -/
def gone (before after : FileTree) : List (Location × Entry) :=
  (before.below []).filter fun (location, _) =>
    after.at? location = none ∨ after.isDirectory location ≠ before.isDirectory location

/-- What a tree holds anew or with other content. -/
def fresh (before after : FileTree) : List (Location × Entry) :=
  (after.below []).filter fun (location, entry) => before.at? location ≠ some entry

def locationOfText (text : String) : Location := (Path.mk text).pieces.filter (· ≠ "")

def machinePath (location : Location) : String := "/" ++ "/".intercalate location

/-- Adds an entry of the machine to a directory of a tree, with all it holds. -/
partial def gather (tree : FileTree) (parent : Location) (entry : IO.FS.DirEntry) :
    IO FileTree := do
  if ← entry.path.isDir then
    (← entry.path.readDir).foldlM (gather · (parent ++ [entry.fileName]))
      (tree.put parent entry.fileName .directory)
  else
    return tree.put parent entry.fileName (.file (← IO.FS.readBinFile entry.path))

/-- Takes from the machine what is gone, the innermost first, and gives it what is fresh. -/
def store (before after : FileTree) : IO Unit := do
  for (location, entry) in (gone before after).reverse do
    match entry with
    | .directory => IO.FS.removeDir (machinePath location)
    | .file _ => IO.FS.removeFile (machinePath location)
  for (location, entry) in fresh before after do
    match entry with
    | .directory => IO.FS.createDirAll (machinePath location)
    | .file content => IO.FS.writeBinFile (machinePath location) content

end Pagewright.Command

open Pagewright Files Command in
def main (arguments : List String) : IO UInt32 := do
  let here ← IO.currentDir
  let start := Disk.emptyAt (locationOfText here.toString)
  let tree ← (← here.readDir).foldlM (gather · start.directory) start.tree
  let (shown, disk) := (run arguments).run { start with tree := tree }
  store tree disk.tree
  if let some summary := shown.summary then IO.println summary
  unless shown.error.isEmpty do IO.eprintln shown.error
  return UInt32.ofNat shown.code
