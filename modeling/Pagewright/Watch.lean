import Pagewright.Site.Route

/-! Watching files. Creations and removals always count; a modification counts where the file is
a skeleton or of a kind that a page shows. Once an event has been sent, what follows at once is
taken for its echo. -/

namespace Pagewright.Watch

open Files

inductive ChangeKind where
  | create
  | remove
  | modify
  | access
  | unknown
deriving DecidableEq

inductive Event where
  | skeletonModified (path : Path)
  | assetModified (path : Path)
  | created (path : Path)
  | deleted (path : Path)
deriving DecidableEq

def Event.path : Event → Path
  | .skeletonModified path | .assetModified path | .created path | .deleted path => path

/-- The kinds of files that a page shows. -/
def shownExtensions : List String := ["html", "css", "js", "json", "ico"]

def classify (kind : ChangeKind) (path : Path) : Option Event :=
  match kind with
  | .create => some (.created path)
  | .remove => some (.deleted path)
  | .modify =>
    if path.fileName? = some Site.skeletonName then some (.skeletonModified path)
    else if (path.extension?.getD "") ∈ shownExtensions then some (.assetModified path)
    else none
  | .access | .unknown => none

/-- What a watcher is told: a kind of change and the paths it concerns, at a time in
milliseconds. -/
structure Notice where
  kind : ChangeKind
  paths : List Path
  time : Nat
deriving DecidableEq

/-- How long an echo lasts. -/
def quietPeriod : Nat := 100

/-- The events sent for some notices, after the last one was sent at a time. -/
def eventsAfter (last : Option Nat) : List Notice → List Event
  | [] => []
  | notice :: rest =>
    if last.any fun time => notice.time - time < quietPeriod then eventsAfter last rest
    else
      let events := notice.paths.filterMap (classify notice.kind)
      events ++ eventsAfter (if events.isEmpty then last else some notice.time) rest

def events (notices : List Notice) : List Event := eventsAfter none notices

/-- A change that someone makes to the files. -/
inductive Change where
  | write (path : Path) (content : ByteArray)
  | makeDirectory (path : Path)
  | remove (path : Path)
  | rename (path destination : Path)
  | read (path : Path)

/-- The locations on the way to one below a directory, the outermost first. -/
def locationsOnWay (here : Location) : Location → List Location
  | [] => []
  | name :: rest => (here ++ [name]) :: locationsOnWay (here ++ [name]) rest

/-- The parts of a way that are not there yet. -/
def missing (disk : Disk) (location : Location) : List Location :=
  (locationsOnWay [] location).filter fun part => (disk.tree.at? part).isNone

def locationOf? (disk : Disk) (path : Path) : Option Location :=
  match disk.target path with
  | .ok (.directory location) => some location
  | .ok (.entry parent name) => some (parent ++ [name])
  | .error _ => none

def moveEntries (tree : FileTree) (destination : Location) :
    List (Location × Entry) → FileTree
  | [] => tree
  | (names, entry) :: rest =>
    let location := destination ++ names
    moveEntries (tree.put location.dropLast (location.getLast?.getD "") entry) destination rest

/-- Moves an entry with all below it to a place that it replaces. -/
def move (tree : FileTree) (source destination : Location) : FileTree :=
  match tree.at? source with
  | none => tree
  | some entry =>
    let moved := ([], entry) :: tree.below source
    moveEntries ((tree.remove source).remove destination) destination moved

/-- Makes a change, and gives the kinds and locations that watchers hear of. -/
def Change.apply (disk : Disk) : Change → List (ChangeKind × Location) × Disk
  | .write path content =>
    let (result, after) := (do
      if let some parent := path.parent? then makeDirectories parent
      writeFile path content : OnDisk FileError Unit).run disk
    match result, locationOf? after path with
    | .ok _, some location =>
      let created := (missing disk location).map fun part => (ChangeKind.create, part)
      (created ++ [(.modify, location)], after)
    | _, _ => ([], after)
  | .makeDirectory path =>
    let (_, after) := (makeDirectories path : OnDisk FileError Unit).run disk
    match locationOf? after path with
    | some location => ((missing disk location).map fun part => (.create, part), after)
    | none => ([], after)
  | .remove path =>
    match disk.find path, disk.remove path with
    | .ok (location, _), .ok after => ([(.remove, location)], after)
    | _, _ => ([], disk)
  | .rename path destination =>
    match disk.find path, locationOf? disk destination with
    | .ok (source, _), some target =>
      ([(.modify, source), (.modify, target)],
        { disk with tree := move disk.tree source target })
    | _, _ => ([], disk)
  | .read path =>
    match disk.find path with
    | .ok (location, _) => ([(.access, location)], disk)
    | .error _ => ([], disk)

/-- Whether a location is watched: it is one of the watched ones or lies below it. -/
def isWatched (watched : List Location) (location : Location) : Bool :=
  watched.any fun base => base.isPrefixOf location

/-- A location as it is reported, from the working directory where it lies below that. -/
def reportedPath (disk : Disk) (location : Location) : Path :=
  if disk.directory.isPrefixOf location then
    ⟨"/".intercalate (location.drop disk.directory.length)⟩
  else ⟨"/" ++ "/".intercalate location⟩

/-- The notices of some changes, all made at one time. -/
def noticesOf (watched : List Location) (disk : Disk) : List Change → List Notice × Disk
  | [] => ([], disk)
  | change :: rest =>
    let (heard, after) := change.apply disk
    let notices := (heard.filter fun (_, location) => isWatched watched location).map
      fun (kind, location) => { kind, paths := [reportedPath disk location], time := 0 : Notice }
    let (later, final) := noticesOf watched after rest
    (notices ++ later, final)

/-- Watches paths, as far as they are there, while changes are made; gives the first event. -/
def firstEvent (paths : List Path) (changes : List Change) (disk : Disk) : Option Event × Disk :=
  let watched := paths.filterMap fun path =>
    match disk.find path with
    | .ok (location, _) => some location
    | .error _ => none
  let (notices, after) := noticesOf watched disk changes
  ((events notices).head?, after)

end Pagewright.Watch
