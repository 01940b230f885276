import Pagewright.Site.Assets

/-! What a command meets outside of itself and of the files it works on: the opener of the desktop, other
programs, and the order in which directories give their entries. -/

namespace Pagewright.Command

open Files

/-- What a run shows: its exit code, the message of a failure, and the numbers of a build. -/
structure Shown where
  code : Nat
  error : String := ""
  summary : Option String := none
deriving DecidableEq

/-- Why a program cannot be started where there are no programs: no file of a project is one, and a name
without a slash is looked for elsewhere. -/
def notStarted (disk : Disk) (program : Path) : FileError :=
  if !program.text.contains '/' then .notFound
  else
    match disk.find program with
    | .error cause => cause
    | .ok _ => .permissionDenied

structure Surroundings where
  /-- Opens a page or a folder for the user, and tells whether it could. -/
  opens : String → StateM Disk Bool := fun _ => return false
  /-- Runs another program with arguments to its end, unless it cannot be started. -/
  starts : Path → List String → StateM Disk (Except FileError Shown) := fun program _ =>
    return .error (notStarted (← get) program)
  arrange : Site.Arrangement := .byName

end Pagewright.Command
