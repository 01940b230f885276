import Pagewright.Markup.Page
import Pagewright.Site.Assets

/-! Building a site. Problems with the routes directory or the output directory end a build; a
route that fails is recorded and leaves the others alone, and assets that cannot be copied are
left out. -/

namespace Pagewright.Site

open Files Expansion
open Markup (Documents)
open Style (CompileError)

structure BuildConfig where
  routes : Path := ⟨"routes"⟩
  output : Path := ⟨"build"⟩
  static : Path := ⟨"static"⟩
  scripts : Path := ⟨"scripts"⟩
  placeholder : String := Placeholder.standardName
deriving DecidableEq

inductive BuildError where
  | noRoutes (path : Path)
  | skeleton (error : SkeletonError)
  | template (source : Path) (error : CompileError)
  | write (path : Path) (cause : FileError)
  | emptyPlaceholder
deriving DecidableEq

def BuildError.message : BuildError → String
  | .noRoutes path => "Failed to read: Routes directory not found: " ++ path.text
  | .skeleton error => error.message
  | .template source error => "Failed to compile " ++ source.text ++ ": " ++ error.message
  | .write path cause => "Failed to write " ++ path.text ++ ": " ++ cause.message
  | .emptyPlaceholder => "Invalid configuration: " ++ Placeholder.emptyMessage

def markupName : String := "index.html"

def stylesName : String := "styles.css"

def writeDocument (path : Path) (text : String) : OnDisk BuildError Unit :=
  (writeText path text).withError (.write path)

/-- The documents of the page in a directory. -/
def compilePage (placeholder : Placeholder) (disk : Disk) (source : Path) (depth : Nat) :
    Except BuildError Documents := do
  let page ← (loadPage disk source).mapError .skeleton
  (Markup.compile placeholder depth page).mapError (.template source)

/-- Compiles the page in a directory and writes its documents into another one. Nothing is
written before everything is compiled. -/
def compileRoute (placeholder : Placeholder) (source output : Path) (depth : Nat) :
    OnDisk BuildError Documents := do
  let disk ← get
  let documents ← compilePage placeholder disk source depth
  unless disk.contains output do (makeDirectories output).withError (.write output)
  writeDocument (output.join ⟨markupName⟩) documents.html
  writeDocument (output.join ⟨stylesName⟩) documents.css
  return documents

inductive Outcome where
  | compiled
  | skipped
  | failed (error : BuildError)
deriving DecidableEq

def Outcome.of : Except BuildError Documents → Outcome
  | .ok _ => .compiled
  | .error (.skeleton (.missing _)) => .skipped
  | .error error => .failed error

def Outcome.isFailure : Outcome → Bool
  | .failed _ => true
  | _ => false

structure Report where
  outcomes : List (Route × Outcome)
  output : Path

namespace Report

def count (report : Report) (p : Outcome → Bool) : Nat :=
  report.outcomes.countP fun (_, outcome) => p outcome

def compiled (report : Report) : Nat := report.count (· = .compiled)

def skipped (report : Report) : Nat := report.count (· = .skipped)

def failed (report : Report) : Nat := report.count Outcome.isFailure

def hasFailures (report : Report) : Bool := 0 < report.failed

end Report

/-- Steps of which it does not matter whether they end in an error. -/
def attempt (steps : OnDisk ε α) : StateM Disk (Except ε α) := steps.run

def copyAssets (config : BuildConfig) (arrange : Arrangement) : StateM Disk Unit := do
  if (← get).isDirectory config.static then
    let _ ← attempt (copyDirectory config.static (config.output.join ⟨"static"⟩) arrange)
  let _ ← attempt (copyFavicon config.static config.output)
  let _ ← attempt (placeClientScript config.scripts config.output)

def buildRoute (placeholder : Placeholder) (output : Path) (route : Route) :
    StateM Disk (Route × Outcome) := do
  let result ← attempt (compileRoute placeholder route.source (route.output output) route.depth)
  return (route, .of result)

def build (config : BuildConfig) (arrange : Arrangement := .byName) : OnDisk BuildError Report := do
  let some placeholder := Placeholder.ofString? config.placeholder | throw .emptyPlaceholder
  if !(← get).isDirectory config.routes then throw (.noRoutes config.routes)
  (makeDirectories config.output).withError (.write config.output)
  copyAssets config arrange
  let outcomes ← (routes (← get) config.routes).mapM fun route =>
    (buildRoute placeholder config.output route : StateM Disk _)
  return { outcomes, output := config.output }

end Pagewright.Site
