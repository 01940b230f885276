import Pagewright.Site.Build
import Pagewright.Toml.Document

/-! The settings of a project. All paths in a settings file are read from the directory the file
lies in. A section may be a table, or an array that gives its settings in order. -/

namespace Pagewright

open Files

structure ProjectSettings where
  routes : String := "routes"
  output : String := "build"
  static : String := "static"
  scripts : String := "scripts"
  placeholder : String := Expansion.Placeholder.standardName
deriving DecidableEq

structure ServerSettings where
  port : Nat := 36969
  host : String := "127.0.0.1"
  opensBrowser : Bool := true
  app : Option String := none
deriving DecidableEq

structure Config where
  project : ProjectSettings := {}
  server : ServerSettings := {}
deriving DecidableEq

inductive ConfigError where
  | unreadable (path : Path) (cause : FileError)
  | malformed (path : Path)
deriving DecidableEq

def ConfigError.message : ConfigError → String
  | .unreadable path cause => "Failed to read " ++ path.text ++ ": " ++ cause.message
  | .malformed path => "Failed to parse " ++ path.text

/-- A setting of a section, by name in a table and by position in an array. -/
def setting? (found : Toml.Value) (position : Nat) (name : String) : Option Toml.Value :=
  match found with
  | .table entries => entries.lookup name
  | .array items => items[position]?
  | _ => none

def textOr (fallback : String) : Option Toml.Value → Option String
  | none => some fallback
  | some (.string text) => some text
  | some _ => none

def boolOr (fallback : Bool) : Option Toml.Value → Option Bool
  | none => some fallback
  | some (.bool value) => some value
  | some _ => none

def portOr (fallback : Nat) : Option Toml.Value → Option Nat
  | none => some fallback
  | some (.integer value) =>
    if 0 ≤ value ∧ value < 65536 then some value.toNat else none
  | some _ => none

/-- A date counts as a table that has none of the settings. -/
def isSection : Toml.Value → Bool
  | .table _ | .array _ | .date => true
  | _ => false

def ProjectSettings.ofValue? (found : Toml.Value) : Option ProjectSettings := do
  guard (isSection found)
  let standard : ProjectSettings := {}
  let routes ← textOr standard.routes (setting? found 0 "routes")
  let output ← textOr standard.output (setting? found 1 "output")
  let static ← textOr standard.static (setting? found 2 "static_dir")
  let scripts ← textOr standard.scripts (setting? found 3 "scripts")
  let placeholder ← textOr standard.placeholder (setting? found 4 "placeholder")
  return { routes, output, static, scripts, placeholder }

/-- The directory of the editor has no default, so an array may not leave it out. -/
def ServerSettings.app? (found : Toml.Value) : Option (Option String) :=
  match setting? found 3 "app_dir", found with
  | some (.string text), _ => some (some text)
  | none, .table _ | none, .date => some none
  | _, _ => none

def ServerSettings.ofValue? (found : Toml.Value) : Option ServerSettings := do
  guard (isSection found)
  let standard : ServerSettings := {}
  let port ← portOr standard.port (setting? found 0 "port")
  let host ← textOr standard.host (setting? found 1 "host")
  let opensBrowser ← boolOr standard.opensBrowser (setting? found 2 "open")
  let app ← ServerSettings.app? found
  return { port, host, opensBrowser, app }

namespace Config

def ofText? (text : String) : Option Config := do
  let entries ← Toml.ofText text
  let project ← match entries.lookup "project" with
    | none => some {}
    | some found => ProjectSettings.ofValue? found
  let server ← match entries.lookup "server" with
    | none => some {}
    | some found => ServerSettings.ofValue? found
  return { project, server }

/-- The settings in a file, or the defaults where there is none. -/
def load (disk : Disk) (path : Path) : Except ConfigError Config :=
  if disk.contains path then
    match disk.readText path with
    | .error cause => .error (.unreadable path cause)
    | .ok text =>
      match ofText? text with
      | none => .error (.malformed path)
      | some config => .ok config
  else .ok {}

def buildConfig (config : Config) (directory : Path) : Site.BuildConfig where
  routes := directory.join ⟨config.project.routes⟩
  output := directory.join ⟨config.project.output⟩
  static := directory.join ⟨config.project.static⟩
  scripts := directory.join ⟨config.project.scripts⟩
  placeholder := config.project.placeholder

end Config

/-- The directory that a settings file lies in. -/
def projectDirectory (settings : Path) : Path :=
  match settings.parent? with
  | some parent => if parent.isEmpty then ⟨"."⟩ else parent
  | none => ⟨"."⟩

/-- The arguments of a build that is started in the project directory. -/
def rebuildArguments (settings : Path) : List String :=
  ["--config", settings.fileName?.getD "cwrap.toml", "build"]

end Pagewright
