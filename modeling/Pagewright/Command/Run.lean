import Pagewright.Command.Address
import Pagewright.Command.Arguments
import Pagewright.Command.Scaffold
import Pagewright.Command.Surroundings

/-! Running a command. A task ends when it is done, fails with a message, or goes on as a server
that listens on an address. -/

namespace Pagewright.Command

open Files

inductive TaskError where
  | settings (error : ConfigError)
  | build (error : Site.BuildError)
  | failedRoutes (count : Nat)
  | scaffold (message : String)
  | badAddress (text : String)
  | bind (address : Address) (cause : String)
  | listen (cause : String)
  | noOutput (directory : Path)

def TaskError.message : TaskError → String
  | .settings error => error.message
  | .build error => error.message
  | .failedRoutes count => Address.decimal count ++ " route(s) failed to compile"
  | .scaffold message => message
  | .badAddress text => "Invalid address " ++ text ++ ": invalid socket address syntax"
  | .bind address cause => "Failed to bind to " ++ address.text ++ ": " ++ cause
  | .listen cause => cause
  | .noOutput directory =>
    "Directory not found: " ++ directory.text ++ ". Run 'cwrap build' first."

/-- Why a server cannot listen on an address: the port is reserved, or the address belongs to
another machine. -/
def bindFailure? (address : Address) : Option String :=
  if 0 < address.port ∧ address.port < 1024 then some FileError.permissionDenied.message
  else if address.isLocal then none
  else some "Cannot assign requested address (os error 99)"

/-- How a task ends where it does not fail. -/
inductive Ending where
  | done
  | built (report : Site.Report)
  | listening (address : Address)

def loadConfig (settings : Path) : OnDisk TaskError Config := do
  match Config.load (← get) settings with
  | .ok config => return config
  | .error error => throw (.settings error)

def buildTask (around : Surroundings) (settings : Path) (output : Option Path) :
    OnDisk TaskError Site.Report := do
  let config := (← loadConfig settings).buildConfig (projectDirectory settings)
  (Site.build { config with output := output.getD config.output } around.arrange).withError .build

def developTask (around : Surroundings) (settings : Path) (port : Option Nat) (opens : Bool) :
    OnDisk TaskError Address := do
  let server := (← loadConfig settings).server
  let text := server.host ++ ":" ++ Address.decimal (port.getD server.port)
  match Address.ofText? text with
  | none => throw (.badAddress text)
  | some address =>
    if opens && server.opensBrowser then
      let _ ← (around.opens ("http://" ++ address.text) : StateM Disk Bool)
    match bindFailure? address with
    | some cause => throw (.bind address cause)
    | none => return address

def serveTask (around : Surroundings) (settings : Path) (port : Nat) (directory : Option Path) :
    OnDisk TaskError Address := do
  let directory ← match directory with
    | some directory => pure directory
    | none =>
      let config ← loadConfig settings
      pure ((projectDirectory settings).join ⟨config.project.output⟩)
  unless (← get).contains directory do throw (.noOutput directory)
  let address := Address.four [127, 0, 0, 1] port
  match bindFailure? address with
  | some cause => throw (.listen cause)
  | none =>
    let _ ← (around.opens ("http://" ++ address.text) : StateM Disk Bool)
    return address

def runTask (around : Surroundings) (settings : Path) : Task → OnDisk TaskError Ending
  | .initialise overwrite => do
    (scaffold settings overwrite).withError .scaffold
    return .done
  | .build output => return .built (← buildTask around settings output)
  | .develop port opens => return .listening (← developTask around settings port opens)
  | .serve port directory => return .listening (← serveTask around settings port directory)

def failureLine (error : TaskError) : String :=
  String.ofList (("Error: " ++ error.message).toList.takeWhile (· ≠ '\n'))

def summaryOf (report : Site.Report) : String :=
  "Compiled " ++ Address.decimal report.compiled ++ " routes (" ++
    Address.decimal report.skipped ++ " skipped, " ++ Address.decimal report.failed ++ " failed)"

/-- A build with failed routes is finished and still a failure. -/
def shown : Except TaskError Ending → Shown
  | .error error => { code := 1, error := failureLine error }
  | .ok (.built report) =>
    if report.hasFailures then
      { code := 1, error := failureLine (.failedRoutes report.failed), summary := summaryOf report }
    else { code := 0, summary := summaryOf report }
  | .ok _ => { code := 0 }

def run (arguments : List String) (around : Surroundings := {}) : StateM Disk Shown :=
  match readArguments arguments with
  | .shown => return { code := 0 }
  | .refused => return { code := 2 }
  | .run settings task => do return shown (← (runTask around settings task).run)

end Pagewright.Command
