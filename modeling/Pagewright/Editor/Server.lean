import Pagewright.Command.Run
import Pagewright.Editor.Address
import Pagewright.Editor.Media
import Pagewright.LiveReload

/-! The server that a page is edited through. It saves what the editor sends, reads it back, runs
builds, opens folders, and serves the project's files; where there is no such file it serves the
editor itself, with the script that reloads the page. -/

namespace Pagewright.Editor

open Files
open Json (Value)

structure ServerConfig where
  project : Path := ⟨"."⟩
  routes : Path := ⟨"routes"⟩
  static : Path := ⟨"static"⟩
  output : Path := ⟨"build"⟩
  drafts : Path := ⟨"dist"⟩
  settings : Path := ⟨".cwrap"⟩
  /-- The directory of the editor's own page. -/
  app : Option Path := none
  /-- The program that builds, where that is another one than this. -/
  builder : Option Path := none
  buildArguments : List String := ["build"]
  around : Command.Surroundings := {}

structure Request where
  method : String
  target : String
  body : Option String := none
deriving DecidableEq

/-- Why a request could not be served. -/
inductive Failure where
  | file (cause : FileError)
  | json (fault : Json.Fault)
  | opener
  | route (subPath : String)
deriving DecidableEq

def Failure.message : Failure → String
  | .file cause => cause.message
  | .json .ended => "the JSON text ended too early"
  | .json .malformed => "the text is not JSON"
  | .json .misshapen => "the JSON value has a wrong shape"
  | .opener => "nothing could be opened"
  | .route subPath => "Invalid route path: " ++ subPath

inductive Content where
  | nothing
  | value (value : Value)
  | failure (failure : Failure)
  | file (type : String) (bytes : ByteArray)

structure Reply where
  status : Nat
  content : Content := .nothing

def successValue : Value := .object [("success", .bool true)]

def failureValue (message : String) : Value :=
  .object [("success", .bool false), ("error", .string message)]

def missingValue (message : String) : Value :=
  .object [("success", .bool false), ("message", .string message)]

namespace Reply

def ofValue (value : Value) : Reply := { status := 200, content := .value value }

def success : Reply := .ofValue successValue

def failure (failure : Failure) : Reply := { status := 500, content := .failure failure }

def missing (message : String) : Reply :=
  { status := 404, content := .value (missingValue message) }

def page (html : String) : Reply :=
  { status := 200, content := .file "text/html; charset=utf-8" html.toUTF8 }

/-- Steps that end in an error of the files end in a failure. -/
def ofSteps (steps : OnDisk Failure Reply) : StateM Disk Reply := do
  match ← steps.run with
  | .ok reply => return reply
  | .error cause => return failure cause

end Reply

/-- Writes a value, each item and member on a line, into a file of a directory that is made
where it is missing. -/
def saveValue (directory : Path) (name : String) (value : Value) : OnDisk Failure Reply := do
  (makeDirectories directory).withError .file
  (writeText (directory.join ⟨name⟩) (value.print .indented)).withError .file
  return .success

def saveSkeleton (base : Path) (subPath : String) (value : Value) : StateM Disk Reply :=
  match resolveSubPath base subPath with
  | none => return { status := 400, content := .failure (.route subPath) }
  | some directory => Reply.ofSteps (saveValue directory Site.skeletonName value)

def readValue (disk : Disk) (path : Path) : Reply :=
  match disk.readText path with
  | .error cause => .failure (.file cause)
  | .ok text =>
    match Value.ofText text with
    | .error fault => .failure (.json fault)
    | .ok value => .ofValue value

def allRoutes (disk : Disk) (routes : Path) : Reply :=
  if disk.isDirectory routes then
    .ofValue (.array (((Site.routes disk routes).filter (0 < ·.depth)).map fun route =>
      .string route.url))
  else .missing "Routes directory not found"

def openFolder (config : ServerConfig) (path : Path) : StateM Disk Reply := do
  if ← config.around.opens path.text then return .success
  else return .failure .opener

def openStatic (config : ServerConfig) : StateM Disk Reply := do
  match ← (makeDirectories config.static).run with
  | .error cause => return .failure (.file cause)
  | .ok _ => openFolder config config.static

def settingsName : String := "settings.json"

def initialSettings (disk : Disk) (directory : Path) : Reply :=
  let path := directory.join ⟨settingsName⟩
  if disk.isFile path then readValue disk path else .missing "settings.json file not found"

/-- The reply to a build: whether it went well, and the message it ended with. -/
def builtReply (shown : Command.Shown) : Reply :=
  { status := if shown.code = 0 then 200 else 500
    content := .value (.object
      [("success", .bool (shown.code = 0)), ("error", .string shown.error)]) }

/-- Runs the program that builds. -/
def runBuilder (config : ServerConfig) : StateM Disk (Except FileError Command.Shown) :=
  match config.builder with
  | none => Except.ok <$> Command.run config.buildArguments config.around
  | some program => config.around.starts program config.buildArguments

/-- Runs a build in the project directory. -/
def rebuild (config : ServerConfig) : StateM Disk Reply := do
  let disk ← get
  match disk.find config.project with
  | .error cause => return .failure (.file cause)
  | .ok (_, .file _) => return .failure (.file .notDirectory)
  | .ok (location, .directory) =>
    let (ended, after) := (runBuilder config).run { disk with directory := location }
    set { after with directory := disk.directory }
    match ended with
    | .error cause => return .failure (.file cause)
    | .ok shown => return builtReply shown

def placeholderPage (config : ServerConfig) : String :=
  let built := match config.output.below? config.project with
    | some components => "/".intercalate (components.map Component.text)
    | none => config.output.text
  "<!DOCTYPE html>\n<html lang=\"en\">\n<head>\n  <meta charset=\"utf-8\">\n" ++
  "  <title>cwrap dev</title>\n</head>\n<body>\n  <h1>cwrap dev server</h1>\n" ++
  "  <p>Editing skeletons in <code>" ++ config.routes.text ++
  "</code>. Built pages are served from <code>/" ++ built ++ "/</code>.</p>\n</body>\n</html>"

/-- The editor's page, or a page in its place. -/
def appPage (config : ServerConfig) (disk : Disk) : Reply :=
  let html := match config.app with
    | none => placeholderPage config
    | some app =>
      match disk.readText (app.join ⟨Site.markupName⟩) with
      | .ok html => html
      | .error _ => placeholderPage config
  .page (injectReloadScript html)

/-- The file that a request's path names in the project, as far as it only descends. -/
def filePath? (project : Path) (path : String) : Option Path := do
  let decoded ← percentDecode (String.ofList (path.toList.dropWhile (· = '/')))
  (Path.components ⟨decoded⟩).foldlM (fun path component =>
    match component with
    | .name name => some (path.join ⟨name⟩)
    | .current => some path
    | .root | .parent => none) project

/-- Serves a file. A directory is served by the page in it, once its path ends in a slash. -/
def serveFile (config : ServerConfig) (disk : Disk) (path : String) : Reply :=
  match filePath? config.project path with
  | none => appPage config disk
  | some file =>
    let isDirectory := disk.isDirectory file
    if isDirectory && path.toList.getLast? ≠ some '/' then { status := 307 }
    else
      let file := if isDirectory then file.join ⟨Site.markupName⟩ else file
      match disk.read file with
      | .ok bytes => { status := 200, content := .file (mediaType file) bytes }
      | .error .notFound | .error .notDirectory | .error .permissionDenied => appPage config disk
      | .error _ => { status := 500 }

/-- What is asked for at a path. -/
inductive Endpoint where
  | save (draft : Bool) (subPath : Option String)
  | skeleton
  | allRoutes
  | openRoutes
  | openStatic
  | build
  | initialSettings
  | createInitialSettings
  | reloadSocket
  | reloadScript
  | files
deriving DecidableEq

/-- What follows a text in front of another one, unless that is nothing. -/
def tailAfter? (lead text : String) : Option String :=
  if lead.toList.isPrefixOf text.toList && lead.length < text.length then
    some (String.ofList (text.toList.drop lead.length))
  else none

def endpointOf (path : String) : Endpoint :=
  if path = "/save-skeleton" then .save false none
  else if path = "/save-skeleton-temp" then .save true none
  else if path = "/api/skeleton" then .skeleton
  else if path = "/api/all-routes" then .allRoutes
  else if path = "/api/open-folder/routes" then .openRoutes
  else if path = "/api/open-folder/static" then .openStatic
  else if path = "/api/build" then .build
  else if path = "/api/initial-settings" then .initialSettings
  else if path = "/api/create-initial-settings" then .createInitialSettings
  else if path = reloadPath then .reloadSocket
  else if path = reloadScriptPath then .reloadScript
  else
    match tailAfter? "/save-skeleton/" path, tailAfter? "/save-skeleton-temp/" path with
    | some tail, _ => .save false (some tail)
    | none, some tail => .save true (some tail)
    | none, none => .files

def Endpoint.method : Endpoint → String
  | .save _ _ | .createInitialSettings => "POST"
  | _ => "GET"

/-- The value in the body of a request, or the reply to a body without one. -/
def bodyValue (request : Request) : Except Reply Value :=
  match request.body with
  | none => .error { status := 415 }
  | some text => (Value.ofText text).mapError fun _ => { status := 400 }

/-- Saves the body under a sub path as it stands in the request. -/
def save (config : ServerConfig) (draft : Bool) (subPath : Option String) (request : Request) :
    StateM Disk Reply :=
  match percentDecode (subPath.getD "") with
  | none => return { status := 400 }
  | some subPath =>
    match bodyValue request with
    | .error reply => return reply
    | .ok value => saveSkeleton (if draft then config.drafts else config.routes) subPath value

def serveEndpoint (config : ServerConfig) (request : Request) (path : String) :
    Endpoint → StateM Disk Reply
  | .save draft subPath => save config draft subPath request
  | .skeleton => return readValue (← get) (config.routes.join ⟨Site.skeletonName⟩)
  | .allRoutes => return allRoutes (← get) config.routes
  | .openRoutes => openFolder config config.routes
  | .openStatic => openStatic config
  | .build => rebuild config
  | .initialSettings => return initialSettings (← get) config.settings
  | .createInitialSettings =>
    match bodyValue request with
    | .error reply => return reply
    | .ok value => Reply.ofSteps (saveValue config.settings settingsName value)
  | .reloadSocket => return { status := 400 }
  | .reloadScript =>
    return { status := 200, content := .file "application/javascript" reloadScript.toUTF8 }
  | .files => return serveFile config (← get) path

/-- The type of values and of failures, which are sent as values. -/
def valueType : String := "application/json"

/-- A reply without its content, of which only the type is told. -/
def Reply.withoutContent (reply : Reply) : Reply :=
  match reply.content with
  | .nothing => reply
  | .value _ | .failure _ => { reply with content := .file valueType .empty }
  | .file type _ => { reply with content := .file type .empty }

def handle (config : ServerConfig) (request : Request) : StateM Disk Reply := do
  let path := pathOfTarget request.target
  let endpoint := endpointOf path
  if request.method = endpoint.method then serveEndpoint config request path endpoint
  else if request.method = "HEAD" && endpoint.method = "GET" then
    return (← serveEndpoint config request path endpoint).withoutContent
  else return { status := 405 }

end Pagewright.Editor
