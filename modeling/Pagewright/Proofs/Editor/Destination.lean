import Pagewright.Proofs.Editor.Saving

/-! What one request changes. A request that saves has one file as its destination, which it writes exactly
when it succeeds. Apart from that file and from builds no file is changed, as long as the opener changes none. -/

namespace Pagewright.Editor

open Files
open Json (Value)

/-- What a request may save: a page below one of the bases, or the settings. -/
inductive Destination where
  | page (draft : Bool) (steps : List String)
  | settings
deriving DecidableEq

namespace Destination

variable {config : ServerConfig} {here : Location} {destination other : Destination}

def directory (config : ServerConfig) (here : Location) : Destination → Location
  | page draft steps => landing here (config.base draft) ++ steps
  | settings => landing here config.settings

def name : Destination → String
  | page _ _ => Site.skeletonName
  | settings => settingsName

def file (config : ServerConfig) (here : Location) (destination : Destination) : Location :=
  destination.directory config here ++ [destination.name]

/-- The path under which a destination is read back. -/
def readAt? (config : ServerConfig) : Destination → Option Path
  | page false [] => some (config.routes.join ⟨Site.skeletonName⟩)
  | page _ _ => none
  | settings => some (config.settings.join ⟨settingsName⟩)

theorem readAt?_page {draft : Bool} {steps : List String} {path : Path}
    (read : (page draft steps).readAt? config = some path) :
    draft = false ∧ steps = [] ∧ config.routes.join ⟨Site.skeletonName⟩ = path := by
  cases draft <;> cases steps <;> simp_all [readAt?]

/-- Bases that lie apart have no file in common. -/
theorem file_inj
    (apart : ¬ landing here config.routes <+: landing here config.drafts ∧
      ¬ landing here config.drafts <+: landing here config.routes)
    (same : destination.file config here = other.file config here) : destination = other := by
  obtain ⟨together, named⟩ := List.append_inj' same rfl
  have named := List.singleton_inj.mp named
  have different : Site.skeletonName ≠ settingsName := by decide
  cases destination with
  | settings =>
    cases other with
    | settings => rfl
    | page => exact absurd named.symm different
  | page draft steps =>
    cases other with
    | settings => exact absurd named different
    | page draft' steps' =>
      have together : landing here (config.base draft) ++ steps = landing here (config.base draft') ++ steps' :=
        together
      have near := List.prefix_or_prefix_of_prefix
        (List.prefix_append (landing here (config.base draft)) steps)
        (together ▸ List.prefix_append (landing here (config.base draft')) steps')
      have one : draft = draft' := by
        cases draft <;> cases draft'
        case false.true => exact absurd near (not_or.mpr apart)
        case true.false => exact absurd near (not_or.mpr apart.symm)
        all_goals rfl
      subst one
      rw [List.append_cancel_left together]

end Destination

section Effects

variable {config : ServerConfig} {request : Request} {disk : Disk} {destination : Destination}

/-- What a request asks to be saved to. -/
def Request.destination? (request : Request) : Option Destination :=
  if request.method = "POST" then
    match endpointOf (pathOfTarget request.target) with
    | .save draft subPath =>
      (percentDecode (subPath.getD "")).map fun decoded => .page draft (Path.steps ⟨decoded⟩)
    | .createInitialSettings => some .settings
    | _ => none
  else none

/-- Opening a folder leaves all that is there as it is. -/
def OnlyOpens (config : ServerConfig) : Prop :=
  ∀ what disk, ((config.around.opens what).run disk).2 = disk

theorem OnlyOpens.openFolder (only : OnlyOpens config) (path : Path) (disk : Disk) :
    ((openFolder config path).run disk).2 = disk := by
  rw [Editor.openFolder, run_bind]
  split <;> exact only path.text disk

theorem OnlyOpens.openStatic_grows (only : OnlyOpens config) (disk : Disk) :
    Grows (Passes disk.directory config.static) (fun _ => False) disk ((openStatic config).run disk).2 := by
  rw [openStatic, run_bind]
  have made : Grows _ _ disk ((makeDirectories config.static).run.run disk).2 :=
    makeDirectories_grows config.static disk
  split
  next => exact made
  next =>
    rw [only.openFolder]
    exact made

theorem handle_of_method (asked : request.method = (endpointOf (pathOfTarget request.target)).method) :
    handle config request =
      serveEndpoint config request (pathOfTarget request.target) (endpointOf (pathOfTarget request.target)) := by
  rw [handle, if_pos asked]

/-- How a request to save ends: refused and without a trace, or with a value on its way to the destination. -/
theorem handle_destination (config : ServerConfig) (disk : Disk)
    (aimed : request.destination? = some destination) :
    (∃ reply, (handle config request).run disk = (reply, disk) ∧ reply.status ≠ 200) ∨
      ∃ directory value, bodyValue request = .ok value ∧
        Saving directory destination.name value disk ((handle config request).run disk) ∧
        landing disk.directory (directory.join ⟨destination.name⟩) = destination.file config disk.directory ∧
        ∀ path, destination.readAt? config = some path → directory.join ⟨destination.name⟩ = path := by
  unfold Request.destination? at aimed
  split at aimed
  next posted =>
    split at aimed
    next draft subPath endpoint =>
      obtain ⟨decoded, found, rfl⟩ := Option.map_eq_some_iff.mp aimed
      rw [handle_of_method (by rw [endpoint]; exact posted), endpoint]
      refine (save_cases config draft subPath request disk).imp_right ?_
      rintro ⟨again, value, path, same, given, resolved, saving⟩
      cases found.symm.trans same
      have arrives : landing disk.directory (path.join ⟨Site.skeletonName⟩) =
          landing disk.directory (config.base draft) ++ Path.steps ⟨decoded⟩ ++ [Site.skeletonName] := by
        rw [landing_join rfl, landing_of_resolve resolved]
        rfl
      refine ⟨path, value, given, saving, arrives, ?_⟩
      intro place read
      obtain ⟨rfl, still, rfl⟩ := Destination.readAt?_page read
      cases eq_empty_of_resolve resolved still
      obtain ⟨_, rfl⟩ := resolveSubPath_eq_some.mp resolved
      exact Path.join_empty_join rfl
    next endpoint =>
      cases aimed
      rw [handle_of_method (by rw [endpoint]; exact posted), endpoint, serveEndpoint]
      split
      next reply refused => exact .inl ⟨reply, rfl, status_of_bodyValue refused⟩
      next value given =>
        refine .inr ⟨config.settings, value, given, saveValue_saving _ _ _ _, landing_join rfl, ?_⟩
        rintro path ⟨⟩
        rfl
    next => cases aimed
  next => cases aimed

/-- A build, for its reply or only for the head of it. -/
def Request.Builds (request : Request) : Prop :=
  (request.method = "GET" ∨ request.method = "HEAD") ∧ pathOfTarget request.target = "/api/build"

instance (request : Request) : Decidable request.Builds :=
  inferInstanceAs (Decidable (_ ∧ _))

theorem method_cases (endpoint : Endpoint) : endpoint.method = "GET" ∨ endpoint.method = "POST" := by
  cases endpoint <;> simp [Endpoint.method]

theorem serveEndpoint_grows (only : OnlyOpens config) {endpoint : Endpoint} (asked : endpoint.method = "GET")
    (other : endpoint ≠ .build) (path : String) :
    Grows (fun _ => True) (fun _ => False) disk ((serveEndpoint config request path endpoint).run disk).2 := by
  cases endpoint with
  | save | createInitialSettings => simp [Endpoint.method] at asked
  | build => exact absurd rfl other
  | openRoutes =>
    rw [serveEndpoint, only.openFolder]
    exact .refl disk
  | openStatic => exact (only.openStatic_grows disk).mono (fun _ _ => trivial) fun _ => False.elim
  | skeleton | allRoutes | initialSettings | reloadSocket | reloadScript | files => exact .refl disk

/-- What is posted without a destination is refused. -/
theorem serveEndpoint_of_elsewhere (elsewhere : request.destination? = none) (posted : request.method = "POST")
    (saves : (endpointOf (pathOfTarget request.target)).method = "POST") :
    serveEndpoint config request (pathOfTarget request.target) (endpointOf (pathOfTarget request.target)) =
      pure { status := 400 } := by
  rw [Request.destination?, if_pos posted] at elsewhere
  generalize endpointOf (pathOfTarget request.target) = endpoint at elsewhere saves
  cases endpoint with
  | save draft subPath => rw [serveEndpoint, save, Option.map_eq_none_iff.mp elsewhere]
  | createInitialSettings => cases elsewhere
  | _ => simp [Endpoint.method] at saves

/-- A request without a destination leaves no traces but directories. -/
theorem handle_elsewhere (only : OnlyOpens config) (disk : Disk) (other : ¬ request.Builds)
    (elsewhere : request.destination? = none) :
    Grows (fun _ => True) (fun _ => False) disk ((handle config request).run disk).2 := by
  have unbuilt : request.method = "GET" ∨ request.method = "HEAD" →
      endpointOf (pathOfTarget request.target) ≠ .build :=
    fun asked build => other ⟨asked, endpointOf_eq_build build⟩
  by_cases asked : request.method = (endpointOf (pathOfTarget request.target)).method
  · rw [handle_of_method asked]
    rcases method_cases (endpointOf (pathOfTarget request.target)) with get | post
    · exact serveEndpoint_grows only get (unbuilt (.inl (asked.trans get))) _
    · rw [serveEndpoint_of_elsewhere elsewhere (asked.trans post) post]
      exact .refl disk
  · rw [handle, if_neg asked]
    split
    next head =>
      simp only [Bool.and_eq_true, decide_eq_true_eq] at head
      exact serveEndpoint_grows only head.2 (unbuilt (.inr head.1)) _
    next => exact .refl disk

/-- Whatever is asked for apart from builds changes no files but, where it succeeds, its destination. -/
theorem handle_grows (only : OnlyOpens config) (disk : Disk) (other : ¬ request.Builds) :
    Grows (fun _ => True)
      (fun location => ((handle config request).run disk).1.status = 200 ∧ ∃ destination,
        request.destination? = some destination ∧ location = destination.file config disk.directory)
      disk ((handle config request).run disk).2 := by
  cases aimed : request.destination? with
  | some destination =>
    rcases handle_destination config disk aimed with ⟨reply, refused, _⟩ | taken
    · rw [refused]
      exact .refl disk
    · obtain ⟨directory, value, _, saving, arrives, _⟩ := taken
      refine saving.grows.mono (fun _ _ => trivial) ?_
      rintro location ⟨succeeds, rfl⟩
      exact ⟨succeeds, destination, rfl, arrives⟩
  | none => exact (handle_elsewhere only disk other aimed).mono (fun _ => id) fun _ => False.elim

/-- What is saved stands at its destination, and is found there. -/
theorem handle_stores (works : disk.tree.at? disk.directory = some .directory)
    (aimed : request.destination? = some destination)
    (succeeds : ((handle config request).run disk).1.status = 200) :
    ∃ value, bodyValue request = .ok value ∧
      ((handle config request).run disk).2.tree.at? (destination.file config disk.directory) =
        some (.file (value.print .indented).toUTF8) ∧
      ∀ path, destination.readAt? config = some path →
        ((handle config request).run disk).2.find path =
          .ok (destination.file config disk.directory, .file (value.print .indented).toUTF8) := by
  rcases handle_destination config disk aimed with ⟨reply, refused, failed⟩ | taken
  · rw [refused] at succeeds
    exact absurd succeeds failed
  · obtain ⟨directory, value, given, saving, arrives, read⟩ := taken
    have found := saving.found succeeds works
    rw [arrives] at found
    refine ⟨value, given, (Disk.find_location found).2, ?_⟩
    intro path asked
    rw [← read path asked]
    exact found

end Effects

end Pagewright.Editor
