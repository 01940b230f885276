import Pagewright.Proofs.Site.Building

/-! What a build does to the files that were there before. Each of them stays a file with the bytes it had,
unless it lies where the build puts one of its results. -/

namespace Pagewright.Site

open Files Expansion

variable {disk after ready : Disk} {root : Path} {location : Location} {route : Route}
variable {config : BuildConfig} {placeholder : Placeholder} {schedule : Schedule}

/-- Where a build puts its results: the assets, and the documents of the routes that have a page. -/
inductive ResultPlace (config : BuildConfig) (disk : Disk) (location : Location) : Prop where
  | asset (place : AssetPlace config disk.directory disk location)
  | document (placeholder : Placeholder) (named : Placeholder.ofString? config.placeholder = some placeholder)
      (route : Route) (found : route ∈ routes disk config.routes) (compiles : Compiles placeholder disk route)
      (placed : IsDocument (landing disk.directory config.output) route.names location)

/-- A route that has been found is found again. -/
theorem mem_routes_grows {directories files : Location → Prop} (directory : disk.isDirectory root = true)
    (grows : Grows directories files disk after) (found : route ∈ routes disk root) : route ∈ routes after root := by
  obtain ⟨source, way⟩ := (mem_routes directory).mp found
  refine (mem_routes (isDirectory_grows grows directory)).mpr ⟨source, way.imp_right ?_⟩
  rintro ⟨there, readable⟩
  exact ⟨grows.directory ▸ grows.isDirectory there, isDirectory_grows grows readable⟩

theorem buildIn_grows (schedule : Schedule) (config : BuildConfig) (arrange : Arrangement)
    (works : disk.tree.at? disk.directory = some .directory) :
    Grows (fun _ => True) (ResultPlace config ((buildIn schedule config arrange).on disk).2) disk
      ((buildIn schedule config arrange).on disk).2 := by
  have prepared := prepare_grows config arrange disk
  rw [on_buildIn]
  split
  next after stopped =>
    rw [stopped] at prepared
    refine prepared.mono (fun _ _ => trivial) fun location place => .asset ?_
    rwa [prepared.directory]
  next placeholder ready finished =>
    rw [finished] at prepared
    have given := ready_of_prepare works finished
    have subset : ∀ route ∈ schedule.order (routes ready config.routes), route ∈ routes ready config.routes :=
      fun route member => (schedule.perm _).mem_iff.mp member
    have built := buildRoutes_grows given subset placeholder (Grows.refl ready)
    have pages := built_buildRoutes given subset placeholder (Grows.refl ready)
    dsimp only
    generalize ((schedule.order (routes ready config.routes)).mapM (buildRoute placeholder config.output)).run ready =
      run at built pages
    obtain ⟨done, last⟩ := run
    have directory : last.directory = disk.directory := built.directory.trans prepared.directory
    refine (prepared.mono (fun _ _ => trivial) fun location place => ?_).trans
      (built.mono (fun _ => id) fun location ⟨route, member, ⟨documents, page⟩, placed⟩ => ?_)
    · refine .asset ?_
      rw [directory]
      exact assetPlace_lasting config disk.directory built location place
    · have found := subset route member
      refine .document placeholder (placeholder_of_prepare finished) route
        (mem_routes_grows given.routes built found) ⟨documents, ?_⟩ ?_
      · rw [pages.page given found, page]
      · rwa [built.directory]

theorem ResultPlace.below (place : ResultPlace config disk location) :
    landing disk.directory config.output <+: location := by
  cases place with
  | asset place => exact place.below
  | document _ _ route _ _ placed =>
    obtain ⟨name, _, rfl⟩ := placed
    rw [List.append_assoc]
    exact List.prefix_append _ _

/-- Outside the output directory no file is touched. -/
theorem file_outside_kept (schedule : Schedule) (config : BuildConfig) (arrange : Arrangement)
    (works : disk.tree.at? disk.directory = some .directory)
    (outside : ¬ landing disk.directory config.output <+: location) {content : ByteArray}
    (file : disk.tree.at? location = some (.file content)) :
    ((buildIn schedule config arrange).on disk).2.tree.at? location = some (.file content) := by
  have grows := buildIn_grows schedule config arrange works
  obtain ⟨changed, there, same | place⟩ := grows.isFile file
  · rw [there, same]
  · exact absurd (grows.directory ▸ place.below) outside

end Pagewright.Site
