import Pagewright.Proofs.Site.Deposit
import Pagewright.Proofs.Site.Schedule

/-! What building routes does to a disk. Directories are made and documents are written, and nothing else
changes, so the pages that the routes are built from stay as they are. -/

namespace Pagewright.Site

open Files Expansion

variable {disk after ready : Disk} {here location : Location} {names : List String} {route : Route}
variable {config : BuildConfig} {placeholder : Placeholder}

section Built

/-- What building routes makes of a disk: more directories, and new documents. -/
def Built (ready disk : Disk) : Prop :=
  Grows (fun _ => True) (fun location => ∃ here names, IsDocument here names location) ready disk

theorem not_isDocument_skeleton : ¬ IsDocument here names (location ++ [skeletonName]) := by
  rintro ⟨name, document, same⟩
  obtain ⟨_, named⟩ := List.append_inj' same rfl
  have different : skeletonName ∉ [markupName, stylesName] := by decide
  exact different (List.singleton_inj.mp named ▸ document)

/-- Building leaves the files of the pages alone. -/
theorem Built.fileAt? (built : Built ready disk) (given : Ready config ready)
    (found : route ∈ routes ready config.routes) :
    fileAt? disk (route.source.join ⟨skeletonName⟩) = fileAt? ready (route.source.join ⟨skeletonName⟩) := by
  rw [source_join given.routes found]
  refine fileAt?_grows given.works (.inr given.routes) (isEntryName_of_page given.routes found) (by simp) built ?_
  rintro ⟨here, names, placed⟩
  rw [← List.append_assoc] at placed
  exact not_isDocument_skeleton placed

theorem Built.page (built : Built ready disk) (given : Ready config ready)
    (found : route ∈ routes ready config.routes) :
    compilePage placeholder disk route.source route.depth = compilePage placeholder ready route.source route.depth :=
  compilePage_congr route.depth (built.fileAt? given found)

/-- A route whose page can be compiled. -/
def Compiles (placeholder : Placeholder) (disk : Disk) (route : Route) : Prop :=
  ∃ documents, compilePage placeholder disk route.source route.depth = .ok documents

theorem Compiles.page {disk : Disk} (compiles : Compiles placeholder disk route) :
    ∃ content, fileAt? disk (route.source.join ⟨skeletonName⟩) = some content := by
  refine Option.ne_none_iff_exists'.mp fun missing => ?_
  obtain ⟨documents, compiled⟩ := compiles
  rw [compilePage, loadPage_eq, missing] at compiled
  cases compiled

theorem Built.grows {directories : Location → Prop} (built : Built ready disk)
    (grows : Grows directories (IsDocument here names) disk after) : Built ready after :=
  Grows.trans built (grows.mono (fun _ _ => trivial) fun _ placed => ⟨here, names, placed⟩)

end Built

section Steps

variable (given : Ready config ready)
include given

theorem buildStep_grows (placeholder : Placeholder) (built : Built ready disk)
    (found : route ∈ routes ready config.routes) :
    Grows (· <+: landing disk.directory config.output ++ route.names)
      (IsDocument (landing disk.directory config.output) route.names) disk
      ((buildStep placeholder config.output route).run disk).2 :=
  have now := given.grows built
  compileRoute_grows now.works now.output (names_of_mem given.routes found)

/-- A route whose page cannot be compiled does nothing. -/
theorem buildStep_of_not_compiles (found : route ∈ routes ready config.routes)
    (fails : ¬ Compiles placeholder ready route) :
    ∃ error, ∀ disk, Built ready disk →
      (buildStep placeholder config.output route).run disk = (.error error, disk) := by
  cases page : compilePage placeholder ready route.source route.depth with
  | ok documents => exact absurd ⟨documents, page⟩ fails
  | error error =>
    refine ⟨error, fun disk built => ?_⟩
    rw [run_buildStep, on_compileRoute, built.page given found, page]

variable {order : List Route} (found : ∀ route ∈ order, route ∈ routes ready config.routes)
include found

/-- Routes write no files but the documents of those that have a page. -/
theorem buildRoutes_grows (placeholder : Placeholder) (built : Built ready disk) :
    Grows (fun _ => True)
      (fun location => ∃ route ∈ order, Compiles placeholder ready route ∧
        IsDocument (landing ready.directory config.output) route.names location)
      disk ((order.mapM (buildRoute placeholder config.output)).run disk).2 := by
  induction order generalizing disk with
  | nil => exact .refl disk
  | cons route rest ih =>
    obtain ⟨here, others⟩ := List.forall_mem_cons.mp found
    have step := buildStep_grows given placeholder built here
    have wider (location : Location) (written : ∃ other ∈ rest, Compiles placeholder ready other ∧
        IsDocument (landing ready.directory config.output) other.names location) :
        ∃ other ∈ route :: rest, Compiles placeholder ready other ∧
          IsDocument (landing ready.directory config.output) other.names location := by
      obtain ⟨other, member, placed⟩ := written
      exact ⟨other, List.mem_cons_of_mem _ member, placed⟩
    have later := (ih others (built.grows step)).mono (fun _ => id) wider
    rw [run_mapM_cons, run_buildRoute]
    by_cases compiles : Compiles placeholder ready route
    · rw [built.directory] at step
      exact (step.mono (fun _ _ => trivial) fun location placed =>
        ⟨route, List.mem_cons_self, compiles, placed⟩).trans later
    · obtain ⟨error, idle⟩ := buildStep_of_not_compiles given here compiles
      rw [idle disk built] at later ⊢
      exact later

theorem built_buildRoutes (placeholder : Placeholder) (built : Built ready disk) :
    Built ready ((order.mapM (buildRoute placeholder config.output)).run disk).2 :=
  Grows.trans built <| (buildRoutes_grows given found placeholder built).mono (fun _ => id)
    fun _ ⟨route, _, _, placed⟩ => ⟨_, route.names, placed⟩

end Steps

end Pagewright.Site
