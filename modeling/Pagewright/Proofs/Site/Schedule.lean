import Pagewright.Proofs.Site.Assets
import Pagewright.Proofs.Site.Discovery
import Pagewright.Proofs.Site.Making
import Pagewright.Proofs.Turns

/-! A build as its two parts: what is done before the routes are looked for, and the routes themselves, which may
be taken in any order and are reported in the order they were found in. -/

namespace Pagewright.Site

open Files Expansion
open Markup (Documents)

variable {disk ready after : Disk} {config : BuildConfig} {placeholder : Placeholder} {report : Report}
variable {arrange : Arrangement}

section Reporting

variable {found : List Route} {done : List (Route × Outcome)}

/-- The outcomes of routes, in the order in which the routes were found. -/
def inOrder (found : List Route) (done : List (Route × Outcome)) : List (Route × Outcome) :=
  found.filterMap fun route => done.find? (·.1 = route)

theorem find?_of_mem (once : (done.map Prod.fst).Nodup) {entry : Route × Outcome} (member : entry ∈ done) :
    done.find? (·.1 = entry.1) = some entry := by
  induction done with
  | nil => cases member
  | cons first rest ih =>
    rw [List.map_cons, List.nodup_cons] at once
    rcases List.mem_cons.mp member with rfl | later
    · simp
    · have other : first.1 ≠ entry.1 := fun same => once.1 (same ▸ List.mem_map_of_mem later)
      rw [List.find?_cons_of_neg (by simpa using other)]
      exact ih once.2 later

theorem mem_inOrder (once : (done.map Prod.fst).Nodup) (perm : (done.map Prod.fst).Perm found)
    {entry : Route × Outcome} : entry ∈ inOrder found done ↔ entry ∈ done := by
  rw [inOrder, List.mem_filterMap]
  constructor
  · rintro ⟨route, _, noted⟩
    exact List.mem_of_find?_eq_some noted
  · intro member
    exact ⟨entry.1, perm.mem_iff.mp (List.mem_map_of_mem member), find?_of_mem once member⟩

theorem map_fst_inOrder (once : (done.map Prod.fst).Nodup) (perm : (done.map Prod.fst).Perm found) :
    (inOrder found done).map Prod.fst = found := by
  rw [inOrder, List.map_filterMap]
  refine (List.filterMap_congr fun route member => ?_).trans List.filterMap_some
  obtain ⟨entry, noted, rfl⟩ := List.mem_map.mp (perm.mem_iff.mpr member)
  rw [find?_of_mem once noted]
  rfl

theorem inOrder_self (once : (done.map Prod.fst).Nodup) : inOrder (done.map Prod.fst) done = done := by
  rw [inOrder, List.filterMap_map]
  exact (List.filterMap_congr fun entry member => find?_of_mem once member).trans List.filterMap_some

/-- Where each route is noted with what it comes to, the order it was taken in does not show. -/
theorem inOrder_map {order : List Route} {note : Route → Route × Outcome} (once : found.Nodup) (perm : order.Perm found)
    (noted : ∀ route, (note route).1 = route) : inOrder found (order.map note) = found.map note := by
  have firsts : (order.map note).map Prod.fst = order := by simp [Function.comp_def, noted]
  refine (List.filterMap_congr fun route member => ?_).trans (congrFun List.filterMap_eq_map found)
  have entry : note route ∈ order.map note := List.mem_map_of_mem (perm.mem_iff.mpr member)
  have same := find?_of_mem (by rw [firsts]; exact perm.nodup_iff.mpr once) entry
  rwa [noted] at same

end Reporting

section Parts

/-- What a build does before it looks for routes. -/
def prepare (config : BuildConfig) (arrange : Arrangement) : OnDisk BuildError Placeholder := do
  let some placeholder := Placeholder.ofString? config.placeholder | throw .emptyPlaceholder
  if !(← get).isDirectory config.routes then throw (.noRoutes config.routes)
  (makeDirectories config.output).withError (.write config.output)
  copyAssets config arrange
  return placeholder

/-- An order to take routes in. -/
structure Schedule where
  order : List Route → List Route
  perm : ∀ found, (order found).Perm found

/-- The order in which routes are found. -/
def Schedule.asFound : Schedule := ⟨id, fun _ => .refl _⟩

/-- Builds the routes in an order of their own. -/
def buildIn (schedule : Schedule) (config : BuildConfig) (arrange : Arrangement) : OnDisk BuildError Report := do
  let placeholder ← prepare config arrange
  let found := routes (← get) config.routes
  let done ← ((schedule.order found).mapM (buildRoute placeholder config.output) : StateM Disk _)
  return { outcomes := inOrder found done, output := config.output }

theorem on_build (config : BuildConfig) (arrange : Arrangement) (disk : Disk) :
    (build config arrange).on disk =
      match (prepare config arrange).on disk with
      | (.error error, after) => (.error error, after)
      | (.ok placeholder, ready) =>
        let done := ((routes ready config.routes).mapM (buildRoute placeholder config.output)).run ready
        (.ok { outcomes := done.1, output := config.output }, done.2) := by
  unfold build prepare
  -- the assets are kept closed, since comparing the two sides would copy them
  generalize copyAssets config arrange = assets
  cases Placeholder.ofString? config.placeholder with
  | none => rfl
  | some placeholder =>
    simp only [OnDisk.on_bind, OnDisk.on_get]
    cases disk.isDirectory config.routes with
    | false => rfl
    | true =>
      simp only [Bool.not_true, Bool.false_eq_true, if_false, OnDisk.on_bind, OnDisk.on_withError]
      rcases (makeDirectories config.output).on disk with ⟨_ | _, made⟩
      · rfl
      · simp only [Except.mapError, OnDisk.on_liftM, OnDisk.on_get, OnDisk.on_pure, OnDisk.on_mapM_liftM]

theorem on_prepare (config : BuildConfig) (arrange : Arrangement) (disk : Disk) :
    (prepare config arrange).on disk =
      match Placeholder.ofString? config.placeholder with
      | none => (.error .emptyPlaceholder, disk)
      | some placeholder =>
        if disk.isDirectory config.routes then
          match (makeDirectories config.output).on disk with
          | (.error cause, after) => (.error (.write config.output cause), after)
          | (.ok _, after) => (.ok placeholder, ((copyAssets config arrange).run after).2)
        else (.error (.noRoutes config.routes), disk) := by
  unfold prepare
  generalize copyAssets config arrange = assets
  cases Placeholder.ofString? config.placeholder with
  | none => rfl
  | some placeholder =>
    simp only [OnDisk.on_bind, OnDisk.on_get]
    cases disk.isDirectory config.routes with
    | false => rfl
    | true =>
      simp only [Bool.not_true, Bool.false_eq_true, if_false, if_true, OnDisk.on_bind, OnDisk.on_withError]
      rcases (makeDirectories config.output).on disk with ⟨_ | _, made⟩
      · rfl
      · rfl

theorem on_buildIn (schedule : Schedule) (config : BuildConfig) (arrange : Arrangement) (disk : Disk) :
    (buildIn schedule config arrange).on disk =
      match (prepare config arrange).on disk with
      | (.error error, after) => (.error error, after)
      | (.ok placeholder, ready) =>
        let found := routes ready config.routes
        let done := ((schedule.order found).mapM (buildRoute placeholder config.output)).run ready
        (.ok { outcomes := inOrder found done.1, output := config.output }, done.2) := by
  rw [buildIn, OnDisk.on_bind]
  rcases (prepare config arrange).on disk with ⟨_ | placeholder, ready⟩
  · rfl
  · rfl

/-- The step of a route in a build. -/
def buildStep (placeholder : Placeholder) (output : Path) (route : Route) : StateM Disk (Except BuildError Documents) :=
  attempt (compileRoute placeholder route.source (route.output output) route.depth)

theorem run_buildStep (placeholder : Placeholder) (output : Path) (route : Route) (disk : Disk) :
    (buildStep placeholder output route).run disk =
      (compileRoute placeholder route.source (route.output output) route.depth).on disk := rfl

theorem run_buildRoute (placeholder : Placeholder) (output : Path) (route : Route) (disk : Disk) :
    (buildRoute placeholder output route).run disk =
      ((route, .of ((buildStep placeholder output route).run disk).1),
        ((buildStep placeholder output route).run disk).2) := by
  unfold buildRoute buildStep
  -- the step is kept closed, since comparing the two sides would run it
  generalize attempt (compileRoute placeholder route.source (route.output output) route.depth) = steps
  rfl

/-- Each route is noted with its outcome. -/
theorem map_fst_buildRoutes (placeholder : Placeholder) (output : Path) (order : List Route) (disk : Disk) :
    ((order.mapM (buildRoute placeholder output)).run disk).1.map Prod.fst = order := by
  induction order generalizing disk with
  | nil => rfl
  | cons route rest ih => rw [run_mapM_cons, List.map_cons, ih, run_buildRoute]

/-- Taking the routes as they are found is the build. -/
theorem on_buildIn_asFound (config : BuildConfig) (arrange : Arrangement) (disk : Disk) :
    (buildIn .asFound config arrange).on disk = (build config arrange).on disk := by
  rw [on_buildIn, on_build]
  rcases (prepare config arrange).on disk with ⟨_ | placeholder, ready⟩
  · rfl
  · have noted := map_fst_buildRoutes placeholder config.output (routes ready config.routes) ready
    have same := inOrder_self (noted ▸ nodup_routes ready config.routes)
    rw [noted] at same
    simp only [Schedule.asFound, id, same]

end Parts

section Ready

/-- A disk on which routes can be built: there are routes to be found, and there is somewhere to put them. -/
structure Ready (config : BuildConfig) (disk : Disk) : Prop where
  works : disk.tree.at? disk.directory = some .directory
  routes : disk.isDirectory config.routes = true
  output : Opens disk config.output

theorem Ready.grows {directories files : Location → Prop} (ready : Ready config disk)
    (grows : Grows directories files disk after) : Ready config after where
  works := grows.directory ▸ grows.isDirectory ready.works
  routes := isDirectory_grows grows ready.routes
  output := ready.output.grows grows

/-- Before the routes are looked for, directories are made towards the output and assets are put into it. -/
theorem prepare_grows (config : BuildConfig) (arrange : Arrangement) (disk : Disk) :
    Grows (Outward disk.directory config.output)
      (AssetPlace config disk.directory ((prepare config arrange).on disk).2) disk
      ((prepare config arrange).on disk).2 := by
  rw [on_prepare]
  split
  next => exact .refl disk
  next placeholder _ =>
    split
    next =>
      have made (files : Location → Prop) : Grows (Outward disk.directory config.output) files disk _ :=
        (makeDirectories_grows config.output disk).mono (fun _ => .inl) fun _ => False.elim
      split
      next stopped =>
        rw [stopped] at made
        exact made _
      next value middle opened =>
        rw [opened] at made
        have assets := copyAssets_grows config arrange middle
        rw [(made fun _ => False).directory] at assets
        exact (made _).trans assets
    next => exact .refl disk

theorem ready_of_prepare (works : disk.tree.at? disk.directory = some .directory)
    (prepared : (prepare config arrange).on disk = (.ok placeholder, ready)) : Ready config ready := by
  rw [on_prepare] at prepared
  split at prepared
  next => cases prepared
  next =>
    split at prepared
    next directory =>
      split at prepared
      next => cases prepared
      next middle opened =>
        cases prepared
        have made := makeDirectories_grows config.output disk
        rw [opened] at made
        have middle : Ready config middle := {
          works := made.directory ▸ made.isDirectory works
          routes := isDirectory_grows made directory
          output := opens_of_makeDirectories works opened }
        exact middle.grows (copyAssets_grows config arrange _)
    next => cases prepared

theorem placeholder_of_prepare (prepared : (prepare config arrange).on disk = (.ok placeholder, ready)) :
    Placeholder.ofString? config.placeholder = some placeholder := by
  rw [on_prepare] at prepared
  split at prepared
  next => cases prepared
  next given =>
    split at prepared
    next =>
      split at prepared
      next => cases prepared
      next =>
        cases prepared
        exact given
    next => cases prepared

/-- A preparation that is finished, for what it comes to. -/
theorem exists_prepared (finished : ((prepare config arrange).on disk).1.isOk = true)
    (given : Placeholder.ofString? config.placeholder = some placeholder) :
    (prepare config arrange).on disk = (.ok placeholder, ((prepare config arrange).on disk).2) := by
  cases prepared : (prepare config arrange).on disk with
  | mk result ready =>
    rw [prepared] at finished
    cases result with
    | error => cases finished
    | ok other =>
      rw [placeholder_of_prepare prepared, Option.some.injEq] at given
      rw [given]

end Ready

section Samples

/-- A site with routes of the names given, each of them with an empty page. -/
def siteOf (routes : List (List String)) : Disk where
  directory := ["site"]
  tree := routes.foldl
    (fun tree names =>
      let route := ["site", "routes"] ++ names
      (tree.putDirectories [] route).put route skeletonName (.file "\x7b\x7d".toUTF8))
    FileTree.empty

end Samples

end Pagewright.Site
