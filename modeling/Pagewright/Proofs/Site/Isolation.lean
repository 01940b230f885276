import Pagewright.Proofs.Site.Beside
import Pagewright.Proofs.Site.Order

/-! Two builds of a site that differ in the page of one route. Whatever becomes of that route, all the others come
to the same in both, and so do their documents. -/

namespace Pagewright.Site

open Files Expansion

variable {disk ready first second : Disk} {here spot location : Location} {names changed : List String} {route : Route}
variable {order : List Route} {config : BuildConfig} {placeholder : Placeholder} {arrange : Arrangement}

section Pages

/-- Where the page of a route lies. -/
def pageAt (here : Location) (config : BuildConfig) (names : List String) : Location :=
  landing here config.routes ++ names ++ [skeletonName]

theorem prefix_pageAt : landing here config.routes <+: pageAt here config names := by
  rw [pageAt, List.append_assoc]
  exact List.prefix_append _ _

theorem pageAt_ne (different : names ≠ changed) : pageAt here config names ≠ pageAt here config changed :=
  fun same => different (List.append_cancel_left (List.append_inj' same rfl).1)

end Pages

section Crossing

/-- No directory below a path is called like a document. -/
def Unnamed (disk : Disk) (root : Path) : Prop :=
  ∀ below ∈ disk.tree.below (landing disk.directory root), below.2 = .directory →
    below.1.getLast? ≠ some markupName ∧ below.1.getLast? ≠ some stylesName

instance (disk : Disk) (root : Path) : Decidable (Unnamed disk root) :=
  inferInstanceAs (Decidable (∀ below ∈ disk.tree.below _, _ → _))

theorem Unnamed.not_directory {root : Path} {name : String} (unnamed : Unnamed disk root)
    (document : name ∈ [markupName, stylesName]) :
    disk.tree.at? (landing disk.directory root ++ (names ++ [name])) ≠ some .directory := by
  intro directory
  have plain := unnamed _ (FileTree.mem_below.mpr ⟨by simp, directory⟩) rfl
  simp only [List.getLast?_concat, Option.some.injEq, ne_eq] at plain
  simp_all

theorem Unnamed.same {root : Path} (unnamed : Unnamed first root) (same : SameBut here spot first second) :
    Unnamed second root := by
  rintro ⟨names, entry⟩ member rfl
  obtain ⟨nonempty, directory⟩ := FileTree.mem_below.mp member
  rw [same.also, ← same.directory] at directory
  exact unnamed (names, .directory) (FileTree.mem_below.mpr ⟨nonempty, same.at?_directory.mp directory⟩) rfl

/-- No route with a page goes through the place of a document. -/
def Uncrossed (placeholder : Placeholder) (config : BuildConfig) (ready : Disk) : Prop :=
  ∀ route ∈ routes ready config.routes, Compiles placeholder ready route →
    ∀ names, ∀ name ∈ [markupName, stylesName], ¬ names ++ [name] <+: route.names

/-- Where no directory is called like a document before a build, none with a page is when the routes are looked for:
such a directory has been made on the way to the output, and nothing is in it. -/
theorem uncrossed_of_prepare (works : disk.tree.at? disk.directory = some .directory)
    (prepared : (prepare config arrange).on disk = (.ok placeholder, ready)) (unnamed : Unnamed disk config.routes)
    (apart : Apart disk.directory config.output config.routes) : Uncrossed placeholder config ready := by
  rintro route found compiles names name document ⟨rest, along⟩
  have given := ready_of_prepare works prepared
  have grows := prepare_grows config arrange disk
  rw [prepared] at grows
  obtain ⟨content, page⟩ := compiles.page
  rw [source_join given.routes found, fileAt?_pathBelow given.works (.inr given.routes)
    (isEntryName_of_page given.routes found) (by simp), grows.directory] at page
  have change := grows.change (landing disk.directory config.routes ++ (route.names ++ [skeletonName]))
  rw [page.2] at change
  generalize old : disk.tree.at? (landing disk.directory config.routes ++ (route.names ++ [skeletonName])) =
    before at change
  cases change with
  | same =>
    rw [← along, List.append_assoc, ← List.append_assoc] at old
    have further : rest ++ [skeletonName] ≠ [] := by simp
    exact unnamed.not_directory document (FileTree.isDirectory_of_below further (by rw [old]; rfl))
  | file allowed => exact apart.not_prefix (List.prefix_append _ _) allowed.below

end Crossing

section Runs

/-- Routes noted with their outcomes can change places as the routes can. -/
theorem orderly_buildRoute (given : Ready config ready) (uncrossed : Uncrossed placeholder config ready) :
    Orderly (buildRoute placeholder config.output) (routes ready config.routes) (Built ready) := by
  have orderly := orderly_buildStep given fun route found other _ compiles _ ⟨name, document, crosses⟩ =>
    uncrossed route found compiles other.names name document crosses
  refine ⟨fun route found disk built => ?_, fun route found other also different disk built => ?_⟩
  · rw [run_buildRoute]
    exact orderly.kept route found disk built
  · have swaps := orderly.swaps route found other also different disk built
    refine ⟨?_, ?_⟩
    · simp only [run_buildRoute, swaps.result]
    · simp only [run_buildRoute, swaps.state]

/-- Routes with other pages leave the disks as alike as they were. -/
theorem buildRoutes_same (placeholder : Placeholder) (clear : ¬ Outward here config.output spot)
    (others : ∀ route ∈ order, (∀ name ∈ route.names, IsEntryName name) ∧
      landing here (route.source.join ⟨skeletonName⟩) ≠ spot)
    (same : SameBut here spot first second) :
    SameBut here spot ((order.mapM (buildRoute placeholder config.output)).run first).2
      ((order.mapM (buildRoute placeholder config.output)).run second).2 := by
  induction order generalizing first second with
  | nil => exact same
  | cons route rest ih =>
    obtain ⟨⟨proper, page⟩, others⟩ := List.forall_mem_cons.mp others
    simp only [run_mapM_cons, run_buildRoute, run_buildStep]
    exact ih others (compileRoute_abreast same placeholder route.depth clear proper page).same

/-- A route that goes through no place of a document leaves the documents of the others alone. -/
theorem buildRoutes_keep (given : Ready config ready) (found : ∀ route ∈ order, route ∈ routes ready config.routes)
    (single : ∀ route ∈ order, route.names = changed) (different : names ≠ changed) {name : String}
    (document : name ∈ [markupName, stylesName])
    (clear : ∀ route ∈ order, Compiles placeholder ready route → ¬ names ++ [name] <+: route.names)
    (built : Built ready disk) :
    ((order.mapM (buildRoute placeholder config.output)).run disk).2.tree.at?
        (landing ready.directory config.output ++ names ++ [name]) =
      disk.tree.at? (landing ready.directory config.output ++ names ++ [name]) := by
  induction order generalizing disk with
  | nil => rfl
  | cons route rest ih =>
    obtain ⟨here, others⟩ := List.forall_mem_cons.mp found
    obtain ⟨alone, all⟩ := List.forall_mem_cons.mp single
    obtain ⟨free, freed⟩ := List.forall_mem_cons.mp clear
    have step := buildStep_grows given placeholder built here
    rw [run_mapM_cons, run_buildRoute]
    by_cases compiles : Compiles placeholder ready route
    case neg =>
      obtain ⟨error, idle⟩ := buildStep_of_not_compiles given here compiles
      rw [idle disk built]
      exact ih others all freed built
    have change := step.change (landing ready.directory config.output ++ names ++ [name])
    rw [ih others all freed (built.grows step)]
    rw [built.directory] at change
    generalize disk.tree.at? (landing ready.directory config.output ++ names ++ [name]) = old at change ⊢
    generalize ((buildStep placeholder config.output route).run disk).2.tree.at?
      (landing ready.directory config.output ++ names ++ [name]) = new at change ⊢
    cases change with
    | same => rfl
    | directory allowed =>
      rw [List.append_assoc] at allowed
      exact absurd ((List.prefix_append_right_inj _).mp allowed) (free compiles)
    | file allowed => exact absurd (IsDocument.names_eq ⟨name, document, rfl⟩ allowed) (alone ▸ different)

end Runs

section Orders

variable (given : Ready config ready) (uncrossed : Uncrossed placeholder config ready) (schedule : Schedule)
include given uncrossed

/-- Each route has the outcome that it has alone. -/
theorem outcomes_of_order :
    inOrder (routes ready config.routes)
        (((schedule.order (routes ready config.routes)).mapM (buildRoute placeholder config.output)).run ready).1 =
      (routes ready config.routes).map fun route => ((buildRoute placeholder config.output route).run ready).1 := by
  have perm := schedule.perm (routes ready config.routes)
  have once := nodup_routes ready config.routes
  have orderly := (orderly_buildRoute given uncrossed).perm perm
  rw [orderly.results (perm.nodup_iff.mpr once) (.refl ready)]
  exact inOrder_map once perm fun route => by rw [run_buildRoute]

/-- The documents of all routes but one are what they are without it. -/
theorem documents_of_order (different : names ≠ changed) {name : String} (document : name ∈ [markupName, stylesName]) :
    (((schedule.order (routes ready config.routes)).mapM (buildRoute placeholder config.output)).run ready).2.tree.at?
        (landing ready.directory config.output ++ names ++ [name]) =
      ((((routes ready config.routes).filter (·.names ≠ changed)).mapM
        (buildRoute placeholder config.output)).run ready).2.tree.at?
          (landing ready.directory config.output ++ names ++ [name]) := by
  have perm := schedule.perm (routes ready config.routes)
  have orderly := (orderly_buildRoute given uncrossed).perm perm
  have once := perm.nodup_iff.mpr (nodup_routes ready config.routes)
  have parts := perm.trans (List.filter_append_perm (·.names ≠ changed) (routes ready config.routes)).symm
  rw [orderly.state_eq once parts (.refl ready), run_mapM_append]
  refine buildRoutes_keep given (fun route member => List.mem_of_mem_filter member) ?_ different document ?_ ?_
  · intro route member
    simpa using List.of_mem_filter member
  · intro route member compiles
    exact uncrossed route (List.mem_of_mem_filter member) compiles names name document
  · exact built_buildRoutes given (fun route member => List.mem_of_mem_filter member) placeholder (.refl ready)

end Orders

section Isolation

/-- Two builds that end in the same error, or tell the same of all routes but one. -/
inductive AlikeBut (changed : List String) : Except BuildError Report → Except BuildError Report → Prop where
  | failed (error : BuildError) : AlikeBut changed (.error error) (.error error)
  | built {one two : Report}
      (told : one.outcomes.filter (·.1.names ≠ changed) = two.outcomes.filter (·.1.names ≠ changed)) :
      AlikeBut changed (.ok one) (.ok two)

theorem AlikeBut.isOk {one two : Except BuildError Report} (alike : AlikeBut changed one two) : one.isOk = two.isOk := by
  cases alike <;> rfl

theorem filter_noted (order : List Route) (ready : Disk) :
    (order.map fun route => ((buildRoute placeholder config.output route).run ready).1).filter (·.1.names ≠ changed) =
      (order.filter (·.names ≠ changed)).map fun route =>
        ((buildRoute placeholder config.output route).run ready).1 := by
  rw [List.filter_map]
  rfl

/-- The page of any other route lies in another place. -/
theorem other_of_filter (here : Location) (given : Ready config ready)
    (member : route ∈ (routes ready config.routes).filter (·.names ≠ changed)) :
    (∀ name ∈ route.names, IsEntryName name) ∧
      landing here (route.source.join ⟨skeletonName⟩) ≠ pageAt here config changed := by
  have found := List.mem_of_mem_filter member
  have place : landing here (route.source.join ⟨skeletonName⟩) = pageAt here config route.names := by
    rw [source_join given.routes found, landing_pathBelow (isEntryName_of_page given.routes found), pageAt,
      List.append_assoc]
  exact ⟨names_of_mem given.routes found, place ▸ pageAt_ne (by simpa using List.of_mem_filter member)⟩

/-- Two builds of sites that differ in the page of one route, in whatever order the routes are taken, tell the same
of all other routes and give them the same documents. The output, the static files and the scripts lie apart from
the routes: none of them is in the routes directory or around it, and the way to the output does not lead through
the page itself, which would have to become a directory for that. -/
theorem failure_isolated (changed : List String)
    (same : SameBut first.directory (pageAt first.directory config changed) first second)
    (unnamed : Unnamed first config.routes) (output : Apart first.directory config.output config.routes)
    (static : Apart first.directory config.static config.routes)
    (scripts : Apart first.directory config.scripts config.routes)
    (past : ¬ Passes first.directory config.output (pageAt first.directory config changed)) (one two : Schedule)
    (arrange : Arrangement) :
    AlikeBut changed ((buildIn one config arrange).on first).1 ((buildIn two config arrange).on second).1 ∧
      ∀ names, names ≠ changed → ∀ name ∈ [markupName, stylesName],
        ((buildIn two config arrange).on second).2.tree.at?
            (landing first.directory config.output ++ names ++ [name]) =
          ((buildIn one config arrange).on first).2.tree.at?
            (landing first.directory config.output ++ names ++ [name]) := by
  have outside : ¬ landing first.directory config.output <+: pageAt first.directory config changed :=
    output.not_prefix prefix_pageAt
  have clear : Clear config first.directory (pageAt first.directory config changed) := {
    output := fun outward => outward.elim past outside
    static := static.not_prefix prefix_pageAt
    scripts := scripts.not_prefix prefix_pageAt }
  have away (names : List String) (name : String) :
      landing first.directory config.output ++ names ++ [name] ≠ pageAt first.directory config changed := by
    rw [List.append_assoc]
    exact fun arrives => outside (arrives ▸ List.prefix_append _ _)
  obtain ⟨result, ready, ready', ended, ended', alike⟩ := (prepare_abreast same clear).ended
  rw [on_buildIn, on_buildIn, ended, ended']
  cases result with
  | error => exact ⟨.failed _, fun names _ name _ => alike.at? _ (away names name)⟩
  | ok placeholder =>
    have works' := same.symm.works
    rw [← same.also] at works'
    have given := ready_of_prepare same.works ended
    have given' := ready_of_prepare works' ended'
    have uncrossed := uncrossed_of_prepare same.works ended unnamed output
    have uncrossed' := uncrossed_of_prepare works' ended' (unnamed.same same) (same.also ▸ output)
    have found := routes_congr alike config.routes
    have other (route : Route) (member : route ∈ (routes ready config.routes).filter (·.names ≠ changed)) :=
      other_of_filter first.directory given member
    refine ⟨?_, fun names different name document => ?_⟩
    · have told := outcomes_of_order given uncrossed one
      have told' := outcomes_of_order given' uncrossed' two
      rw [found] at told'
      refine .built ?_
      rw [told, found, told', filter_noted, filter_noted]
      refine List.map_congr_left fun route member => ?_
      obtain ⟨proper, page⟩ := other route member
      have along := compileRoute_abreast alike placeholder route.depth clear.output proper page
      simp only [run_buildRoute, run_buildStep, along.result]
    · have kept := documents_of_order given uncrossed one different document
      have kept' := documents_of_order given' uncrossed' two different document
      rw [alike.directory] at kept
      rw [alike.also] at kept'
      dsimp only
      rw [kept, kept', found]
      exact (buildRoutes_same placeholder clear.output other alike).at? _ (away names name)

/-- A site, and the same site after one of its pages has been broken. -/
def postsSite : Disk := siteOf [[], ["posts"], ["posts", "first"]]

def brokenSite : Disk :=
  { postsSite with tree := postsSite.tree.put ["site", "routes", "posts"] skeletonName (.file "broken".toUTF8) }

theorem failure_isolated_posts :
    AlikeBut ["posts"] ((buildIn .asFound {} .byName).on postsSite).1
        ((buildIn ⟨List.reverse, List.reverse_perm⟩ {} .byName).on brokenSite).1 ∧
      ((buildIn ⟨List.reverse, List.reverse_perm⟩ {} .byName).on brokenSite).2.tree.at?
          ["site", "build", "posts", "first", markupName] =
        ((buildIn .asFound {} .byName).on postsSite).2.tree.at? ["site", "build", "posts", "first", markupName] := by
  have lands : landing postsSite.directory ⟨"build"⟩ = ["site", "build"] := by decide +kernel
  have page : pageAt postsSite.directory {} ["posts"] = ["site", "routes", "posts"] ++ [skeletonName] := by
    decide +kernel
  have same : SameBut postsSite.directory (pageAt postsSite.directory {} ["posts"]) postsSite brokenSite := by
    rw [page]
    exact sameBut_put (by decide +kernel) (by decide +kernel) (by decide +kernel) (by decide) _
  obtain ⟨told, documents⟩ := failure_isolated ["posts"] same (by decide +kernel) (by decide +kernel)
    (by decide +kernel) (by decide +kernel) (by decide +kernel) .asFound ⟨List.reverse, List.reverse_perm⟩ .byName
  have kept := documents ["posts", "first"] (by decide) markupName (by decide)
  rw [lands] at kept
  exact ⟨told, kept⟩

/-- A site with a route below a directory that has no page yet, and the same site with that page. -/
def draftSite : Disk := siteOf [["a"]]

def writtenSite : Disk :=
  { draftSite with tree := draftSite.tree.put ["site", "routes"] skeletonName (.file "\x7b\x7d".toUTF8) }

/-- A way to the output that leads past the page. -/
def pastPage : BuildConfig := { output := ⟨"routes/skeleton.json/../../build"⟩ }

/-- The page in the way of the output: where it is missing a directory is made in its place and the other route is
built, and where it is there nothing is. -/
theorem page_bars_output :
    SameBut draftSite.directory (pageAt draftSite.directory pastPage []) draftSite writtenSite ∧
      Unnamed draftSite pastPage.routes ∧
      (∀ path ∈ [pastPage.output, pastPage.static, pastPage.scripts],
        Apart draftSite.directory path pastPage.routes) ∧
      ¬ AlikeBut [] ((buildIn .asFound pastPage .byName).on draftSite).1
        ((buildIn .asFound pastPage .byName).on writtenSite).1 ∧
      ((buildIn .asFound pastPage .byName).on writtenSite).2.tree.at? ["site", "build", "a", markupName] ≠
        ((buildIn .asFound pastPage .byName).on draftSite).2.tree.at? ["site", "build", "a", markupName] := by
  have page : pageAt draftSite.directory pastPage [] = ["site", "routes"] ++ [skeletonName] := by decide +kernel
  have same : SameBut draftSite.directory (pageAt draftSite.directory pastPage []) draftSite writtenSite := by
    rw [page]
    exact sameBut_put (by decide +kernel) (by decide +kernel) (by decide +kernel) (by decide) _
  obtain ⟨built, barred, other⟩ : ((buildIn .asFound pastPage .byName).on draftSite).1.isOk = true ∧
      ((buildIn .asFound pastPage .byName).on writtenSite).1.isOk = false ∧
      ((buildIn .asFound pastPage .byName).on writtenSite).2.tree.at? ["site", "build", "a", markupName] ≠
        ((buildIn .asFound pastPage .byName).on draftSite).2.tree.at? ["site", "build", "a", markupName] := by
    decide +kernel
  have apart : ¬ AlikeBut [] ((buildIn .asFound pastPage .byName).on draftSite).1
      ((buildIn .asFound pastPage .byName).on writtenSite).1 := fun alike =>
    absurd (built.symm.trans (alike.isOk.trans barred)) (by decide)
  exact ⟨same, by decide +kernel, by decide +kernel, apart, other⟩

end Isolation

end Pagewright.Site
