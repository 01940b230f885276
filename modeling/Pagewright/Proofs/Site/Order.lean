import Pagewright.Proofs.Site.Alike
import Pagewright.Proofs.Site.Building

/-! Routes one after another. A route does the same whatever the others have done before, as long as no route
goes through the place of another one's document, so the order of the routes does not matter. -/

namespace Pagewright.Site

open Files Expansion

variable {disk after ready : Disk} {root : Path} {here location : Location} {route other : Route}
variable {config : BuildConfig} {placeholder : Placeholder} {arrange : Arrangement}

/-- A route that goes through the place of another one's document. -/
def Route.Crosses (route other : Route) : Prop :=
  ∃ name ∈ [markupName, stylesName], other.names ++ [name] <+: route.names

instance (route other : Route) : Decidable (route.Crosses other) :=
  inferInstanceAs (Decidable (∃ name ∈ [markupName, stylesName], other.names ++ [name] <+: route.names))

section Crossing

theorem IsDocument.crosses (placed : IsDocument here other.names location) (within : location <+: here ++ route.names) :
    route.Crosses other := by
  obtain ⟨name, document, rfl⟩ := placed
  rw [List.append_assoc] at within
  exact ⟨name, document, (List.prefix_append_right_inj _).mp within⟩

/-- After another route a disk offers a route the same, unless one of them crosses the other. -/
theorem alike_of_grows
    (grows : Grows (· <+: landing disk.directory root ++ other.names)
      (IsDocument (landing disk.directory root) other.names) disk after)
    (apart : ¬ route.Crosses other) (also : ¬ other.Crosses route) (different : route.names ≠ other.names) :
    Alike root route.names disk after where
  directory := grows.directory
  way location within := (grows.change location).mono (fun _ => trivial) fun placed => apart (placed.crosses within)
  document location placed := by
    have change := grows.change location
    generalize disk.tree.at? location = old at change ⊢
    generalize after.tree.at? location = new at change ⊢
    cases change with
    | same => rfl
    | directory allowed => exact absurd (placed.crosses allowed) also
    | file allowed => exact absurd (placed.names_eq allowed) different

/-- What two routes do to a location does not depend on their order. -/
theorem Deposits.comm {effect next : Option Entry → Option Entry}
    (first : Deposits here route.names location effect) (second : Deposits here other.names location next)
    (apart : ¬ route.Crosses other) (also : ¬ other.Crosses route) (different : route.names ≠ other.names)
    (entry : Option Entry) : effect (next entry) = next (effect entry) := by
  cases first with
  | nothing => rfl
  | directory within =>
    cases second with
    | nothing => rfl
    | directory => rfl
    | document placed => exact absurd (placed.crosses within) apart
  | document placed =>
    cases second with
    | nothing => rfl
    | directory within => exact absurd (placed.crosses within) also
    | document again => exact absurd (placed.names_eq again) different

end Crossing

section Turns

theorem twin_of_grows {directories files : Location → Prop} (ready : Ready config disk)
    (grows : Grows directories files disk after) : Twin config.output disk after where
  directory := grows.directory
  works := ready.works
  also := (ready.grows grows).works
  opens := ready.output
  open' := (ready.grows grows).output

variable (given : Ready config ready)
include given

/-- A route does the same after another one as before it, if neither crosses the other. -/
theorem buildStep_along (placeholder : Placeholder) (found : route ∈ routes ready config.routes)
    (also : other ∈ routes ready config.routes) (names : route.names ≠ other.names) (clear : ¬ route.Crosses other)
    (clear' : ¬ other.Crosses route) (built : Built ready disk) :
    Along (landing disk.directory config.output) route.names disk
      ((buildStep placeholder config.output other).run disk).2 ((buildStep placeholder config.output route).run disk)
      ((buildStep placeholder config.output route).run ((buildStep placeholder config.output other).run disk).2) := by
  have grows := buildStep_grows given placeholder built also
  refine compileRoute_along placeholder route.source route.depth (twin_of_grows (given.grows built) grows)
    (alike_of_grows grows clear clear' names) (names_of_mem given.routes found) ?_
  exact ((built.grows grows).page given found).trans (built.page given found).symm

/-- Two routes can change places, unless both have a page and one of them crosses the other. -/
theorem swaps_buildStep (found : route ∈ routes ready config.routes) (also : other ∈ routes ready config.routes)
    (different : route ≠ other)
    (apart : Compiles placeholder ready route → Compiles placeholder ready other →
      ¬ route.Crosses other ∧ ¬ other.Crosses route)
    (built : Built ready disk) :
    Swaps (buildStep placeholder config.output route) (buildStep placeholder config.output other) disk := by
  have grows := buildStep_grows given placeholder built found
  have grows' := buildStep_grows given placeholder built also
  by_cases compiles : Compiles placeholder ready route
  case neg =>
    obtain ⟨error, idle⟩ := buildStep_of_not_compiles given found compiles
    have later := idle _ (built.grows grows')
    exact ⟨by rw [later, idle disk built], by rw [later, idle disk built]⟩
  by_cases compiles' : Compiles placeholder ready other
  case neg =>
    obtain ⟨error, idle⟩ := buildStep_of_not_compiles given also compiles'
    have later := idle _ (built.grows grows)
    exact ⟨by rw [idle disk built], by rw [later, idle disk built]⟩
  obtain ⟨clear, clear'⟩ := apart compiles compiles'
  have names : route.names ≠ other.names := fun same => different (eq_of_names given.routes found also same)
  have along := buildStep_along given placeholder found also names clear clear' built
  have along' := buildStep_along given placeholder also found names.symm clear' clear built
  refine ⟨along.result, ?_⟩
  obtain ⟨effect, moves, further, deposits⟩ := along.effect
  obtain ⟨effect', moves', further', deposits'⟩ := along'.effect
  refine (moves.trans further').eq (moves'.trans further) fun location entry => ?_
  exact (deposits location).comm (deposits' location) clear clear' names entry

theorem orderly_buildStep
    (clear : ∀ route ∈ routes ready config.routes, ∀ other ∈ routes ready config.routes,
      Compiles placeholder ready route → Compiles placeholder ready other → ¬ route.Crosses other) :
    Orderly (buildStep placeholder config.output) (routes ready config.routes) (Built ready) where
  kept _ found _ built := built.grows (buildStep_grows given placeholder built found)
  swaps route found other also different _ built := by
    refine swaps_buildStep given found also different (fun compiles compiles' => ⟨?_, ?_⟩) built
    · exact clear route found other also compiles compiles'
    · exact clear other also route found compiles' compiles

end Turns

section Orders

/-- In whatever order the routes of a site are compiled, each has the same result and the files are the same in the
end, as long as no route with a page goes through the place of another one's document. -/
theorem routes_in_any_order (works : disk.tree.at? disk.directory = some .directory)
    (prepared : (prepare config arrange).on disk = (.ok placeholder, ready))
    (clear : ∀ route ∈ routes ready config.routes, ∀ other ∈ routes ready config.routes,
      Compiles placeholder ready route → Compiles placeholder ready other → ¬ route.Crosses other) :
    ∃ result after, ∀ order : List Route, order.Perm (routes ready config.routes) →
      (order.mapM (buildStep placeholder config.output)).run ready = (order.map result, after) :=
  have given := ready_of_prepare works prepared
  (orderly_buildStep given clear).exists_run (nodup_routes ready config.routes) (.refl ready)

theorem routes_in_any_order_posts :
    (siteOf [[], ["posts"], ["posts", "first"]]).tree.at? ["site"] = some .directory ∧
      ∃ ready result after,
        (prepare {} .byName).on (siteOf [[], ["posts"], ["posts", "first"]]) = (.ok .standard, ready) ∧
        (∀ route ∈ routes ready ⟨"routes"⟩, ∀ other ∈ routes ready ⟨"routes"⟩, ¬ route.Crosses other) ∧
        ∀ order : List Route, order.Perm (routes ready ⟨"routes"⟩) →
          (order.mapM (buildStep .standard ⟨"build"⟩)).run ready = (order.map result, after) := by
  have works : (siteOf [[], ["posts"], ["posts", "first"]]).tree.at? ["site"] = some .directory := by decide +kernel
  have prepared : (prepare {} .byName).on (siteOf [[], ["posts"], ["posts", "first"]]) = (.ok .standard, _) :=
    exists_prepared (by decide +kernel) rfl
  have clear : ∀ route ∈ routes ((prepare {} .byName).on (siteOf [[], ["posts"], ["posts", "first"]])).2 ⟨"routes"⟩,
      ∀ other ∈ routes ((prepare {} .byName).on (siteOf [[], ["posts"], ["posts", "first"]])).2 ⟨"routes"⟩,
        ¬ route.Crosses other := by decide +kernel
  obtain ⟨result, after, run⟩ := routes_in_any_order works prepared
    fun route found other also _ _ => clear route found other also
  exact ⟨works, _, result, after, prepared, clear, run⟩

/-- The routes directory of a site, and one in it that is called like the document of the other. -/
def frontRoute : Route := ⟨⟨"routes"⟩, []⟩

def hiddenRoute : Route := ⟨⟨"routes/index.html"⟩, ["index.html"]⟩

/-- A route in the place of a document: which one of the two fails, and whether a file or a directory is left
there, is decided by their order. -/
theorem order_matters_for_hidden :
    ∃ ready, (prepare {} .byName).on (siteOf [[], ["index.html"]]) = (.ok .standard, ready) ∧
      routes ready ⟨"routes"⟩ = [frontRoute, hiddenRoute] ∧
      (([frontRoute, hiddenRoute].mapM (buildStep .standard ⟨"build"⟩)).run ready).1.map (·.isOk) = [true, false] ∧
      (([hiddenRoute, frontRoute].mapM (buildStep .standard ⟨"build"⟩)).run ready).1.map (·.isOk) = [true, false] ∧
      (([frontRoute, hiddenRoute].mapM (buildStep .standard ⟨"build"⟩)).run ready).2.tree.at?
          ["site", "build", "index.html"] ≠
        (([hiddenRoute, frontRoute].mapM (buildStep .standard ⟨"build"⟩)).run ready).2.tree.at?
          ["site", "build", "index.html"] := by
  refine ⟨_, exists_prepared (by decide +kernel) rfl, ?_⟩
  decide +kernel

end Orders

end Pagewright.Site
