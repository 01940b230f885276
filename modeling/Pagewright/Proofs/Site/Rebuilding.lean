import Pagewright.Proofs.Site.Stage

/-! A build that is run again on what it has made. It comes to the same report and leaves all files as they are. -/

namespace Pagewright.Site

open Files Expansion
open Markup (Documents)

variable {first second disk after : Disk} {config : BuildConfig} {placeholder : Placeholder} {source path : Path}
variable {names : List String} {root here : Location} {route : Route} {arrange : Arrangement}

section Assets

variable (stage : Stage config root first)
include stage

/-- A file from a source is copied into the output again. -/
theorem copyFile_repeats {parts : List String} (names : List String) (last : String)
    (given : Source root first source) (plain : ∀ name ∈ parts, IsEntryName name)
    (proper : ∀ part ∈ names ++ [last], IsEntryName part)
    (present : (first.tree.at? (root ++ names)).isSome = true) :
    Repeats root (copyFile (pathBelow source parts) (pathBelow config.output (names ++ [last]))).on first := by
  have reads {disk : Disk} (grown : Grown first disk) :
      Repeats root (look (·.read (pathBelow source parts))).on disk :=
    .look fun _ same later => (given.grows grown).read (stage.grows grown).ready.works same later plain
  have writes {disk : Disk} (grown : Grown first disk) (content : ByteArray) :
      Repeats root (writeFile (pathBelow config.output (names ++ [last])) content).on disk :=
    writeFile_repeats (stage.grows grown) names last proper (grown.isSome present) content
  refine (reads (.refl first)).bind fun _ disk _ grown => ?_
  refine (writes grown .empty).bind fun _ disk _ later => ?_
  have grown := grown.trans later
  exact (reads grown).bind fun content disk _ later => writes (grown.trans later) content

omit stage in
theorem undotted_copy {base : Path} {name : String} (named : IsEntryName name)
    (proper : ∀ part ∈ names, IsEntryName part) :
    ((base.join ⟨name⟩).join ⟨"/".intercalate names⟩).Undotted := by
  by_cases top : names = []
  · subst top
    have single : ∀ part ∈ [name], IsEntryName part := by simpa using named
    have first := undotted_pathBelow base single (by simp)
    rw [pathBelow_cons, pathBelow_nil, Path.Undotted] at first
    rwa [Path.Undotted, String.intercalate_nil, filter_pieces_join_empty]
  · rw [join_intercalate proper top]
    have every : ∀ part ∈ name :: names, IsEntryName part := by simpa using ⟨named, proper⟩
    have whole := undotted_pathBelow base every (by simp)
    rwa [pathBelow_cons] at whole

/-- What has been made is there. -/
theorem present_of_makeDirectories (continues : Continues path config.output names)
    (made : (makeDirectories path).on first = (.ok ⟨⟩, after)) : (after.tree.at? (root ++ names)).isSome = true := by
  have grows := makeDirectories_grows path first
  rw [made] at grows
  have opens := opens_of_makeDirectories stage.ready.works made
  have there := (opens.follows (stage.grows grows).ready.works).2.1
  rw [continues.landing_eq, (stage.grows grows).lands] at there
  rw [there]
  rfl

theorem copyWithin_repeats (depth : Nat) {isFile : Bool} (below : isFile = true → names ≠ [])
    (proper : ∀ name ∈ names, IsEntryName name)
    (present : names ≠ [] → (first.tree.at? (root ++ "static" :: names.dropLast)).isSome = true) :
    Repeats root (copyWithin arrange config.static (config.output.join ⟨"static"⟩) depth names isFile).on first := by
  have static : IsEntryName "static" := by decide
  induction depth generalizing names isFile first with
  | zero => exact .pure 0
  | succ depth ih =>
    have works := stage.ready.works
    rw [copyWithin]
    split
    next file =>
      have below := below file
      have place := present below
      rw [join_intercalate proper below]
      obtain ⟨front, last, rfl⟩ := (List.eq_nil_or_concat' names).resolve_left below
      rw [List.dropLast_concat] at place
      refine .bind (.withError _ ?_) fun _ _ _ _ => .pure 1
      exact copyFile_repeats stage ("static" :: front) last stage.static proper (by simpa [static] using proper) place
    next =>
      have continues : Continues ((config.output.join ⟨"static"⟩).join ⟨"/".intercalate names⟩) config.output
          ("static" :: names) := (Continues.joined proper).trans (.single static)
      have target := makeDirectories_repeats stage continues fun _ => undotted_copy static proper
      refine .bind (.withError _ target) fun _ one made grown => ?_
      have there := present_of_makeDirectories stage continues (OnDisk.ok_of_withError made)
      have stage' := stage.grows grown
      have listing : Repeats root (look (itemsIn · (pathBelow config.static names))).on one :=
        .look fun _ same later => stage'.static.itemsIn stage'.ready.works same later proper
      refine .bind (.withError _ listing) fun items two listed later => ?_
      refine .bind (.mapM fun item member disk further => ?_) fun _ _ _ _ => .pure _
      have named := itemsIn_named (OnDisk.of_look listed) item ((arrange.perm names items).mem_iff.mp member)
      have onward := later.trans further
      refine ih (stage'.grows onward) (fun _ => by simp) ?_ fun _ => ?_
      · simp_all [or_imp]
      · rw [List.dropLast_concat]
        exact Grown.isSome onward there

theorem copyDirectory_repeats (directory : first.isDirectory config.static = true) :
    Repeats root (copyDirectory config.static (config.output.join ⟨"static"⟩) arrange).on first := by
  have found : Repeats root (look (·.find config.static)).on first :=
    .look fun _ same later => by
      simpa only [pathBelow_nil] using stage.static.find stage.ready.works same later (List.forall_mem_nil IsEntryName)
  refine .bind (.withError _ found) fun _ one looked grown => ?_
  have kind := OnDisk.of_look looked
  rw [Disk.isDirectory_iff.mp directory] at kind
  cases kind
  exact copyWithin_repeats (stage.grows grown) longestPath nofun (by simp) (absurd rfl)

theorem copyFavicon_repeats : Repeats root (copyFavicon config.static config.output).on first := by
  have plain : ∀ name ∈ ["favicon", "favicon.ico"], IsEntryName name := by decide
  have works := stage.ready.works
  refine .get ?_ fun second same grown => ?_
  case refine_2 =>
    have alike := stage.static.isFile works same grown plain
    simp only [pathBelow_cons, pathBelow_nil] at alike
    rw [alike]
  split
  next => exact .pure false
  next =>
    have present : (first.tree.at? (root ++ [])).isSome = true := by rw [List.append_nil, stage.directory]; rfl
    have copied := copyFile_repeats stage [] "favicon.ico" stage.static plain (by decide) present
    simp only [List.nil_append, pathBelow_cons, pathBelow_nil] at copied
    exact .bind copied fun _ _ _ _ => .pure true

theorem placeClientScript_repeats : Repeats root (placeClientScript config.scripts config.output).on first := by
  have named : ∀ name ∈ [clientScriptName], IsEntryName name := by decide
  have proper : ∀ name ∈ ["scripts", clientScriptName], IsEntryName name := by decide
  have continues : Continues (config.output.join ⟨"scripts"⟩) config.output ["scripts"] := .single (by decide)
  have directory : ∀ name ∈ ["scripts"], IsEntryName name := by decide
  have undotted := undotted_pathBelow config.output directory (by simp)
  rw [pathBelow_cons, pathBelow_nil] at undotted
  have made := makeDirectories_repeats stage continues fun _ => undotted
  refine .bind made fun _ one ended grown => ?_
  have there := present_of_makeDirectories stage continues ended
  have stage := stage.grows grown
  refine .get ?_ fun second same later => ?_
  case refine_2 =>
    have alike := stage.scripts.isFile stage.ready.works same later named
    simp only [pathBelow_cons, pathBelow_nil] at alike
    rw [alike]
  split
  next =>
    have copied := copyFile_repeats stage ["scripts"] clientScriptName stage.scripts named proper there
    simp only [List.cons_append, List.nil_append, pathBelow_cons, pathBelow_nil] at copied
    exact .bind copied fun _ _ _ _ => .pure true
  next =>
    have written := writeFile_repeats stage ["scripts"] clientScriptName proper there clientScript.toUTF8
    simp only [List.cons_append, List.nil_append, pathBelow_cons, pathBelow_nil] at written
    exact .bind written fun _ _ _ _ => .pure false

theorem copyAssets_repeats : Repeats root (copyAssets config arrange).run first := by
  let furnish (disk : Disk) : Unit × Disk :=
    if disk.isDirectory config.static then
      ((), ((copyDirectory config.static (config.output.join ⟨"static"⟩) arrange).on disk).2)
    else ((), disk)
  have furnished : Repeats root furnish first := by
    have alike (second : Disk) (same : SameOutside root first second) (grown : Grown first second) :
        second.isDirectory config.static = first.isDirectory config.static := by
      simpa only [pathBelow_nil] using
        stage.static.isDirectory stage.ready.works same grown (List.forall_mem_nil IsEntryName)
    cases directory : first.isDirectory config.static with
    | true =>
      refine (copyDirectory_repeats stage directory).forget.congr (if_pos directory) fun second same grown => ?_
      exact if_pos ((alike second same grown).trans directory)
    | false =>
      refine (Repeats.stay ()).congr (by simp [furnish, directory]) fun second same grown => ?_
      simp [furnish, alike second same grown, directory]
  have stage' := stage.grows furnished.grows
  have icon := copyFavicon_repeats stage'
  have script := placeClientScript_repeats (stage'.grows icon.grows)
  have whole : (copyAssets config arrange).run = fun disk =>
      ((), ((placeClientScript config.scripts config.output).on
        ((copyFavicon config.static config.output).on (furnish disk).2).2).2) := by
    funext disk
    refine Prod.ext rfl ?_
    rw [run_copyAssets]
    dsimp only [furnish]
    split <;> rfl
  rw [whole]
  exact furnished.andThen
    (fun _ disk => ((), ((placeClientScript config.scripts config.output).on
      ((copyFavicon config.static config.output).on disk).2).2))
    (icon.andThen (fun _ disk => ((), ((placeClientScript config.scripts config.output).on disk).2)) script.forget)

end Assets

section Routes

/-- What stands in the way stays there. -/
theorem obstacle?_kept {cause : FileError} (stopped : obstacle? first.tree here names = some cause)
    (grown : Grown first second) : obstacle? second.tree here names = some cause := by
  induction names generalizing here with
  | nil => cases stopped
  | cons name rest ih =>
    rw [obstacle?] at stopped ⊢
    cases found : first.tree.at? (here ++ [name]) with
    | none =>
      rw [found] at stopped
      cases stopped
    | some entry =>
      rw [found] at stopped
      cases entry with
      | directory =>
        rw [grown.isDirectory found]
        exact ih stopped
      | file content =>
        obtain ⟨changed, kept, _⟩ := grown.isFile found
        rwa [kept]

variable (stage : Stage config root first)
include stage

/-- The output directory of a route that has been made is there, and what has kept it from being made still does. -/
theorem openOutput_repeats (proper : ∀ name ∈ route.names, IsEntryName name) :
    Repeats root (openOutput · (route.output config.output)) first := by
  have outcome {disk : Disk} (stage : Stage config root disk) :=
    openOutput_cases stage.ready.works stage.ready.output proper
  have one := outcome stage
  cases blocked : blocked? first config.output (route.output config.output) route.names with
  | some cause =>
    rw [blocked] at one
    refine (Repeats.stay (.error cause)).congr one fun second same grown => ?_
    have two := outcome (stage.grows grown)
    have still : blocked? second config.output (route.output config.output) route.names = some cause := by
      unfold blocked? at blocked ⊢
      rw [grown.directory]
      split at blocked
      next long => rwa [if_pos long]
      next short =>
        rw [if_neg short]
        exact obstacle?_kept blocked grown
    rwa [still] at two
  | none =>
    rw [blocked, stage.lands] at one
    obtain ⟨after, opened, moves⟩ := one
    refine ⟨by rw [opened]; exact stage.grows_fill List.prefix_rfl moves, fun second same grown => ?_⟩
    rw [opened] at grown ⊢
    have there : (second.tree.at? (root ++ route.names)).isSome = true := grown.isSome moves.fill_isSome
    have stage' := (stage.grows moves.grows).grows grown
    have free : blocked? second config.output (route.output config.output) route.names = none := by
      unfold blocked? at blocked ⊢
      split at blocked
      next => cases blocked
      next short =>
        rw [if_neg short, stage'.lands]
        exact obstacle?_of_present there
    have two := outcome stage'
    rw [free, stage'.lands] at two
    obtain ⟨final, again, also⟩ := two
    rw [again, also.fill_still there]
    exact again_of_fill moves _ grown

/-- The documents of a route are written again. -/
theorem writeDocuments_repeats (proper : ∀ name ∈ route.names, IsEntryName name)
    (present : (first.tree.at? (root ++ route.names)).isSome = true) (documents : Documents) :
    Repeats root (writeDocuments · (route.output config.output) documents) first := by
  have writes {disk : Disk} (grown : Grown first disk) {name : String} (document : name ∈ [markupName, stylesName])
      (text : String) : Repeats root (writeDocument ((route.output config.output).join ⟨name⟩) text).on disk := by
    rw [output_join proper (isEntryName_document name document)]
    exact .withError _ (writeFile_repeats (stage.grows grown) route.names name (isEntryName_of_document proper document)
      (grown.isSome present) text.toUTF8)
  have marked := writes (.refl first) List.mem_cons_self documents.html
  have both := marked.bind fun _ _ _ grown =>
    (writes grown (List.mem_cons_of_mem markupName List.mem_cons_self) documents.css).bind fun _ _ _ _ => .pure documents
  exact both.congr (on_writeDocuments _ _ _).symm fun second _ _ => (on_writeDocuments _ _ second).symm

theorem compileRoute_repeats (proper : ∀ name ∈ route.names ++ [skeletonName], IsEntryName name)
    (placed : route.source.join ⟨skeletonName⟩ = pathBelow config.routes (route.names ++ [skeletonName])) :
    Repeats root (compileRoute placeholder route.source (route.output config.output) route.depth).on first := by
  have page (second : Disk) (same : SameOutside root first second) (grown : Grown first second) :
      compilePage placeholder second route.source route.depth = compilePage placeholder first route.source route.depth :=
    compilePage_congr _ (by rw [placed]; exact stage.routes.fileAt? stage.ready.works same grown proper)
  have proper : ∀ name ∈ route.names, IsEntryName name := fun name member => proper name (List.mem_append_left _ member)
  cases compiled : compilePage placeholder first route.source route.depth with
  | error error =>
    refine (Repeats.stay (.error error)).congr (by rw [on_compileRoute, compiled]) fun second same grown => ?_
    rw [on_compileRoute, page second same grown, compiled]
  | ok documents =>
    let further (opened : Except FileError Unit) (disk : Disk) : Except BuildError Documents × Disk :=
      match opened with
      | .error cause => (.error (.write (route.output config.output) cause), disk)
      | .ok _ => writeDocuments disk (route.output config.output) documents
    have run {disk : Disk} (compiled : compilePage placeholder disk route.source route.depth = .ok documents) :
        (compileRoute placeholder route.source (route.output config.output) route.depth).on disk =
          further (openOutput disk (route.output config.output)).1 (openOutput disk (route.output config.output)).2 := by
      rw [on_compileRoute, compiled]
      dsimp only [further]
      rcases openOutput disk (route.output config.output) with ⟨_ | _, _⟩ <;> rfl
    have opening := openOutput_repeats stage proper
    have whole := opening.andThen further ?_
    · exact whole.congr (run compiled) fun second same grown => run ((page second same grown).trans compiled)
    have grows := opening.grows
    have cases := openOutput_cases stage.ready.works stage.ready.output proper
    split at cases
    next cause _ =>
      rw [cases]
      exact .stay _
    next =>
      obtain ⟨opened, ended, moves⟩ := cases
      rw [ended] at grows ⊢
      exact writeDocuments_repeats (stage.grows grows) proper (stage.lands ▸ moves.fill_isSome) documents

theorem buildRoute_repeats (proper : ∀ name ∈ route.names ++ [skeletonName], IsEntryName name)
    (placed : route.source.join ⟨skeletonName⟩ = pathBelow config.routes (route.names ++ [skeletonName])) :
    Repeats root (buildRoute placeholder config.output route).run first := by
  have whole : (buildRoute placeholder config.output route).run = fun disk =>
      ((route, .of ((buildStep placeholder config.output route).run disk).1),
        ((buildStep placeholder config.output route).run disk).2) :=
    funext fun disk => run_buildRoute placeholder config.output route disk
  rw [whole]
  exact (compileRoute_repeats stage proper placed).andThen (fun result disk => ((route, Outcome.of result), disk))
    (.stay _)

/-- The routes that are found do not depend on what is in the output. -/
theorem routes_kept (same : SameOutside root first second) (grown : Grown first second) :
    routes second config.routes = routes first config.routes := by
  have works := stage.ready.works
  have found := Disk.isDirectory_iff.mp stage.ready.routes
  have again := stage.routes.find works same grown (List.forall_mem_nil IsEntryName)
  rw [pathBelow_nil] at again
  have here : first.directory? config.routes = some (landing first.directory config.routes) := by
    rw [Disk.directory?, found]
  have there : second.directory? config.routes = some (landing first.directory config.routes) := by
    rw [Disk.directory?, again, found]
  rw [routes, routes, here, there]
  refine congrArg (fun found => ([] :: found).map _) (FileTree.filterMap_below_congr fun names nonempty => ?_)
  rw [same.at? _ (stage.routes.outside _ (by exact List.prefix_append _ _))]
  cases entered : first.tree.at? (landing first.directory config.routes ++ names) with
  | none => rfl
  | some entry =>
    cases entry with
    | file => rfl
    | directory =>
      have proper : ∀ name ∈ names.dropLast, IsEntryName name := fun name member =>
        FileTree.isEntryName_of_mem (by rw [entered]; rfl) (List.mem_of_mem_dropLast member)
      simp only [Option.bind_some, stage.routes.isDirectory works same grown proper]

theorem buildRoutes_repeats :
    Repeats root (fun disk => ((routes disk config.routes).mapM (buildRoute placeholder config.output)).run disk)
      first := by
  have directory := stage.ready.routes
  have each : Repeats root ((routes first config.routes).mapM (buildRoute placeholder config.output)).run first :=
    .run_mapM fun route found disk grown =>
      buildRoute_repeats (stage.grows grown) (isEntryName_of_page directory found) (source_join directory found)
  exact each.congr rfl fun second same grown => by rw [routes_kept stage same grown]

end Routes

section Again

/-- What is done once the output directory is there. -/
def finish (config : BuildConfig) (arrange : Arrangement) (placeholder : Placeholder) (disk : Disk) :
    List (Route × Outcome) × Disk :=
  let furnished := ((copyAssets config arrange).run disk).2
  ((routes furnished config.routes).mapM (buildRoute placeholder config.output)).run furnished

theorem finish_repeats (stage : Stage config root first) : Repeats root (finish config arrange placeholder) first := by
  have assets : Repeats root (copyAssets config arrange).run first := copyAssets_repeats stage
  exact assets.andThen
    (fun _ disk => ((routes disk config.routes).mapM (buildRoute placeholder config.output)).run disk)
    (buildRoutes_repeats (stage.grows assets.grows))

/-- A build finds its routes directory, makes its output directory and does the rest there. -/
theorem on_build_finish (config : BuildConfig) (arrange : Arrangement) (disk : Disk) :
    (build config arrange).on disk =
      match Placeholder.ofString? config.placeholder with
      | none => (.error .emptyPlaceholder, disk)
      | some placeholder =>
        if disk.isDirectory config.routes then
          match (makeDirectories config.output).on disk with
          | (.error cause, base) => (.error (.write config.output cause), base)
          | (.ok _, base) =>
            (.ok { outcomes := (finish config arrange placeholder base).1, output := config.output },
              (finish config arrange placeholder base).2)
        else (.error (.noRoutes config.routes), disk) := by
  rw [on_build, on_prepare]
  cases Placeholder.ofString? config.placeholder with
  | none => rfl
  | some placeholder =>
    dsimp only
    by_cases directory : disk.isDirectory config.routes = true
    · rw [if_pos directory, if_pos directory]
      rcases (makeDirectories config.output).on disk with ⟨_ | _, base⟩ <;> rfl
    · rw [if_neg directory, if_neg directory]

theorem Source.of_apart (apart : Apart disk.directory config.output source)
    (steady : Steady disk (landing disk.directory config.output) source) :
    Source (landing disk.directory config.output) disk source where
  outside _ below inside :=
    (List.prefix_or_prefix_of_prefix below inside.1).elim apart.2 apart.1
  steady := steady

/-- A build changes nothing when it is run again: it comes to the same report, and every file and directory is as it
was. -/
theorem build_again {report : Report} (works : disk.tree.at? disk.directory = some .directory)
    (routes : Apart disk.directory config.output config.routes)
    (static : Apart disk.directory config.output config.static)
    (scripts : Apart disk.directory config.output config.scripts)
    (steadyStatic : Steady disk (landing disk.directory config.output) config.static)
    (steadyScripts : Steady disk (landing disk.directory config.output) config.scripts)
    (built : (build config arrange).on disk = (.ok report, after)) :
    (build config arrange).on after = (.ok report, after) := by
  rw [on_build_finish] at built ⊢
  cases named : Placeholder.ofString? config.placeholder with
  | none =>
    rw [named] at built
    cases built
  | some placeholder =>
    rw [named] at built
    dsimp only at built ⊢
    by_cases directory : disk.isDirectory config.routes = true
    · rw [if_pos directory] at built
      have grows := makeDirectories_grows config.output disk
      rcases made : (makeDirectories config.output).on disk with ⟨cause | _, base⟩
      · rw [made] at built
        cases built
      · rw [made] at built grows
        obtain ⟨same, rfl⟩ := Prod.mk.inj built
        have stage : Stage config (landing disk.directory config.output) base :=
          { ready := ⟨grows.directory ▸ grows.isDirectory works, isDirectory_grows grows directory,
              opens_of_makeDirectories works made⟩
            lands := by rw [grows.directory]
            routes := (Source.of_apart routes (.inl directory)).grows grows
            static := (Source.of_apart static steadyStatic).grows grows
            scripts := (Source.of_apart scripts steadyScripts).grows grows }
        have repeats : Repeats _ (finish config arrange placeholder) base := finish_repeats stage
        have ready := (stage.grows repeats.grows).ready
        rw [if_pos ready.routes, on_makeDirectories_of_opens ready.output]
        dsimp only
        rw [repeats.eq]
        exact congrArg (·, _) same
    · rw [if_neg directory] at built
      cases built

/-- A site with a route that is called like the assets, and an asset that is called like a document. -/
def assetSite : Disk :=
  let site := siteOf [[], ["static"]]
  let furnished := site.tree.putDirectories [] ["site", "static"]
  let named := furnished.put ["site", "static"] markupName (.file "mine".toUTF8)
  { site with tree := named.put ["site", "static"] "a.txt" (.file "mine".toUTF8) }

theorem build_again_assets :
    ∃ report after, (build {}).on assetSite = (.ok report, after) ∧
      after.tree.at? ["site", "build", "static", "a.txt"] = some (.file "mine".toUTF8) ∧
      (build {}).on after = (.ok report, after) := by
  obtain ⟨done, copied⟩ : ((build {}).on assetSite).1.isOk = true ∧
      ((build {}).on assetSite).2.tree.at? ["site", "build", "static", "a.txt"] = some (.file "mine".toUTF8) := by
    decide +kernel
  cases built : (build {}).on assetSite with
  | mk result after =>
    rw [built] at done copied
    cases result with
    | error => cases done
    | ok report =>
      refine ⟨report, after, rfl, copied, ?_⟩
      exact build_again (by decide +kernel) (by decide +kernel) (by decide +kernel) (by decide +kernel)
        (by decide +kernel) (by decide +kernel) built

/-- A way to the assets through the output that is only opened by a build: the next one copies them. -/
theorem build_opens_way :
    let config : BuildConfig := { static := ⟨"build/static/../../static"⟩ }
    let first := (build config).on assetSite
    let second := (build config).on first.2
    (∀ source ∈ [config.routes, config.static, config.scripts], Apart assetSite.directory config.output source) ∧
      first.1.isOk = true ∧ first.2.tree.at? ["site", "build", "static", "a.txt"] = none ∧
      second.2.tree.at? ["site", "build", "static", "a.txt"] = some (.file "mine".toUTF8) := by
  decide +kernel

end Again

end Pagewright.Site
