import Pagewright.Command.Run
import Pagewright.Proofs.Site.Building

/-! What the report of a build says is so in the end. A route that counts as compiled has its documents, a route
that is skipped has no page that can be found, and all others have failed. -/

namespace Pagewright.Site

open Files Expansion
open Markup (Documents)

variable {disk ready after : Disk} {root : Path} {config : BuildConfig} {placeholder : Placeholder} {route : Route}
variable {arrange : Arrangement}

section Outcomes

theorem isFile_eq (disk : Disk) (path : Path) : disk.isFile path = (fileAt? disk path).isSome := by
  unfold Disk.isFile fileAt?
  cases disk.find path with
  | error => rfl
  | ok found =>
    obtain ⟨location, entry⟩ := found
    cases entry <;> rfl

theorem of_eq_skipped {result : Except BuildError Documents} :
    Outcome.of result = .skipped ↔ ∃ path, result = .error (.skeleton (.missing path)) := by
  unfold Outcome.of
  split <;> simp_all

theorem compilePage_missing (placeholder : Placeholder) (disk : Disk) (source path : Path) (depth : Nat) :
    compilePage placeholder disk source depth = .error (.skeleton (.missing path)) ↔
      fileAt? disk (source.join ⟨skeletonName⟩) = none ∧ source.join ⟨skeletonName⟩ = path := by
  rw [compilePage, loadPage_eq]
  cases fileAt? disk (source.join ⟨skeletonName⟩) with
  | none => simp [Except.mapError, bind, Except.bind]
  | some content =>
    dsimp only
    cases String.fromUTF8? content with
    | none => simp [Except.mapError, bind, Except.bind]
    | some text =>
      dsimp only
      cases Skeleton.Page.ofText text with
      | error fault => simp [Except.mapError, bind, Except.bind]
      | ok page =>
        simp only [Except.mapError, bind, Except.bind]
        cases Markup.compile placeholder depth page <;> simp

/-- After its page has been compiled a route can only fail to write. -/
theorem writeDocuments_ne_missing {output path : Path} {documents : Documents} :
    (writeDocuments disk output documents).1 ≠ .error (.skeleton (.missing path)) := by
  unfold writeDocuments
  split
  · nofun
  · split <;> nofun

/-- A route is skipped when there is no file with its page. -/
theorem skipped_iff (placeholder : Placeholder) (source output : Path) (depth : Nat) (disk : Disk) :
    Outcome.of ((compileRoute placeholder source output depth).on disk).1 = .skipped ↔
      disk.isFile (source.join ⟨skeletonName⟩) = false := by
  rw [of_eq_skipped, isFile_eq, on_compileRoute]
  cases page : compilePage placeholder disk source depth with
  | error error =>
    have missing := fun path => compilePage_missing placeholder disk source path depth
    simp only [page, Except.error.injEq] at missing
    simp [missing]
  | ok documents =>
    have found : fileAt? disk (source.join ⟨skeletonName⟩) ≠ none := by
      intro nothing
      have missing := (compilePage_missing placeholder disk source _ depth).mpr ⟨nothing, rfl⟩
      rw [page] at missing
      cases missing
    refine iff_of_false ?_ (by simpa [Option.isNone_iff_eq_none] using found)
    rintro ⟨path, missing⟩
    dsimp only at missing
    generalize openOutput disk output = step at missing
    obtain ⟨_ | _, opened⟩ := step
    · cases missing
    · exact writeDocuments_ne_missing missing

theorem compiled_iff {result : Except BuildError Documents} :
    Outcome.of result = .compiled ↔ ∃ documents, result = .ok documents := by
  unfold Outcome.of
  split <;> simp_all

/-- Both documents of a compiled route are there, as its page gives them. -/
theorem found_of_compileRoute (works : disk.tree.at? disk.directory = some .directory) (opens : Opens disk root)
    (proper : ∀ name ∈ route.names, IsEntryName name) {source : Path} {depth : Nat} {documents : Documents}
    (compiled : (compileRoute placeholder source (route.output root) depth).on disk = (.ok documents, after)) :
    compilePage placeholder disk source depth = .ok documents ∧
      fileAt? after ((route.output root).join ⟨markupName⟩) = some documents.html.toUTF8 ∧
      fileAt? after ((route.output root).join ⟨stylesName⟩) = some documents.css.toUTF8 := by
  have markup : markupName ∈ [markupName, stylesName] := by simp
  have styles : stylesName ∈ [markupName, stylesName] := by simp
  have grows := openOutput_grows works opens proper
  obtain ⟨page, middle, marked, made, first, second⟩ := compiled_steps compiled
  rw [made] at grows
  have works' := grows.directory ▸ grows.isDirectory works
  have marks := write_grows first
  obtain ⟨content, there, same | moved⟩ := (write_grows second).find (find_of_write works' first)
  · refine ⟨page, ?_, ?_⟩
    · rw [fileAt?, there, same]
    · rw [fileAt?, find_of_write (marks.directory ▸ marks.isDirectory works') second]
  · rw [marks.directory, output_join proper (isEntryName_document _ markup),
      output_join proper (isEntryName_document _ styles),
      landing_pathBelow (isEntryName_of_document proper markup),
      landing_pathBelow (isEntryName_of_document proper styles)] at moved
    simp [markupName, stylesName] at moved

end Outcomes

section Runs

variable {order : List Route}

theorem readText_of_fileAt? {path : Path} {text : String} (found : fileAt? disk path = some text.toUTF8) :
    disk.readText path = .ok text := by
  unfold fileAt? at found
  split at found
  next there =>
    cases found
    exact readText_of_find there
  next => cases found

/-- What a report says of a route, and what is so. -/
structure Truthful (placeholder : Placeholder) (output : Path) (disk : Disk) (entry : Route × Outcome) : Prop where
  compiled : entry.2 = .compiled → ∃ documents,
    compilePage placeholder disk entry.1.source entry.1.depth = .ok documents ∧
    disk.readText ((entry.1.output output).join ⟨markupName⟩) = .ok documents.html ∧
    disk.readText ((entry.1.output output).join ⟨stylesName⟩) = .ok documents.css
  skipped : entry.2 = .skipped ↔ disk.isFile (entry.1.source.join ⟨skeletonName⟩) = false

variable (given : Ready config ready) (found : ∀ route ∈ order, route ∈ routes ready config.routes)
include given found

/-- What is said of each route when it is built is still so when all of them are. -/
theorem truthful_buildRoutes (placeholder : Placeholder) (once : order.Nodup) (built : Built ready disk) :
    ∀ entry ∈ ((order.mapM (buildRoute placeholder config.output)).run disk).1,
      Truthful placeholder config.output ((order.mapM (buildRoute placeholder config.output)).run disk).2 entry := by
  induction order generalizing disk with
  | nil => nofun
  | cons route rest ih =>
    obtain ⟨here, others⟩ := List.forall_mem_cons.mp found
    obtain ⟨new, single⟩ := List.nodup_cons.mp once
    have now := given.grows built
    have proper := names_of_mem given.routes here
    have step := buildStep_grows given placeholder built here
    have ran := run_buildStep placeholder config.output route disk
    rw [run_mapM_cons, run_buildRoute]
    generalize (buildStep placeholder config.output route).run disk = taken at step ran
    obtain ⟨result, middle⟩ := taken
    have between : Built ready middle := built.grows step
    have later := buildRoutes_grows given others placeholder between
    have whole := built_buildRoutes given others placeholder between
    have before := ih others single between
    dsimp only at before ⊢
    generalize (rest.mapM (buildRoute placeholder config.output)).run middle = left at later whole before
    obtain ⟨noted, last⟩ := left
    intro entry member
    rcases List.mem_cons.mp member with rfl | inside
    · constructor
      · intro compiled
        obtain ⟨documents, same⟩ := compiled_iff.mp compiled
        rw [same] at ran
        obtain ⟨page, markup, styles⟩ := found_of_compileRoute now.works now.output proper ran.symm
        have kept (name : String) (document : name ∈ [markupName, stylesName]) :
            fileAt? last ((route.output config.output).join ⟨name⟩) =
              fileAt? middle ((route.output config.output).join ⟨name⟩) := by
          have reached := given.grows between
          rw [output_join proper (isEntryName_document name document)]
          refine fileAt?_grows reached.works reached.output (isEntryName_of_document proper document) (by simp) later ?_
          rintro ⟨other, member, _, placed⟩
          rw [between.directory, ← List.append_assoc] at placed
          have names := IsDocument.names_eq ⟨name, document, rfl⟩ placed
          exact new (eq_of_names given.routes here (others other member) names ▸ member)
        refine ⟨documents, ?_, readText_of_fileAt? ?_, readText_of_fileAt? ?_⟩
        · rw [whole.page given here, ← built.page given here, page]
        · rw [kept markupName (by simp), markup]
        · rw [kept stylesName (by simp), styles]
      · rw [show result = _ from congrArg Prod.fst ran, skipped_iff, isFile_eq, isFile_eq, built.fileAt? given here,
          whole.fileAt? given here]
    · exact before entry inside

end Runs

section Reports

variable {report : Report} {schedule : Schedule}

theorem Report.length_eq (report : Report) :
    report.compiled + report.skipped + report.failed = report.outcomes.length := by
  unfold compiled skipped failed count
  induction report.outcomes with
  | nil => rfl
  | cons entry rest ih =>
    obtain ⟨route, outcome⟩ := entry
    cases outcome <;> simp [Outcome.isFailure] at ih ⊢ <;> omega

theorem Report.hasFailures_eq_false (report : Report) :
    report.hasFailures = false ↔ ∀ entry ∈ report.outcomes, entry.2.isFailure = false := by
  rw [hasFailures, decide_eq_false_iff_not, Nat.not_lt, Nat.le_zero, failed, count, List.countP_eq_zero]
  simp

/-- The command that builds a site ends with 0 exactly when no route has failed. -/
theorem code_of_build {around : Command.Surroundings} {arguments : List String} {settings : Path} {output : Option Path}
    (asked : Command.readArguments arguments = .run settings (.build output))
    (built : ((Command.buildTask around settings output).on disk).1 = .ok report) :
    ((Command.run arguments around).run disk).1.code = 0 ↔ ∀ entry ∈ report.outcomes, entry.2.isFailure = false := by
  have ended : ((Command.runTask around settings (.build output)).on disk).1 = .ok (.built report) := by
    rw [Command.runTask, OnDisk.on_bind]
    generalize (Command.buildTask around settings output).on disk = taken at built
    obtain ⟨result, after⟩ := taken
    dsimp only at built
    rw [built]
    rfl
  have shown : ((Command.run arguments around).run disk).1 = Command.shown (.ok (.built report)) := by
    rw [Command.run, asked, ← ended]
    rfl
  rw [shown, ← report.hasFailures_eq_false, Command.shown]
  cases report.hasFailures <;> simp

/-- Where its path is not too long, a page that is not found is not there. -/
theorem isFile_skeleton (given : Ready config ready) (found : route ∈ routes ready config.routes)
    (grown : Ready config disk) (same : disk.directory = ready.directory)
    (short : (route.source.join ⟨skeletonName⟩).text.utf8ByteSize ≤ longestPath) :
    disk.isFile (route.source.join ⟨skeletonName⟩) = false ↔ ∀ content,
      disk.tree.at? (landing ready.directory config.routes ++ route.names ++ [skeletonName]) ≠
        some (.file content) := by
  have proper := isEntryName_of_page given.routes found
  rw [source_join given.routes found] at short ⊢
  rw [← Bool.not_eq_true, isFile_pathBelow grown.works (.inr grown.routes) proper (by simp), same, List.append_assoc]
  simp [short]

/-- The report of a build, in whatever order the routes were taken: it has one entry for each directory with a
route, and what it says of each is so in the end. -/
theorem report_truthful (works : disk.tree.at? disk.directory = some .directory)
    (built : (buildIn schedule config arrange).on disk = (.ok report, after)) :
    ∃ placeholder ready, (prepare config arrange).on disk = (.ok placeholder, ready) ∧
      report.outcomes.map Prod.fst = routes ready config.routes ∧
      (report.outcomes.map (·.1.names)).Nodup ∧
      (∀ names, names ∈ report.outcomes.map (·.1.names) ↔
        ready.tree.at? (landing ready.directory config.routes ++ names) = some .directory ∧
          (pathBelow config.routes names.dropLast).text.utf8ByteSize ≤ longestPath) ∧
      report.compiled + report.skipped + report.failed = report.outcomes.length ∧
      (∀ entry ∈ report.outcomes, Truthful placeholder config.output after entry ∧
        ((entry.1.source.join ⟨skeletonName⟩).text.utf8ByteSize ≤ longestPath →
          (entry.2 = .skipped ↔ ∀ content,
            after.tree.at? (landing ready.directory config.routes ++ entry.1.names ++ [skeletonName]) ≠
              some (.file content)))) ∧
      ∀ around arguments settings output start,
        Command.readArguments arguments = .run settings (.build output) →
        ((Command.buildTask around settings output).on start).1 = .ok report →
        (((Command.run arguments around).run start).1.code = 0 ↔
          ∀ entry ∈ report.outcomes, entry.2.isFailure = false) := by
  rw [on_buildIn] at built
  split at built
  next => cases built
  next placeholder ready prepared =>
    have given := ready_of_prepare works prepared
    have perm := schedule.perm (routes ready config.routes)
    have once := perm.nodup_iff.mpr (nodup_routes ready config.routes)
    have subset : ∀ route ∈ schedule.order (routes ready config.routes), route ∈ routes ready config.routes :=
      fun route member => perm.mem_iff.mp member
    have truthful := truthful_buildRoutes given subset placeholder once (.refl ready)
    have grows := buildRoutes_grows given subset placeholder (Grows.refl ready)
    have noted := map_fst_buildRoutes placeholder config.output (schedule.order (routes ready config.routes)) ready
    dsimp only at built
    generalize (StateT.run (List.mapM (buildRoute placeholder config.output)
      (schedule.order (routes ready config.routes))) ready) = run at *
    obtain ⟨done, last⟩ := run
    cases built
    rw [← noted] at once perm
    have listed := map_fst_inOrder once perm
    have names : (inOrder (routes ready config.routes) done).map (·.1.names) =
        (routes ready config.routes).map (·.names) := by
      conv => rhs; rw [← listed, List.map_map]
      rfl
    refine ⟨placeholder, ready, prepared, listed, ?_, ?_, Report.length_eq _, ?_, ?_⟩
    · rw [names]
      exact nodup_names given.routes
    · intro _
      rw [names, ← exists_route_iff given.routes given.works, List.mem_map]
    · intro entry member
      have said := truthful entry ((mem_inOrder once perm).mp member)
      have found : entry.1 ∈ routes ready config.routes := listed ▸ List.mem_map_of_mem member
      exact ⟨said, fun short =>
        said.skipped.trans (isFile_skeleton given found (given.grows grows) grows.directory short)⟩
    · intro around arguments settings output start asked
      exact code_of_build asked

theorem report_truthful_posts :
    ∃ report after,
      (buildIn ⟨List.reverse, List.reverse_perm⟩ {} .byName).on (siteOf [[], ["posts", "first"]]) =
        (.ok report, after) ∧
      report.outcomes.map (fun entry => (entry.1.names, entry.2)) =
        [([], .compiled), (["posts"], .skipped), (["posts", "first"], .compiled)] ∧
      ∀ entry ∈ report.outcomes, Truthful .standard ⟨"build"⟩ after entry := by
  have works : (siteOf [[], ["posts", "first"]]).tree.at? ["site"] = some .directory := by decide +kernel
  have outcomes :
      ((buildIn ⟨List.reverse, List.reverse_perm⟩ {} .byName).on (siteOf [[], ["posts", "first"]])).1.toOption.map
        (fun report => report.outcomes.map fun entry => (entry.1.names, entry.2)) =
        some [([], .compiled), (["posts"], .skipped), (["posts", "first"], .compiled)] := by
    decide +kernel
  cases built : (buildIn ⟨List.reverse, List.reverse_perm⟩ {} .byName).on (siteOf [[], ["posts", "first"]]) with
  | mk result after =>
    rw [built] at outcomes
    cases result with
    | error => cases outcomes
    | ok report =>
      obtain ⟨placeholder, ready, prepared, _, _, _, _, truthful, _⟩ := report_truthful works built
      cases placeholder_of_prepare prepared
      exact ⟨report, after, rfl, Option.some.inj outcomes, fun entry member => (truthful entry member).1⟩

/-- A path with slashes at its end. -/
def slashed (count : Nat) : Path := ⟨"routes" ++ String.ofList (List.replicate count '/')⟩

theorem filter_pieces_slashed (count : Nat) : (slashed count).pieces.filter (· ≠ "") = ["routes"] := by
  induction count with
  | zero => decide
  | succ count ih =>
    have longer : slashed (count + 1) = ⟨(slashed count).text ++ "/" ++ ""⟩ := by
      refine congrArg Path.mk (String.toList_injective ?_)
      simp [slashed, List.replicate_succ']
    rw [longer, Path.pieces_append, List.filter_append, ih]
    decide

theorem size_slashed (count : Nat) : (slashed count).text.utf8ByteSize = 6 + count := by
  have slashes : (String.ofList (List.replicate count '/')).utf8ByteSize = count := by
    induction count with
    | zero => rfl
    | succ count ih =>
      have single : Char.utf8Size '/' = 1 := by decide
      rw [List.replicate_succ, String.ofList_cons, String.utf8ByteSize_append, ih, String.utf8ByteSize_singleton]
      omega
  rw [slashed, String.utf8ByteSize_append, slashes]
  rfl

/-- Slashes at the end of a path lead nowhere else. -/
theorem isDirectory_slashed {count : Nat} (short : 6 + count ≤ longestPath) (start : disk.directory = ["site"])
    (there : disk.tree.at? ["site", "routes"] = some .directory) : disk.isDirectory (slashed count) = true := by
  have relative : (slashed count).isAbsolute = false := by simp [slashed, Path.isAbsolute]
  have target : disk.target (slashed count) = .ok (.entry ["site"] "routes") := by
    refine Disk.target_eq_ok.mpr ⟨⟨?_, ?_, ?_⟩, ?_⟩
    · simp [slashed]
    · simp [slashed, Path.isEmpty]
    · rwa [size_slashed]
    · rw [filter_pieces_slashed, origin, relative, start]
      exact .last (by decide) (by decide) (by decide)
  exact Disk.isDirectory_of_target target there

theorem not_isFile_of_long {path : Path} (long : longestPath < path.text.utf8ByteSize) : disk.isFile path = false := by
  unfold Disk.isFile
  split
  next found =>
    obtain ⟨_, followed, _⟩ := Disk.find_eq_ok.mp found
    exact absurd (Disk.target_eq_ok.mp followed).1.2.2 (Nat.not_le.mpr long)
  next => rfl

/-- A routes directory that can still be read while the path of its page is too long: the page is there to the
end, and the route is skipped. -/
theorem page_skipped_of_long {count : Nat} (short : 6 + count ≤ longestPath) (long : longestPath < 6 + count + 13) :
    ∃ report after, (build { routes := slashed count }).on (siteOf [[]]) = (.ok report, after) ∧
      (⟨slashed count, []⟩, .skipped) ∈ report.outcomes ∧
      ∃ content, after.tree.at? ["site", "routes", skeletonName] = some (.file content) := by
  have works : (siteOf [[]]).tree.at? ["site"] = some .directory := by decide +kernel
  have directory : (siteOf [[]]).isDirectory (slashed count) = true :=
    isDirectory_slashed short rfl (by decide +kernel)
  have made : ((makeDirectories ⟨"build"⟩).on (siteOf [[]])).1.isOk = true := by decide +kernel
  have page : (siteOf [[]]).tree.at? ["site", "routes", skeletonName] = some (.file "\x7b\x7d".toUTF8) := by
    decide +kernel
  have finished : ((prepare { routes := slashed count } .byName).on (siteOf [[]])).1.isOk = true := by
    rw [on_prepare]
    simp only [directory, if_true]
    generalize (makeDirectories ⟨"build"⟩).on (siteOf [[]]) = taken at made
    obtain ⟨_ | _, after⟩ := taken
    · cases made
    · rfl
  have standard : Placeholder.ofString? Placeholder.standardName = some .standard := rfl
  have prepared := exists_prepared finished standard
  have given := ready_of_prepare works prepared
  have grown := prepare_grows { routes := slashed count } .byName (siteOf [[]])
  generalize ((prepare { routes := slashed count } .byName).on (siteOf [[]])).2 = ready at prepared given grown
  have once := nodup_routes ready (slashed count)
  have truthful := truthful_buildRoutes given (fun _ => id) .standard once (.refl ready)
  have grows := buildRoutes_grows given (fun _ => id) .standard (Grows.refl ready)
  have noted := map_fst_buildRoutes .standard ⟨"build"⟩ (routes ready (slashed count)) ready
  have front : (⟨slashed count, []⟩ : Route) ∈ routes ready (slashed count) :=
    (mem_routes given.routes).mpr ⟨rfl, .inl rfl⟩
  have far : longestPath < ((slashed count).join ⟨skeletonName⟩).text.utf8ByteSize := by
    have name : skeletonName.utf8ByteSize = 13 := by decide
    have size := size_slashed count
    rw [Path.join_of_relative (by decide)]
    split <;> simp only [String.utf8ByteSize_append] <;> omega
  refine ⟨_, _, by rw [on_build, prepared], ?_, ?_⟩
  · rw [← noted] at front
    obtain ⟨entry, member, same⟩ := List.mem_map.mp front
    have skipped := (truthful entry member).skipped.mpr (by rw [same]; exact not_isFile_of_long far)
    rwa [← same, ← skipped]
  · obtain ⟨content, there, _⟩ := (grown.mono (fun _ _ => trivial) fun _ _ => trivial).isFile page
    obtain ⟨content, last, _⟩ := grows.isFile there
    exact ⟨content, last⟩

theorem page_skipped_behind_slashes :
    ∃ report after, (build { routes := slashed 4084 }).on (siteOf [[]]) = (.ok report, after) ∧
      (⟨slashed 4084, []⟩, .skipped) ∈ report.outcomes ∧
      ∃ content, after.tree.at? ["site", "routes", skeletonName] = some (.file content) :=
  page_skipped_of_long (by decide) (by decide)

end Reports

end Pagewright.Site
