import Pagewright.Proofs.Files.Differing
import Pagewright.Proofs.Site.Building

/-! A build on two disks that differ in one place: the page of a route. The assets and all other routes come to the
same on both, as long as neither the output nor what is copied to it has to do with that place. -/

namespace Pagewright.Site

open Files Expansion
open Markup (Documents)

variable {first second : Disk} {root path : Path} {here spot : Location} {names : List String} {route : Route}
variable {config : BuildConfig} {placeholder : Placeholder} {arrange : Arrangement}

section Assets

/-- A place that has nothing to do with the output, the static files and the scripts. -/
structure Clear (config : BuildConfig) (here spot : Location) : Prop where
  output : ¬ Outward here config.output spot
  static : ¬ landing here config.static <+: spot
  scripts : ¬ landing here config.scripts <+: spot

theorem Continues.past (continues : Continues path root names) (clear : ¬ Outward here root spot) :
    ¬ Passes here path spot :=
  fun passes => clear (continues.outward passes)

variable (same : SameBut here spot first second)
include same

theorem itemsIn_congr (past : ¬ Passes here path spot) (outside : ¬ landing here path <+: spot) :
    itemsIn second path = itemsIn first path := by
  rw [itemsIn, itemsIn, same.find past]
  split
  next => rfl
  next => rfl
  next location found =>
    obtain ⟨rfl, _⟩ := Disk.find_location found
    rw [same.directory]
    refine congrArg Except.ok (FileTree.filterMap_below_congr fun names _ => ?_)
    rw [same.at?]
    rintro rfl
    exact outside (List.prefix_append _ _)

theorem not_outward_of_isDirectory (there : first.isDirectory path = true) (outside : ¬ landing here path <+: spot) :
    ¬ Outward here path spot := by
  have found := Disk.isDirectory_iff.mp there
  rw [same.directory] at found
  have away : landing here path ≠ spot := fun arrives => outside (arrives ▸ List.prefix_rfl)
  rintro (passes | below)
  · exact same.not_passes away found passes
  · exact outside below

theorem not_passes_of_isFile (away : landing here path ≠ spot) (file : first.isFile path = true) :
    ¬ Passes here path spot := by
  obtain ⟨location, content, found⟩ := Disk.isFile_iff.mp file
  obtain ⟨rfl, _⟩ := Disk.find_location found
  rw [same.directory] at found
  exact same.not_passes away found

variable (clear : Clear config here spot)
include clear

theorem copyWithin_abreast (static : ¬ Outward here config.static spot) (depth : Nat)
    (proper : ∀ name ∈ names, IsEntryName name) (isFile : Bool) :
    Abreast here spot ((copyWithin arrange config.static (config.output.join ⟨"static"⟩) depth names isFile).on first)
      ((copyWithin arrange config.static (config.output.join ⟨"static"⟩) depth names isFile).on second) := by
  have start : Continues (config.output.join ⟨"static"⟩) config.output ["static"] := .single (by decide)
  induction depth generalizing names isFile first second with
  | zero => exact .stay same _
  | succ depth ih =>
    have source : Continues (pathBelow config.static names) config.static names := .below proper
    have target := ((Continues.joined proper).trans start).past clear.output
    have read := source.past static
    have listing : ¬ landing here (pathBelow config.static names) <+: spot := by
      rw [source.landing_eq]
      exact fun below => clear.static ((List.prefix_append _ _).trans below)
    rw [copyWithin]
    split
    next => exact .bind (.withError _ (copyFile_abreast same read target)) fun _ _ _ _ same => .stay same _
    next =>
      refine .bind (.withError _ (makeDirectories_abreast same target)) fun _ _ _ _ same => ?_
      refine .bind (.withError _ (.look same (itemsIn_congr same read listing))) fun items _ _ listed same => ?_
      refine .bind (.mapM same fun item member _ _ same => ih same ?_ item.isFile) fun _ _ _ _ same => .stay same _
      have named := itemsIn_named (OnDisk.of_look listed) item ((arrange.perm names items).mem_iff.mp member)
      simp_all [or_imp]

theorem copyDirectory_abreast (static : ¬ Outward here config.static spot) :
    Abreast here spot ((copyDirectory config.static (config.output.join ⟨"static"⟩) arrange).on first)
      ((copyDirectory config.static (config.output.join ⟨"static"⟩) arrange).on second) := by
  refine .bind (.withError _ (.look same (same.find fun passes => static (.inl passes)))) fun found _ _ _ same => ?_
  exact copyWithin_abreast same clear static longestPath (by simp) found.2.isFile

theorem copyFavicon_abreast :
    Abreast here spot ((copyFavicon config.static config.output).on first)
      ((copyFavicon config.static config.output).on second) := by
  have source : Continues ((config.static.join ⟨"favicon"⟩).join ⟨"favicon.ico"⟩) config.static
      ["favicon", "favicon.ico"] := .pair (by decide) (by decide)
  have target : Continues (config.output.join ⟨"favicon.ico"⟩) config.output ["favicon.ico"] := .single (by decide)
  have away : landing here ((config.static.join ⟨"favicon"⟩).join ⟨"favicon.ico"⟩) ≠ spot := by
    rw [source.landing_eq]
    exact fun arrives => clear.static (arrives ▸ List.prefix_append _ _)
  refine .get ?_
  rw [same.isFile away]
  split
  next => exact .stay same _
  next present =>
    have read := not_passes_of_isFile same away (by simpa using present)
    exact .bind (copyFile_abreast same read (target.past clear.output)) fun _ _ _ _ same => .stay same _

theorem placeClientScript_abreast :
    Abreast here spot ((placeClientScript config.scripts config.output).on first)
      ((placeClientScript config.scripts config.output).on second) := by
  have directory : Continues (config.output.join ⟨"scripts"⟩) config.output ["scripts"] := .single (by decide)
  have target : Continues ((config.output.join ⟨"scripts"⟩).join ⟨clientScriptName⟩) config.output
      ["scripts", clientScriptName] := .pair (by decide) (by decide)
  have source : Continues (config.scripts.join ⟨clientScriptName⟩) config.scripts [clientScriptName] :=
    .single (by decide)
  have away : landing here (config.scripts.join ⟨clientScriptName⟩) ≠ spot := by
    rw [source.landing_eq]
    exact fun arrives => clear.scripts (arrives ▸ List.prefix_append _ _)
  refine .bind (makeDirectories_abreast same (directory.past clear.output)) fun _ _ _ _ same => .get ?_
  rw [same.isFile away]
  split
  next file =>
    have read := not_passes_of_isFile same away file
    exact .bind (copyFile_abreast same read (target.past clear.output)) fun _ _ _ _ same => .stay same _
  next =>
    exact .bind (writeFile_abreast same (target.past clear.output) _) fun _ _ _ _ same => .stay same _

theorem copyAssets_same :
    SameBut here spot ((copyAssets config arrange).run first).2 ((copyAssets config arrange).run second).2 := by
  rw [run_copyAssets, run_copyAssets, same.isDirectory]
  refine (placeClientScript_abreast ?_ clear).same
  refine (copyFavicon_abreast ?_ clear).same
  split
  next there =>
    exact (copyDirectory_abreast same clear (not_outward_of_isDirectory same there clear.static)).same
  next => exact same

/-- All that is done before the routes are looked for is the same on both disks. -/
theorem prepare_abreast :
    Abreast here spot ((prepare config arrange).on first) ((prepare config arrange).on second) := by
  have made := makeDirectories_abreast same fun passes => clear.output (.inl passes)
  rw [on_prepare, on_prepare, same.isDirectory]
  split
  next => exact .stay same _
  next =>
    split
    next =>
      obtain ⟨result, one, two, ended, ended', same⟩ := made.ended
      rw [ended, ended']
      cases result with
      | error => exact .stay same _
      | ok => exact .stay (copyAssets_same same clear) _
    next => exact .stay same _

end Assets

section Routes

variable (same : SameBut here spot first second)
include same

/-- The page of a route is a file, so both disks have the same routes. -/
theorem routes_congr (root : Path) : routes second root = routes first root := by
  simp only [routes, same.directory?, same.isDirectory]
  split
  next => rfl
  next location _ =>
    refine congrArg (fun found => ([] :: found).map _) (FileTree.filterMap_below_congr fun names _ => ?_)
    by_cases away : location ++ names = spot
    · have one := same.vacant
      have two := same.vacant'
      rw [away]
      generalize first.tree.at? spot = old at one ⊢
      generalize second.tree.at? spot = new at two ⊢
      rcases old with _ | _ | _ <;> rcases new with _ | _ | _ <;> first | rfl | contradiction
    · rw [same.at? _ away]

theorem fileAt?_congr (away : landing here path ≠ spot) : fileAt? second path = fileAt? first path := by
  refine Option.ext fun content => ?_
  simp only [fileAt?_eq_some, same.find_iff away]

theorem openOutput_abreast (past : ¬ Passes here path spot) :
    Abreast here spot (openOutput first path) (openOutput second path) := by
  unfold openOutput
  rw [same.contains past]
  split
  next => exact .stay same _
  next => exact makeDirectories_abreast same past

theorem writeDocuments_abreast (past : ∀ name ∈ [markupName, stylesName], ¬ Passes here (path.join ⟨name⟩) spot)
    (documents : Documents) :
    Abreast here spot (writeDocuments first path documents) (writeDocuments second path documents) := by
  have marked := same.write (past markupName (by simp)) documents.html.toUTF8
  unfold writeDocuments
  generalize first.write (path.join ⟨markupName⟩) documents.html.toUTF8 = one at marked
  generalize second.write (path.join ⟨markupName⟩) documents.html.toUTF8 = two at marked
  cases marked with
  | error => exact .stay same _
  | @ok one two same =>
    have styled := same.write (past stylesName (by simp)) documents.css.toUTF8
    dsimp only
    generalize one.write (path.join ⟨stylesName⟩) documents.css.toUTF8 = last at styled
    generalize two.write (path.join ⟨stylesName⟩) documents.css.toUTF8 = final at styled
    cases styled with
    | error => exact .stay same _
    | ok same => exact .stay same _

/-- A route with another page than the one the disks differ in is the same on both. -/
theorem compileRoute_abreast (placeholder : Placeholder) (depth : Nat) (clear : ¬ Outward here root spot)
    (proper : ∀ name ∈ route.names, IsEntryName name) (page : landing here (route.source.join ⟨skeletonName⟩) ≠ spot) :
    Abreast here spot ((compileRoute placeholder route.source (route.output root) depth).on first)
      ((compileRoute placeholder route.source (route.output root) depth).on second) := by
  have output : Continues (route.output root) root route.names := .joined proper
  have past (name : String) (document : name ∈ [markupName, stylesName]) :
      ¬ Passes here ((route.output root).join ⟨name⟩) spot :=
    ((Continues.single (isEntryName_document name document)).trans output).past clear
  rw [on_compileRoute, on_compileRoute, compilePage_congr depth (fileAt?_congr same page)]
  cases compilePage placeholder first route.source depth with
  | error => exact .stay same _
  | ok documents =>
    obtain ⟨result, one, two, ended, ended', same⟩ := (openOutput_abreast same (output.past clear)).ended
    rw [ended, ended']
    cases result with
    | error => exact .stay same _
    | ok => exact writeDocuments_abreast same past documents

end Routes

end Pagewright.Site
