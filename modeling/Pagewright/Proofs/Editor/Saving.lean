import Pagewright.Editor.Server
import Pagewright.Proofs.Files.Growth

/-! What saving changes. A sub path that is not refused only descends, so a page is saved at or below its
base, and a save that fails changes no file. -/

namespace Pagewright.Editor

open Files
open Json (Value)

section SubPaths

variable {base path : Path} {subPath : String}

theorem filterMap_steps (onward : ".." ∉ path.steps) :
    path.steps.filterMap Path.pieceComponent? = path.steps.map Component.name := by
  rw [← List.filterMap_eq_map]
  refine List.filterMap_congr fun step member => ?_
  have named : Path.isVoid step = false := by simpa using (List.mem_filter.mp member).2
  have other : step ≠ ".." := fun back => onward (back ▸ member)
  simp [Path.pieceComponent?, named, other]

/-- A path has only names as components when it does not say where to start and never goes back. -/
theorem components_names (path : Path) :
    (∀ component ∈ path.components, ∃ name, component = .name name) ↔
      path.split.1 = .nothing ∧ ".." ∉ path.steps := by
  rw [Path.components_eq, List.forall_mem_append]
  refine and_congr ?_ ⟨?_, fun onward => by simp [filterMap_steps onward]⟩
  · cases path.split.1 <;> simp [Path.Lead.component?]
  · intro names back
    have parent : Component.parent ∈ path.steps.filterMap Path.pieceComponent? :=
      List.mem_filterMap.mpr ⟨"..", back, rfl⟩
    obtain ⟨name, same⟩ := names _ parent
    cases same

theorem resolveSubPath_eq_some : resolveSubPath base subPath = some path ↔
    ((Path.mk subPath).split.1 = .nothing ∧ ".." ∉ (Path.mk subPath).steps) ∧ base.join ⟨subPath⟩ = path := by
  rw [resolveSubPath, Option.ite_none_right_eq_some, Option.some.injEq, ← components_names, List.all_eq_true]
  refine and_congr_left' (forall₂_congr fun component _ => ?_)
  cases component <;> simp

theorem resolveSubPath_isSome : (resolveSubPath base subPath).isSome = true ↔
    subPath.toList.head? ≠ some '/' ∧ (Path.pieces ⟨subPath⟩).head? ≠ some "." ∧ ".." ∉ Path.pieces ⟨subPath⟩ := by
  have start : (Path.mk subPath).split.1 = .nothing ↔
      subPath.toList.head? ≠ some '/' ∧ (Path.pieces ⟨subPath⟩).head? ≠ some "." := by
    rw [Path.split_fst, Path.isAbsolute]
    split
    · simp_all
    · split <;> simp_all
  have onward : ".." ∈ (Path.mk subPath).steps ↔ ".." ∈ Path.pieces ⟨subPath⟩ := by
    simp [Path.steps, Path.isVoid]
  rw [Option.isSome_iff_exists, ← and_assoc, ← start, ← onward]
  simp only [resolveSubPath_eq_some, exists_and_left, exists_eq', and_true]

variable (resolved : resolveSubPath base subPath = some path)
include resolved

theorem relative_of_resolve : (Path.mk subPath).isAbsolute = false := by
  have plain := (resolveSubPath_eq_some.mp resolved).1.1
  rw [← Bool.not_eq_true, Path.isAbsolute_iff_root, plain]
  nofun

/-- Only the empty sub path leads to the base itself. -/
theorem eq_empty_of_resolve (still : Path.steps ⟨subPath⟩ = []) : subPath = "" := by
  obtain ⟨piece, rest, pieces⟩ := List.exists_cons_of_ne_nil (Path.pieces_ne_nil ⟨subPath⟩)
  have taken : (resolveSubPath base subPath).isSome = true := Option.isSome_iff_exists.mpr ⟨path, resolved⟩
  have start := resolveSubPath_isSome.mp taken
  have void : Path.isVoid piece = true := by
    have every := List.filter_eq_nil_iff.mp still piece (pieces ▸ List.mem_cons_self)
    simpa using every
  have empty : piece = "" := by
    have other : piece ≠ "." := fun same => start.2.1 (by rw [pieces, same]; rfl)
    simpa [Path.isVoid, other] using void
  cases rest with
  | nil =>
    have text := Path.ofPieces_pieces ⟨subPath⟩
    rw [pieces, empty] at text
    exact (congrArg Path.text text).symm
  | cons next rest =>
    have absolute : (Path.mk subPath).isAbsolute = true := Path.isAbsolute_iff.mpr ⟨next, rest, empty ▸ pieces⟩
    cases absolute.symm.trans (relative_of_resolve resolved)

theorem components_of_resolve :
    path.components = base.components ++ (Path.steps ⟨subPath⟩).map Component.name := by
  have relative := relative_of_resolve resolved
  obtain ⟨⟨plain, onward⟩, rfl⟩ := resolveSubPath_eq_some.mp resolved
  rw [Path.components_eq, Path.components_eq, Path.split_fst_join relative plain, Path.steps_join relative,
    List.filterMap_append, filterMap_steps onward, List.append_assoc]

theorem landing_of_resolve (here : Location) : landing here path = landing here base ++ Path.steps ⟨subPath⟩ := by
  have relative := relative_of_resolve resolved
  obtain ⟨⟨_, onward⟩, rfl⟩ := resolveSubPath_eq_some.mp resolved
  rw [landing_join relative, foldl_advance onward]

theorem passes_of_resolve {here location : Location} (passes : Passes here path location) :
    Passes here base location ∨
      ∃ front, front <+: Path.steps ⟨subPath⟩ ∧ location = landing here base ++ front := by
  have relative := relative_of_resolve resolved
  obtain ⟨⟨_, onward⟩, rfl⟩ := resolveSubPath_eq_some.mp resolved
  refine (passes.of_join relative).imp_right ?_
  rintro ⟨front, begins, rfl⟩
  exact ⟨front, begins, foldl_advance (fun back => onward (begins.subset back)) _⟩

end SubPaths

section Values

variable {directory : Path} {name : String} {value : Value} {disk : Disk} {result : Reply × Disk}

/-- How saving a value ends: with the value in its file, or in an error with no file changed. -/
inductive Saving (directory : Path) (name : String) (value : Value) (disk : Disk) : Reply × Disk → Prop where
  | stored {middle after : Disk} (made : Grows (Passes disk.directory directory) (fun _ => False) disk middle)
      (written : middle.write (directory.join ⟨name⟩) (value.print .indented).toUTF8 = .ok after) :
      Saving directory name value disk (.success, after)
  | failed {after : Disk} (cause : Failure)
      (made : Grows (Passes disk.directory directory) (fun _ => False) disk after) :
      Saving directory name value disk (.failure cause, after)

theorem run_ofSteps (steps : OnDisk Failure Reply) (disk : Disk) :
    (Reply.ofSteps steps).run disk =
      match steps.on disk with
      | (.ok reply, after) => (reply, after)
      | (.error cause, after) => (.failure cause, after) := by
  rw [Reply.ofSteps, run_bind, OnDisk.on]
  rcases steps.run.run disk with ⟨_ | _, after⟩ <;> rfl

theorem saveValue_saving (directory : Path) (name : String) (value : Value) (disk : Disk) :
    Saving directory name value disk ((Reply.ofSteps (saveValue directory name value)).run disk) := by
  have made := makeDirectories_grows directory disk
  rw [run_ofSteps, saveValue]
  simp only [OnDisk.on_bind, OnDisk.on_withError, on_writeText]
  generalize (makeDirectories directory).on disk = middle at made
  obtain ⟨cause | _, middle⟩ := middle
  · exact .failed (.file cause) made
  · dsimp only [Except.mapError]
    cases written : middle.write (directory.join ⟨name⟩) (value.print .indented).toUTF8 with
    | error cause => exact .failed (.file cause) made
    | ok after => exact .stored made written

namespace Saving

theorem grows (saving : Saving directory name value disk result) :
    Grows (Passes disk.directory directory) (fun location => result.1.status = 200 ∧
      location = landing disk.directory (directory.join ⟨name⟩)) disk result.2 := by
  cases saving with
  | failed cause made => exact made.mono (fun _ passes => passes) fun _ => False.elim
  | stored made written =>
    have wrote := write_grows written
    rw [made.directory] at wrote
    exact (made.mono (fun _ passes => passes) fun _ => False.elim).trans
      (wrote.mono (fun _ => False.elim) fun _ same => ⟨rfl, same⟩)

theorem found (saving : Saving directory name value disk result) (succeeds : result.1.status = 200)
    (works : disk.tree.at? disk.directory = some .directory) :
    result.2.find (directory.join ⟨name⟩) =
      .ok (landing disk.directory (directory.join ⟨name⟩), .file (value.print .indented).toUTF8) := by
  cases saving with
  | failed cause => cases succeeds
  | stored made written =>
    rw [← made.directory] at works ⊢
    exact find_of_write (made.isDirectory (made.directory ▸ works)) written

theorem status_ne (saving : Saving directory name value disk result) : result.1.status ≠ 400 := by
  cases saving <;> simp [Reply.success, Reply.ofValue, Reply.failure]

end Saving

end Values

section Endpoints

/-- What is served at fixed paths. -/
def fixedEndpoints : List (String × Endpoint) := [
  ("/save-skeleton", .save false none), ("/save-skeleton-temp", .save true none), ("/api/skeleton", .skeleton),
  ("/api/all-routes", .allRoutes), ("/api/open-folder/routes", .openRoutes),
  ("/api/open-folder/static", .openStatic), ("/api/build", .build), ("/api/initial-settings", .initialSettings),
  ("/api/create-initial-settings", .createInitialSettings), (reloadPath, .reloadSocket),
  (reloadScriptPath, .reloadScript)]

/-- What is served at all other paths. -/
def endpointBelow (path : String) : Endpoint :=
  match tailAfter? "/save-skeleton/" path, tailAfter? "/save-skeleton-temp/" path with
  | some tail, _ => .save false (some tail)
  | none, some tail => .save true (some tail)
  | none, none => .files

variable {path tail : String} {draft : Bool} {endpoint : Endpoint}

theorem foldr_choice (choices : List (String × Endpoint)) (path : String) (other : Endpoint) :
    let found := choices.foldr (fun choice other => if path = choice.1 then choice.2 else other) other
    (path, found) ∈ choices ∨ path ∉ choices.map Prod.fst ∧ found = other := by
  induction choices with
  | nil => exact .inr ⟨List.not_mem_nil, rfl⟩
  | cons choice choices ih =>
    by_cases here : path = choice.1
    · simp [here]
    · simpa [here, Ne.symm here, Prod.ext_iff] using ih

theorem endpointOf_cases (path : String) :
    (path, endpointOf path) ∈ fixedEndpoints ∨
      path ∉ fixedEndpoints.map Prod.fst ∧ endpointOf path = endpointBelow path :=
  foldr_choice fixedEndpoints path (endpointBelow path)

theorem mem_fixedEndpoints (found : endpointOf path = endpoint) (served : endpoint ≠ .files)
    (whole : ∀ draft tail, endpoint ≠ .save draft (some tail)) : (path, endpoint) ∈ fixedEndpoints := by
  rcases endpointOf_cases path with fixed | ⟨_, below⟩
  · exact found ▸ fixed
  · rw [found, endpointBelow] at below
    split at below
    · exact absurd below (whole _ _)
    · exact absurd below (whole _ _)
    · exact absurd below served

theorem endpointOf_eq_build (found : endpointOf path = .build) : path = "/api/build" := by
  simpa [fixedEndpoints] using mem_fixedEndpoints found nofun nofun

theorem endpointOf_eq_root (found : endpointOf path = .save false none) : path = "/save-skeleton" := by
  simpa [fixedEndpoints] using mem_fixedEndpoints found nofun nofun

theorem endpointOf_eq_settings (found : endpointOf path = .createInitialSettings) :
    path = "/api/create-initial-settings" := by
  simpa [fixedEndpoints] using mem_fixedEndpoints found nofun nofun

theorem ne_empty_of_tailAfter? {lead : String} (taken : tailAfter? lead path = some tail) : tail ≠ "" := by
  unfold tailAfter? at taken
  split at taken
  next longer =>
    cases taken
    have longer : lead.length < path.toList.length := by
      rw [String.length_toList]
      simp_all
    intro empty
    have nothing : path.toList.drop lead.length = [] := by simpa using congrArg String.toList empty
    exact absurd (List.drop_eq_nil_iff.mp nothing) (Nat.not_le.mpr longer)
  next => cases taken

theorem tail_ne_empty (found : endpointOf path = .save draft (some tail)) : tail ≠ "" := by
  rcases endpointOf_cases path with fixed | ⟨_, below⟩
  · rw [found] at fixed
    simp [fixedEndpoints] at fixed
  · rw [found, endpointBelow] at below
    split at below
    next taken =>
      cases below
      exact ne_empty_of_tailAfter? taken
    next taken =>
      cases below
      exact ne_empty_of_tailAfter? taken
    next => cases below

end Endpoints

section Requests

/-- The address at which pages of a base are saved. -/
def saveAddress (draft : Bool) : String := if draft then "/save-skeleton-temp" else "/save-skeleton"

def ServerConfig.base (config : ServerConfig) (draft : Bool) : Path :=
  if draft then config.drafts else config.routes

variable {config : ServerConfig} {request : Request} {draft : Bool} {tail : String} {disk : Disk}

theorem endpointOf_saveAddress (draft : Bool) : endpointOf (saveAddress draft) = .save draft none := by
  cases draft <;> decide

theorem tailAfter?_append (lead : String) {tail : String} (nonempty : tail ≠ "") :
    tailAfter? lead (lead ++ tail) = some tail := by
  have longer : 0 < tail.toList.length := List.length_pos_iff.mpr (by simpa using nonempty)
  have fits : lead.toList.isPrefixOf (lead ++ tail).toList = true := by simp
  rw [tailAfter?, fits]
  simp_all [← String.length_toList]

theorem endpointOf_saveAddress_slash (draft : Bool) (tail : String) :
    endpointOf (saveAddress draft ++ "/" ++ tail) = if tail = "" then .files else .save draft (some tail) := by
  by_cases empty : tail = ""
  · subst empty
    cases draft <;> decide
  · rw [if_neg empty]
    have other : ∀ fixed ∈ fixedEndpoints.map Prod.fst,
        (saveAddress draft ++ "/").toList.isPrefixOf fixed.toList = false := by
      cases draft <;> decide
    rcases endpointOf_cases (saveAddress draft ++ "/" ++ tail) with fixed | ⟨_, below⟩
    · have begins := List.prefix_append (saveAddress draft ++ "/").toList tail.toList
      rw [← String.toList_append, ← List.isPrefixOf_iff_prefix, other _ (List.mem_map_of_mem fixed)] at begins
      cases begins
    rw [below, endpointBelow]
    cases draft with
    | false =>
      have taken : tailAfter? "/save-skeleton/" (saveAddress false ++ "/" ++ tail) = some tail :=
        tailAfter?_append "/save-skeleton/" empty
      rw [taken]
    | true =>
      have taken : tailAfter? "/save-skeleton-temp/" (saveAddress true ++ "/" ++ tail) = some tail :=
        tailAfter?_append "/save-skeleton-temp/" empty
      have apart : tailAfter? "/save-skeleton/" (saveAddress true ++ "/" ++ tail) = none := by
        have different : "/save-skeleton/".toList.isPrefixOf (saveAddress true ++ "/" ++ tail).toList = false := by
          rw [String.toList_append, saveAddress]
          rfl
        rw [tailAfter?, different]
        rfl
      rw [taken, apart]

theorem status_of_bodyValue {reply : Reply} (refused : bodyValue request = .error reply) : reply.status ≠ 200 := by
  unfold bodyValue at refused
  split at refused
  next =>
    cases refused
    nofun
  next text _ =>
    cases read : Value.ofText text with
    | ok value => simp [read, Except.mapError] at refused
    | error fault =>
      rw [read] at refused
      cases refused
      nofun

theorem save_cases (config : ServerConfig) (draft : Bool) (subPath : Option String) (request : Request)
    (disk : Disk) :
    (∃ reply, (save config draft subPath request).run disk = (reply, disk) ∧ reply.status ≠ 200) ∨
      ∃ decoded value path, percentDecode (subPath.getD "") = some decoded ∧ bodyValue request = .ok value ∧
        resolveSubPath (config.base draft) decoded = some path ∧
          Saving path Site.skeletonName value disk ((save config draft subPath request).run disk) := by
  unfold save
  split
  next => exact .inl ⟨_, rfl, by decide⟩
  next decoded found =>
    split
    next reply refused => exact .inl ⟨_, rfl, status_of_bodyValue refused⟩
    next value given =>
      unfold saveSkeleton
      split
      next => exact .inl ⟨_, rfl, nofun⟩
      next path resolved => exact .inr ⟨decoded, value, path, found, given, resolved, saveValue_saving _ _ _ _⟩

/-- The paths of requests that save below a base, with what follows its address. -/
def SavesAt (draft : Bool) (tail path : String) : Prop :=
  path = saveAddress draft ∧ tail = "" ∨ path = saveAddress draft ++ "/" ++ tail

theorem handle_cases (config : ServerConfig) (disk : Disk) (posted : request.method = "POST")
    (addressed : SavesAt draft tail (pathOfTarget request.target)) :
    (∃ reply, (handle config request).run disk = (reply, disk) ∧ reply.status ≠ 200) ∨
      ∃ decoded value path, percentDecode tail = some decoded ∧ bodyValue request = .ok value ∧
        resolveSubPath (config.base draft) decoded = some path ∧
          Saving path Site.skeletonName value disk ((handle config request).run disk) := by
  rcases addressed with ⟨alone, rfl⟩ | below
  · have served : handle config request = save config draft none request := by
      rw [handle, alone, endpointOf_saveAddress, posted]
      rfl
    rw [served]
    exact save_cases config draft none request disk
  · by_cases empty : tail = ""
    · refine .inl ⟨{ status := 405 }, ?_, nofun⟩
      rw [handle, below, endpointOf_saveAddress_slash, if_pos empty, posted]
      rfl
    · have served : handle config request = save config draft (some tail) request := by
        rw [handle, below, endpointOf_saveAddress_slash, if_neg empty, posted]
        rfl
      rw [served]
      exact save_cases config draft (some tail) request disk

/-- A directory on the way to the page that is saved at a tail below a base. -/
def OnWay (here : Location) (base : Path) (tail : String) (location : Location) : Prop :=
  ∃ subPath, percentDecode tail = some subPath ∧ (Passes here base location ∨
    ∃ front, front <+: Path.steps ⟨subPath⟩ ∧ location = landing here base ++ front)

/-- The file of that page. -/
def PageFile (here : Location) (base : Path) (tail : String) (location : Location) : Prop :=
  ∃ subPath, percentDecode tail = some subPath ∧
    location = landing here base ++ Path.steps ⟨subPath⟩ ++ [Site.skeletonName]

/-- A sub path is taken unless it is absolute, starts with a dot for itself or goes back somewhere, and then
leads through its steps. So a request to save makes no directories but those on the way from its base
through these steps, writes no other file than the page there, and that one only if it succeeds. -/
theorem save_descends :
    (∀ base subPath, (resolveSubPath base subPath).isSome = true ↔
      subPath.toList.head? ≠ some '/' ∧ (Path.pieces ⟨subPath⟩).head? ≠ some "." ∧
        ".." ∉ Path.pieces ⟨subPath⟩) ∧
    (∀ base subPath path, resolveSubPath base subPath = some path →
      path.components = base.components ++ (Path.steps ⟨subPath⟩).map Component.name) ∧
    ∀ config request draft tail disk reply after, request.method = "POST" →
      SavesAt draft tail (pathOfTarget request.target) → (handle config request).run disk = (reply, after) →
        Grows (OnWay disk.directory (config.base draft) tail)
          (fun location => reply.status = 200 ∧ PageFile disk.directory (config.base draft) tail location)
          disk after ∧
        (reply.status = 400 → after = disk) := by
  refine ⟨fun _ _ => resolveSubPath_isSome, fun _ _ _ => components_of_resolve, ?_⟩
  intro config request draft tail disk reply after posted addressed handled
  rcases handle_cases config disk posted addressed with ⟨refused, same, _⟩ | taken
  · cases handled.symm.trans same
    exact ⟨.refl disk, fun _ => rfl⟩
  · obtain ⟨subPath, value, path, decoded, _, resolved, saving⟩ := taken
    rw [handled] at saving
    refine ⟨saving.grows.mono ?_ ?_, fun refused => absurd refused saving.status_ne⟩
    · exact fun location passes => ⟨subPath, decoded, passes_of_resolve resolved passes⟩
    · rintro location ⟨succeeds, rfl⟩
      refine ⟨succeeds, subPath, decoded, ?_⟩
      rw [landing_join rfl, landing_of_resolve resolved]
      rfl

/-- A site without any files. -/
def emptySite : Disk := Disk.emptyAt ["site"]

/-- A page two directories down, with more slashes and dots than its path needs. -/
def nestedSave : Request := { method := "POST", target := "/save-skeleton/a%2F%2F./b?draft", body := some "[]" }

def escapingSave : Request := { method := "POST", target := "/save-skeleton/a/%2E%2E/b", body := some "[]" }

theorem save_descends_nested :
    ((handle {} nestedSave).run emptySite).1.status = 200 ∧
      ((handle {} nestedSave).run emptySite).2.tree.at? ["site", "routes", "a", "b", "skeleton.json"] =
        some (.file "[]".toUTF8) ∧
      Grows (OnWay ["site"] ⟨"routes"⟩ "a%2F%2F./b")
        (fun location => ((handle {} nestedSave).run emptySite).1.status = 200 ∧
          PageFile ["site"] ⟨"routes"⟩ "a%2F%2F./b" location)
        emptySite ((handle {} nestedSave).run emptySite).2 ∧
      ((handle {} escapingSave).run emptySite).1.status = 400 ∧
      ((handle {} escapingSave).run emptySite).2 = emptySite := by
  have refused : ((handle {} escapingSave).run emptySite).1.status = 400 := by decide +kernel
  refine ⟨by decide +kernel, by decide +kernel, ?_, refused, ?_⟩
  · exact (save_descends.2.2 {} nestedSave false "a%2F%2F./b" emptySite _ _ rfl (.inr (by decide)) rfl).1
  · exact (save_descends.2.2 {} escapingSave false "a/%2E%2E/b" emptySite _ _ rfl (.inr (by decide)) rfl).2 refused

end Requests

end Pagewright.Editor
