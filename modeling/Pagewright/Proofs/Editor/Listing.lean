import Pagewright.Proofs.Editor.Serving
import Pagewright.Proofs.Files.Repeating
import Pagewright.Proofs.Site.Discovery
import Pagewright.Proofs.Site.Reach
import Pagewright.Proofs.Site.Schedule

/-! The listing of a site's directories. What it calls a directory is a sub path under which a page is saved there, and
what has been saved is listed. -/

namespace Pagewright.Editor

open Files Site
open Json (Value)

variable {config : ServerConfig} {disk after : Disk} {root path : Path} {names front : List String} {subPath : String}

section Names

/-- The names of the directories that are listed. -/
def listedNames (disk : Disk) (root : Path) : List (List String) :=
  ((routes disk root).filter (0 < ·.depth)).map (·.names)

/-- The paths that a reply lists. -/
def Reply.listed : Reply → List String
  | { content := .value (.array values), .. } => values.filterMap fun
    | .string text => some text
    | _ => none
  | _ => []

theorem listedNames_of_missing (missing : disk.isDirectory root = false) : listedNames disk root = [] := by
  have nowhere : disk.directory? root = none := by
    rw [Disk.isDirectory] at missing
    simpa using missing
  rw [listedNames, routes, nowhere]
  rfl

theorem pairwise_listedNames (disk : Disk) (root : Path) : (listedNames disk root).Pairwise (List.Lex (· < ·)) :=
  List.pairwise_map.mpr ((pairwise_names disk root).filter _)

theorem allRoutes_eq (disk : Disk) (root : Path) : allRoutes disk root =
    if disk.isDirectory root then
      .ofValue (.array ((listedNames disk root).map fun names => .string ("/".intercalate names)))
    else .missing "Routes directory not found" := by
  rw [allRoutes, listedNames, List.map_map]
  rfl

theorem listed_allRoutes (disk : Disk) (root : Path) :
    (allRoutes disk root).listed = (listedNames disk root).map ("/".intercalate ·) := by
  rw [allRoutes_eq]
  split
  next => simp [Reply.listed, Reply.ofValue, List.filterMap_map]
  next missing =>
    rw [listedNames_of_missing (by simpa using missing)]
    rfl

section There

variable (directory : disk.isDirectory root = true)
include directory

theorem nodup_listedNames : (listedNames disk root).Nodup :=
  (nodup_names directory).sublist (List.filter_sublist.map _)

/-- A directory is listed if the directory that it lies in can be read. -/
theorem mem_listedNames (works : disk.tree.at? disk.directory = some .directory) : names ∈ listedNames disk root ↔
    names ≠ [] ∧ disk.tree.at? (landing disk.directory root ++ names) = some .directory ∧
      (pathBelow root names.dropLast).text.utf8ByteSize ≤ longestPath := by
  rw [← exists_route_iff directory works, listedNames]
  simp only [List.mem_map, List.mem_filter, Route.depth, decide_eq_true_eq, List.length_pos_iff]
  constructor
  · rintro ⟨route, ⟨found, nonempty⟩, rfl⟩
    exact ⟨nonempty, route, found, rfl⟩
  · rintro ⟨nonempty, route, found, rfl⟩
    exact ⟨route, ⟨found, nonempty⟩, rfl⟩

theorem isEntryName_of_listed (works : disk.tree.at? disk.directory = some .directory)
    (listed : names ∈ listedNames disk root) : ∀ name ∈ names, IsEntryName name := by
  obtain ⟨_, there, _⟩ := (mem_listedNames directory works).mp listed
  exact fun name => FileTree.isEntryName_of_mem (by rw [there]; rfl)

end There

/-- Different directories are listed under different names. -/
theorem intercalate_inj {one other : List String} (nonempty : one ≠ []) (nonempty' : other ≠ [])
    (proper : ∀ name ∈ one, IsEntryName name) (proper' : ∀ name ∈ other, IsEntryName name)
    (same : "/".intercalate one = "/".intercalate other) : one = other := by
  have first := Path.pieces_ofPieces nonempty fun name member => (proper name member).not_mem_slash
  have second := Path.pieces_ofPieces nonempty' fun name member => (proper' name member).not_mem_slash
  rw [Path.ofPieces] at first second
  rw [← first, same, second]

end Names

section Resolving

/-- What a directory is listed as leads to it. -/
theorem resolve_url {route : Route} (found : route ∈ routes disk root) :
    ∃ path, resolveSubPath root route.url = some path ∧ path.components = route.source.components := by
  have directory := isDirectory_of_mem found
  have proper := names_of_mem directory found
  refine ⟨root.join ⟨route.url⟩, resolveSubPath_eq_some.mpr ⟨⟨split_fst_intercalate proper, ?_⟩, rfl⟩, ?_⟩
  · intro back
    have steps : (Path.mk route.url).steps = route.names := steps_intercalate proper
    exact (proper ".." (steps ▸ back)).ne_dots rfl
  · rw [Route.url, components_join_intercalate proper, source_of_mem directory found, components_pathBelow proper]

end Resolving

section Saved

/-- A path that tells whether its directory is there: it leads to it, or there is none at its end and the path does not
lead through what that directory would hold. -/
def Telling (disk : Disk) (path : Path) : Prop :=
  disk.isDirectory path = true ∨ disk.tree.at? (landing disk.directory path) ≠ some .directory ∧
    Avoids disk.directory path (landing disk.directory path)

instance (disk : Disk) (path : Path) : Decidable (Telling disk path) := inferInstanceAs (Decidable (_ ∨ _ ∧ _))

/-- A path that never goes back tells. One that does may only be opened by a save, which then finds what has been there
all along. -/
theorem telling_of_plain (works : disk.tree.at? disk.directory = some .directory) (plain : ".." ∉ root.steps)
    (full : root.isEmpty = false) (readable : unreadable? root = none) : Telling disk root := by
  have lands : landing disk.directory root = origin disk.directory root ++ root.steps := foldl_advance plain _
  by_cases there : disk.tree.at? (landing disk.directory root) = some .directory
  · have whole := (descends_of_plain works plain).further (List.append_nil _).symm (lands ▸ there)
    exact .inl (whole.isDirectory readable full)
  · refine .inr ⟨there, ?_⟩
    rintro location ⟨front, begins, rfl⟩ ⟨below, other⟩
    rw [foldl_advance fun back => plain (begins.subset back), lands] at below other
    have whole : root.steps <+: front := (List.prefix_append_right_inj _).mp below
    exact other (congrArg _ (begins.eq_of_length_le whole.length_le))

theorem size_join_le {sub other : Path} (relative : sub.isAbsolute = false) (relative' : other.isAbsolute = false)
    (shorter : sub.text.utf8ByteSize ≤ other.text.utf8ByteSize) :
    (root.join sub).text.utf8ByteSize ≤ (root.join other).text.utf8ByteSize := by
  rw [Path.join_of_relative relative, Path.join_of_relative relative']
  split <;> simp only [String.utf8ByteSize_append] <;> omega

/-- The directories on the way to a page that has been saved are there, and their paths can be read. -/
theorem way_of_saved {entry : Entry} (resolved : resolveSubPath root subPath = some path)
    (found : disk.find (path.join ⟨skeletonName⟩) = .ok (location, entry)) (begins : names <+: Path.steps ⟨subPath⟩) :
    disk.tree.at? (landing disk.directory root ++ names) = some .directory ∧
      (pathBelow root names).text.utf8ByteSize ≤ longestPath := by
  obtain ⟨arrives, there⟩ := Disk.find_location found
  obtain ⟨_, followed, _⟩ := Disk.find_eq_ok.mp found
  have fits := (Disk.target_eq_ok.mp followed).1.2.2
  have relative := relative_of_resolve resolved
  have page : landing disk.directory (path.join ⟨skeletonName⟩) =
      landing disk.directory root ++ Path.steps ⟨subPath⟩ ++ [skeletonName] := by
    rw [landing_join rfl, landing_of_resolve resolved]
    rfl
  obtain ⟨rest, whole⟩ := begins
  rw [arrives, page, ← whole, List.append_assoc, List.append_assoc, ← List.append_assoc] at there
  have further : rest ++ [skeletonName] ≠ [] := by simp
  have directory : disk.tree.at? (landing disk.directory root ++ names) = some .directory :=
    FileTree.isDirectory_of_below further (by rw [there]; rfl)
  have proper : ∀ name ∈ names, IsEntryName name := fun name =>
    FileTree.isEntryName_of_mem (by rw [directory]; rfl)
  refine ⟨directory, ?_⟩
  obtain ⟨_, rfl⟩ := resolveSubPath_eq_some.mp resolved
  refine Nat.le_trans ?_ (Nat.le_trans (size_le_join rfl) fits)
  by_cases top : names = []
  · rw [top, pathBelow_nil]
    exact size_le_join relative
  · rw [← join_intercalate proper top]
    exact size_join_le (isAbsolute_intercalate proper) relative (Path.size_steps_le ⟨rest, whole⟩)

section Telling

variable (works : disk.tree.at? disk.directory = some .directory) (telling : Telling disk root)
include works telling

theorem Telling.isEmpty : root.isEmpty = false := by
  rw [← Bool.not_eq_true]
  intro empty
  rcases telling with there | ⟨missing, _⟩
  · obtain ⟨_, followed, _⟩ := isDirectory_iff_target.mp there
    exact absurd empty (by simp [(Disk.target_eq_ok.mp followed).1.2.1])
  · rw [landing_of_isEmpty empty] at missing
    exact missing works

omit works in
/-- What is found below a telling path is below a directory that is found. -/
theorem Telling.isDirectory (nonempty : names ≠ [])
    (present : (disk.tree.at? (landing disk.directory root ++ names)).isSome = true) : disk.isDirectory root = true :=
  telling.resolve_right fun missing => missing.1 (FileTree.isDirectory_of_below nonempty present)

/-- What is missing below a telling path does not lie on its way. -/
theorem Telling.not_passes (nonempty : names ≠ [])
    (missing : disk.tree.at? (landing disk.directory root ++ names) = none) :
    ¬ Passes disk.directory root (landing disk.directory root ++ names) := by
  intro passes
  rcases telling with there | ⟨_, avoids⟩
  · obtain ⟨front, steps, _, along⟩ := (descends_of_isDirectory works there).along
    obtain ⟨first, begins, same⟩ := passes
    rw [List.append_nil] at steps
    rw [same, along first (steps ▸ begins)] at missing
    cases missing
  · exact avoids _ passes ⟨List.prefix_append _ _, by simpa using nonempty⟩

variable (resolved : resolveSubPath root subPath = some path)
include resolved

/-- Where a page has been saved, its base is found. -/
theorem isDirectory_of_saved {entry : Entry} (here : after.tree.at? after.directory = some .directory)
    (found : after.find (path.join ⟨skeletonName⟩) = .ok (location, entry)) : after.isDirectory root = true := by
  have full := telling.isEmpty works
  have relative := relative_of_resolve resolved
  have page : (Path.mk skeletonName).steps ≠ [] := by decide
  obtain ⟨_, rfl⟩ := resolveSubPath_eq_some.mp resolved
  by_cases still : Path.steps ⟨subPath⟩ = []
  · rw [eq_empty_of_resolve resolved still, Path.join_empty_join rfl] at found
    exact isDirectory_of_find_join rfl full page here found
  · have directory := isDirectory_of_find_join rfl (Path.isEmpty_join_of_base relative full) page here found
    exact isDirectory_of_find_join relative full still here (Disk.isDirectory_iff.mp directory)

/-- What is listed once a page has been saved: what was listed before, and the directories on the way to the page. -/
theorem mem_listedNames_saved {files : Location → Prop} {entry : Entry}
    (grows : Grows (Passes disk.directory path) files disk after)
    (found : after.find (path.join ⟨skeletonName⟩) = .ok (location, entry)) :
    names ∈ listedNames after root ↔
      names ∈ listedNames disk root ∨ names ≠ [] ∧ names <+: Path.steps ⟨subPath⟩ := by
  have here : after.tree.at? after.directory = some .directory := grows.directory ▸ grows.isDirectory works
  have directory := isDirectory_of_saved works telling resolved here found
  rw [mem_listedNames directory here, grows.directory]
  constructor
  · rintro ⟨nonempty, there, fits⟩
    have change := grows.change (landing disk.directory root ++ names)
    cases before : disk.tree.at? (landing disk.directory root ++ names) with
    | some entry =>
      have kept : disk.tree.at? (landing disk.directory root ++ names) = some .directory := by
        rw [before] at change ⊢
        rw [there] at change
        cases change
        rfl
      have given := telling.isDirectory nonempty (by rw [before]; rfl)
      exact .inl ((mem_listedNames given works).mpr ⟨nonempty, kept, fits⟩)
    | none =>
      rw [before, there] at change
      cases change with
      | directory passes =>
        have onward := (passes_of_resolve resolved passes).resolve_left (telling.not_passes works nonempty before)
        obtain ⟨front, begins, same⟩ := onward
        exact .inr ⟨nonempty, List.append_cancel_left same ▸ begins⟩
  · rintro (listed | ⟨nonempty, begins⟩)
    · have given : disk.isDirectory root = true := by
        by_contra missing
        rw [listedNames_of_missing (by simpa using missing)] at listed
        cases listed
      obtain ⟨nonempty, there, fits⟩ := (mem_listedNames given works).mp listed
      exact ⟨nonempty, grows.isDirectory there, fits⟩
    · have shorter := (List.dropLast_prefix names).trans begins
      have lands := grows.directory ▸ (way_of_saved resolved found begins).1
      exact ⟨nonempty, lands, (way_of_saved resolved found shorter).2⟩

end Telling

end Saved

section Requests

variable {saving asking : Request} {draft : Bool} {tail : String} {reply : Reply}

theorem handle_allRoutes (asked : asking.Asks "GET" "/api/all-routes") :
    (handle config asking).run disk = (allRoutes disk config.routes, disk) := by
  obtain ⟨get, path⟩ := asked
  have endpoint : endpointOf (pathOfTarget asking.target) = .allRoutes := by
    rw [path]
    rfl
  rw [handle_of_method (by rw [endpoint]; exact get), endpoint]
  rfl

/-- Listing and saving name the same directories. What a route is listed as is a sub path that leads to its source.
After a page has been saved, the listing has what it had before, or nothing where the routes were not there, and the
directory of the page with all those on the way to it, in the order in which directories are walked and each of them
once. -/
theorem listing_names_saved :
    (∀ disk root route, route ∈ routes disk root →
      ∃ path, resolveSubPath root route.url = some path ∧ path.components = route.source.components) ∧
    ∀ config saving asking tail disk after reply, disk.tree.at? disk.directory = some .directory →
      Telling disk config.routes → saving.method = "POST" → SavesAt false tail (pathOfTarget saving.target) →
      asking.Asks "GET" "/api/all-routes" → (handle config saving).run disk = (reply, after) → reply.status = 200 →
        ∃ (subPath : String) (order : List (List String)), percentDecode tail = some subPath ∧
          ((handle config asking).run after).1 =
            .ofValue (.array (order.map fun names => .string ("/".intercalate names))) ∧
          order.Pairwise (List.Lex (· < ·)) ∧ (order.map ("/".intercalate ·)).Nodup ∧
          ∀ url, url ∈ ((handle config asking).run after).1.listed ↔
            url ∈ ((handle config asking).run disk).1.listed ∨
              ∃ front, front ≠ [] ∧ front <+: Path.steps ⟨subPath⟩ ∧ url = "/".intercalate front := by
  refine ⟨fun _ _ _ => resolve_url, ?_⟩
  intro config saving asking tail disk after reply works telling posted addressed asked handled succeeds
  rcases handle_cases config disk posted addressed with ⟨_, same, failed⟩ | taken
  · cases handled.symm.trans same
    exact absurd succeeds failed
  obtain ⟨subPath, value, path, decoded, _, resolved, saved⟩ := taken
  rw [handled] at saved
  have grows := saved.grows
  have found := saved.found succeeds works
  have here : after.tree.at? after.directory = some .directory := grows.directory ▸ grows.isDirectory works
  have directory := isDirectory_of_saved works telling resolved here found
  have member (names : List String) : names ∈ listedNames after config.routes ↔
      names ∈ listedNames disk config.routes ∨ names ≠ [] ∧ names <+: Path.steps ⟨subPath⟩ :=
    mem_listedNames_saved works telling resolved grows found
  refine ⟨subPath, listedNames after config.routes, decoded, ?_, pairwise_listedNames _ _, ?_, fun url => ?_⟩
  · rw [handle_allRoutes asked, allRoutes_eq, if_pos directory]
  · refine (nodup_listedNames directory).map_on fun one listed other listed' same => ?_
    have proper := isEntryName_of_listed directory here listed
    have proper' := isEntryName_of_listed directory here listed'
    have nonempty := ((mem_listedNames directory here).mp listed).1
    have nonempty' := ((mem_listedNames directory here).mp listed').1
    exact intercalate_inj nonempty nonempty' proper proper' same
  · rw [handle_allRoutes asked, handle_allRoutes asked, listed_allRoutes, listed_allRoutes]
    simp only [List.mem_map, member]
    constructor
    · rintro ⟨names, listed | ⟨nonempty, begins⟩, rfl⟩
      · exact .inl ⟨names, listed, rfl⟩
      · exact .inr ⟨names, nonempty, begins, rfl⟩
    · rintro (⟨names, listed, rfl⟩ | ⟨names, nonempty, begins, rfl⟩)
      · exact ⟨names, .inl listed, rfl⟩
      · exact ⟨names, .inr ⟨nonempty, begins⟩, rfl⟩

/-- The request for the listing. -/
def listingRequest : Request := { method := "GET", target := "/api/all-routes" }

theorem listing_names_saved_nested :
    let disk := siteOf [["blog", "post"]]
    let after := ((handle {} nestedSave).run disk).2
    ((handle {} listingRequest).run disk).1.listed = ["blog", "blog/post"] ∧
      ((handle {} listingRequest).run after).1.listed = ["a", "a/b", "blog", "blog/post"] ∧
      (∀ route ∈ routes disk ⟨"routes"⟩, ∃ path, resolveSubPath ⟨"routes"⟩ route.url = some path ∧
        path.components = route.source.components) ∧
      ∃ subPath, percentDecode "a%2F%2F./b" = some subPath ∧
        ∀ url, url ∈ ((handle {} listingRequest).run after).1.listed ↔
          url ∈ ((handle {} listingRequest).run disk).1.listed ∨
            ∃ front, front ≠ [] ∧ front <+: Path.steps ⟨subPath⟩ ∧ url = "/".intercalate front := by
  intro disk after
  refine ⟨by decide +kernel, by decide +kernel, listing_names_saved.1 disk ⟨"routes"⟩, ?_⟩
  have works : disk.tree.at? disk.directory = some .directory := by decide +kernel
  have telling : Telling disk ⟨"routes"⟩ := telling_of_plain works (by decide) rfl (by decide)
  have succeeds : ((handle {} nestedSave).run disk).1.status = 200 := by decide +kernel
  obtain ⟨subPath, _, decoded, _, _, _, listed⟩ := listing_names_saved.2 {} nestedSave listingRequest "a%2F%2F./b" disk
    after _ works telling rfl (.inr (by decide)) (by decide) rfl succeeds
  exact ⟨subPath, decoded, listed⟩

/-- A way to the routes through a directory that is not there. -/
def roundabout : ServerConfig := { routes := ⟨"new/../routes"⟩ }

def pageSave : Request := { method := "POST", target := "/save-skeleton/p", body := some "[]" }

/-- Where the way to the routes is only opened by a save, the listing finds more than has been saved. -/
theorem save_opens_listing :
    let disk := siteOf [["blog"]]
    let before := ((handle roundabout listingRequest).run disk).1
    let saved := (handle roundabout pageSave).run disk
    let listing := ((handle roundabout listingRequest).run saved.2).1
    before.status = 404 ∧ before.listed = [] ∧ saved.1.status = 200 ∧ percentDecode "p" = some "p" ∧
      listing.status = 200 ∧ listing.listed = ["blog", "p"] ∧
      ¬ ∀ url, url ∈ listing.listed ↔
        url ∈ before.listed ∨ ∃ front, front ≠ [] ∧ front <+: Path.steps ⟨"p"⟩ ∧ url = "/".intercalate front := by
  intro disk before saved listing
  have nothing : before.listed = [] := by decide +kernel
  have listed : listing.listed = ["blog", "p"] := by decide +kernel
  have elsewhere : ∀ front ∈ (Path.steps ⟨"p"⟩).inits, "/".intercalate front ≠ "blog" := by decide +kernel
  refine ⟨by decide +kernel, nothing, by decide +kernel, by decide +kernel, by decide +kernel, listed, ?_⟩
  intro same
  obtain inside | ⟨front, _, begins, named⟩ := (same "blog").mp (by simp [listed])
  · rw [nothing] at inside
    cases inside
  · exact elsewhere front ((List.mem_inits _ _).mpr begins) named.symm

end Requests

end Pagewright.Editor
