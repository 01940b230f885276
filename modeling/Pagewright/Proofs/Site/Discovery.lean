import Mathlib.Data.List.Nodup
import Pagewright.Proofs.Site.Below
import Pagewright.Site.Build

/-! Routes and their pages. Each directory below the routes directory is found once, as far as paths can be
read, and its page is told by the one file it lies in. -/

namespace Pagewright.Site

open Files Expansion

variable {disk after first second : Disk} {root : Path} {names : List String} {route other : Route}

theorem isEntryName_skeleton : IsEntryName skeletonName := by decide

section Routes

/-- Routes come in the order in which directories are walked. -/
theorem pairwise_names (disk : Disk) (root : Path) :
    (routes disk root).Pairwise fun one other => List.Lex (· < ·) one.names other.names := by
  rw [routes]
  split
  next => exact .nil
  next location _ =>
    rw [List.pairwise_map, List.pairwise_cons, List.pairwise_filterMap]
    constructor
    · intro names member
      obtain ⟨⟨path, entry⟩, listed, found⟩ := List.mem_filterMap.mp member
      obtain ⟨name, rest, rfl⟩ := List.exists_cons_of_ne_nil (FileTree.mem_below.mp listed).1
      cases entry with
      | file => cases found
      | directory =>
        obtain ⟨_, ⟨⟩⟩ := Option.ite_none_right_eq_some.mp found
        exact .nil
    · refine (disk.tree.pairwise_below location).imp ?_
      rintro ⟨one, entry⟩ ⟨other, also⟩ before names found names' found'
      cases entry with
      | file => cases found
      | directory =>
        cases also with
        | file => cases found'
        | directory =>
          obtain ⟨_, ⟨⟩⟩ := Option.ite_none_right_eq_some.mp found
          obtain ⟨_, ⟨⟩⟩ := Option.ite_none_right_eq_some.mp found'
          exact FileTree.lex_of_compare before

theorem nodup_routes (disk : Disk) (root : Path) : (routes disk root).Nodup := by
  refine (pairwise_names disk root).imp ?_
  rintro route _ before rfl
  exact List.lt_irrefl route.names before

theorem isDirectory_of_mem (found : route ∈ routes disk root) : disk.isDirectory root = true := by
  rw [routes] at found
  rw [Disk.isDirectory]
  split at found
  next => cases found
  next there => rw [there]; rfl

variable (directory : disk.isDirectory root = true)
include directory

/-- The routes are the directories at and below a path, but for those in a directory whose own path cannot be
read. -/
theorem mem_routes : route ∈ routes disk root ↔ route.source = pathBelow root route.names ∧
    (route.names = [] ∨ disk.tree.at? (landing disk.directory root ++ route.names) = some .directory ∧
      disk.isDirectory (pathBelow root route.names.dropLast) = true) := by
  have found := Disk.isDirectory_iff.mp directory
  have location : disk.directory? root = some (landing disk.directory root) := by rw [Disk.directory?, found]
  rw [routes, location]
  obtain ⟨source, names⟩ := route
  simp only [List.mem_map, List.mem_cons, List.mem_filterMap, Prod.exists, Route.mk.injEq]
  constructor
  · rintro ⟨other, chosen, rfl, rfl⟩
    refine ⟨rfl, chosen.imp_right ?_⟩
    rintro ⟨names, entry, listed, kept⟩
    cases entry with
    | directory =>
      obtain ⟨readable, same⟩ := Option.ite_none_right_eq_some.mp kept
      cases same
      exact ⟨(FileTree.mem_below.mp listed).2, readable⟩
    | file => cases kept
  · rintro ⟨rfl, chosen⟩
    refine ⟨names, ?_, rfl, rfl⟩
    by_cases top : names = []
    · exact .inl top
    · obtain ⟨there, readable⟩ := chosen.resolve_left top
      exact .inr ⟨names, .directory, FileTree.mem_below.mpr ⟨top, there⟩, by simp [readable]⟩

theorem source_of_mem (found : route ∈ routes disk root) : route.source = pathBelow root route.names :=
  ((mem_routes directory).mp found).1

theorem names_of_mem (found : route ∈ routes disk root) : ∀ name ∈ route.names, IsEntryName name := by
  intro name member
  rcases ((mem_routes directory).mp found).2 with top | ⟨there, _⟩
  · rw [top] at member
    cases member
  · exact FileTree.isEntryName_of_mem (by rw [there]; rfl) member

/-- Where a route has its page. -/
theorem source_join (found : route ∈ routes disk root) :
    route.source.join ⟨skeletonName⟩ = pathBelow root (route.names ++ [skeletonName]) := by
  rw [source_of_mem directory found, pathBelow_concat]

theorem isEntryName_of_page (found : route ∈ routes disk root) :
    ∀ name ∈ route.names ++ [skeletonName], IsEntryName name := by
  simpa [or_imp, forall_and, isEntryName_skeleton] using names_of_mem directory found

theorem eq_of_names (found : route ∈ routes disk root) (also : other ∈ routes disk root)
    (same : route.names = other.names) : route = other := by
  have one := source_of_mem directory found
  have two := source_of_mem directory also
  rw [← same, ← one] at two
  cases route
  cases other
  simp_all

theorem nodup_names : ((routes disk root).map (·.names)).Nodup :=
  List.Nodup.map_on (fun _ found _ also => eq_of_names directory found also) (nodup_routes disk root)

/-- Which names have a route: those of a directory whose own directory can be read. -/
theorem exists_route_iff (works : disk.tree.at? disk.directory = some .directory) :
    (∃ route ∈ routes disk root, route.names = names) ↔
      disk.tree.at? (landing disk.directory root ++ names) = some .directory ∧
        (pathBelow root names.dropLast).text.utf8ByteSize ≤ longestPath := by
  have opens : Opens disk root := .inr directory
  have fits : root.text.utf8ByteSize ≤ longestPath := by
    obtain ⟨_, followed, _⟩ := Disk.find_eq_ok.mp (Disk.isDirectory_iff.mp directory)
    exact (Disk.target_eq_ok.mp followed).1.2.2
  rcases List.eq_nil_or_concat' names with rfl | ⟨front, last, rfl⟩
  · refine iff_of_true ⟨⟨root, []⟩, (mem_routes directory).mpr ⟨rfl, .inl rfl⟩, rfl⟩ ⟨?_, fits⟩
    rw [List.append_nil]
    exact (opens.follows works).2.1
  · rw [ List.dropLast_concat]
    have readable (there : disk.tree.at? (landing disk.directory root ++ (front ++ [last])) = some .directory) :
        disk.isDirectory (pathBelow root front) = true ↔ (pathBelow root front).text.utf8ByteSize ≤ longestPath := by
      by_cases top : front = []
      · rw [top]
        exact iff_of_true directory fits
      · have proper (name : String) (member : name ∈ front) : IsEntryName name :=
          FileTree.isEntryName_of_mem (by rw [there]; rfl) (List.mem_append_left _ member)
        rw [← List.append_assoc] at there
        rw [isDirectory_pathBelow works opens proper top, and_iff_left]
        exact disk.tree.closed _ last (by rw [← FileTree.at?, there]; rfl)
    constructor
    · rintro ⟨route, found, same⟩
      obtain ⟨there, listed⟩ := ((mem_routes directory).mp found).2.resolve_left (by simp [same])
      rw [same] at there listed
      rw [ List.dropLast_concat] at listed
      exact ⟨there, (readable there).mp listed⟩
    · rintro ⟨there, short⟩
      refine ⟨⟨pathBelow root (front ++ [last]), front ++ [last]⟩, ?_, rfl⟩
      refine (mem_routes directory).mpr ⟨rfl, .inr ⟨there, ?_⟩⟩
      rw [ List.dropLast_concat]
      exact (readable there).mpr short

end Routes

section Pages

/-- The bytes of the file that a path leads to. -/
def fileAt? (disk : Disk) (path : Path) : Option ByteArray :=
  match disk.find path with
  | .ok (_, .file content) => some content
  | _ => none

theorem fileAt?_eq_some {path : Path} {content : ByteArray} :
    fileAt? disk path = some content ↔ ∃ location, disk.find path = .ok (location, .file content) := by
  unfold fileAt?
  constructor
  · intro given
    split at given
    next location _ found =>
      cases given
      exact ⟨location, found⟩
    next => cases given
  · rintro ⟨location, found⟩
    rw [found]

/-- A page is told by the bytes of its file. -/
theorem loadPage_eq (disk : Disk) (source : Path) : loadPage disk source =
    match fileAt? disk (source.join ⟨skeletonName⟩) with
    | none => .error (.missing (source.join ⟨skeletonName⟩))
    | some content =>
      match String.fromUTF8? content with
      | none => .error (.unreadable (source.join ⟨skeletonName⟩) .notText)
      | some text =>
        match Skeleton.Page.ofText text with
        | .error fault => .error (.malformed (source.join ⟨skeletonName⟩) fault)
        | .ok page => .ok page := by
  unfold loadPage Disk.isFile Disk.readText Disk.read fileAt?
  dsimp only
  cases found : disk.find (source.join ⟨skeletonName⟩) with
  | error => rfl
  | ok there =>
    obtain ⟨location, entry⟩ := there
    cases entry with
    | directory => rfl
    | file content =>
      simp only [bind, Except.bind, pure, Except.pure]
      cases String.fromUTF8? content <;> rfl

theorem compilePage_congr {placeholder : Placeholder} {source : Path} (depth : Nat)
    (same : fileAt? first (source.join ⟨skeletonName⟩) = fileAt? second (source.join ⟨skeletonName⟩)) :
    compilePage placeholder first source depth = compilePage placeholder second source depth := by
  rw [compilePage, compilePage, loadPage_eq, loadPage_eq, same]

section Below

variable (works : disk.tree.at? disk.directory = some .directory) (opens : Opens disk root)
variable (proper : ∀ name ∈ names, IsEntryName name) (nonempty : names ≠ [])
include works opens proper nonempty

theorem fileAt?_pathBelow {content : ByteArray} : fileAt? disk (pathBelow root names) = some content ↔
    (pathBelow root names).text.utf8ByteSize ≤ longestPath ∧
      disk.tree.at? (landing disk.directory root ++ names) = some (.file content) := by
  rw [fileAt?_eq_some]
  simp only [find_pathBelow works opens proper nonempty]
  grind

/-- A file that nothing is written to keeps its bytes, and none appears in its place. -/
theorem fileAt?_grows {directories files : Location → Prop} (grows : Grows directories files disk after)
    (kept : ¬ files (landing disk.directory root ++ names)) :
    fileAt? after (pathBelow root names) = fileAt? disk (pathBelow root names) := by
  refine Option.ext fun content => ?_
  rw [fileAt?_pathBelow (grows.directory ▸ grows.isDirectory works) (opens.grows grows) proper nonempty,
    fileAt?_pathBelow works opens proper nonempty, grows.directory]
  refine and_congr_right fun _ => ?_
  have change := grows.change (landing disk.directory root ++ names)
  generalize disk.tree.at? (landing disk.directory root ++ names) = old at change ⊢
  generalize after.tree.at? (landing disk.directory root ++ names) = new at change ⊢
  cases change with
  | same => rfl
  | directory => simp
  | file allowed => exact absurd allowed kept

end Below

end Pages

end Pagewright.Site
