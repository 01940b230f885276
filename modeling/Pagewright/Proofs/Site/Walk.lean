import Mathlib.Data.List.Sort
import Pagewright.Proofs.Site.Discovery
import Pagewright.Proofs.Site.Schedule
import Pagewright.Proofs.Text.Bytes

/-! Routes come in the order of a walk that enters each directory as soon as it meets it, and takes what is in a
directory by the bytes of its names. The walk meets every directory once. -/

namespace Pagewright.Site

open Files

variable {disk : Disk} {tree : FileTree} {root : Path} {here location : Location} {names : List String}
variable {visited : List (List String)} {route : Route}

/-- The order of lists of names by the bytes of the names. -/
def Before (one other : List String) : Prop := one.map bytes < other.map bytes

section Order

theorem before_of_lex {one other : List String} (before : List.Lex (· < ·) one other) : Before one other := by
  induction before with
  | nil => exact List.nil_lt_cons ..
  | cons _ ih => exact List.cons_lt_cons_iff.mpr (.inr ⟨rfl, ih⟩)
  | rel less => exact List.cons_lt_cons_iff.mpr (.inl (bytes_lt_bytes less))

theorem Before.cons {one other : List String} (before : Before one other) (name : String) :
    Before (name :: one) (name :: other) := List.cons_lt_cons_iff.mpr (.inr ⟨rfl, before⟩)

theorem before_below {inner : List String} (nonempty : inner ≠ []) (name : String) : Before [name] (name :: inner) := by
  obtain ⟨next, rest, rfl⟩ := List.exists_cons_of_ne_nil nonempty
  exact List.cons_lt_cons_iff.mpr (.inr ⟨rfl, List.nil_lt_cons ..⟩)

/-- There is one list in order with given members. -/
theorem eq_of_before {one other : List (List String)} (ordered : one.Pairwise Before) (also : other.Pairwise Before)
    (same : ∀ names, names ∈ one ↔ names ∈ other) : one = other := by
  have irrefl : Std.Irrefl Before := ⟨fun names => List.lt_irrefl (names.map bytes)⟩
  have antisymm : Std.Antisymm Before := ⟨fun one other less more => (List.lt_asymm less more).elim⟩
  exact ordered.eq_of_mem_iff also same

end Order

section Walking

/-- What a directory holds, by the bytes of the names. -/
structure Lists (tree : FileTree) (here : Location) (names : List String) : Prop where
  sorted : names.Pairwise fun one other => bytes one < bytes other
  complete : ∀ name, name ∈ names ↔ (tree.at? (here ++ [name])).isSome = true

/-- A walk along entries of a directory. Files are passed by, and a directory is walked before the next entry. -/
inductive Walks (tree : FileTree) : Location → List String → List (List String) → Prop where
  | done (here : Location) : Walks tree here [] []
  | file {here : Location} {name : String} {content : ByteArray} {rest : List String} {later : List (List String)}
      (found : tree.at? (here ++ [name]) = some (.file content)) (others : Walks tree here rest later) :
      Walks tree here (name :: rest) later
  | directory {here : Location} {name : String} {names rest : List String} {inside later : List (List String)}
      (found : tree.at? (here ++ [name]) = some .directory) (lists : Lists tree (here ++ [name]) names)
      (below : Walks tree (here ++ [name]) names inside) (others : Walks tree here rest later) :
      Walks tree here (name :: rest) ([name] :: inside.map (name :: ·) ++ later)

/-- The walk through a directory, which is visited itself before what it holds. -/
def Visits (tree : FileTree) (here : Location) (visited : List (List String)) : Prop :=
  ∃ names inside, Lists tree here names ∧ Walks tree here names inside ∧ visited = [] :: inside

theorem isDirectory_head {name : String} {more : List String}
    (there : tree.at? (here ++ name :: more) = some .directory) : tree.at? (here ++ [name]) = some .directory := by
  by_cases alone : more = []
  · rwa [alone] at there
  · rw [List.append_cons] at there
    exact FileTree.isDirectory_of_below alone (by rw [there]; rfl)

/-- A walk meets the directories at and below the entries that it goes along. -/
theorem Walks.mem (walks : Walks tree here names visited) {path : List String} : path ∈ visited ↔
    ∃ name more, path = name :: more ∧ name ∈ names ∧ tree.at? (here ++ path) = some .directory := by
  induction walks generalizing path with
  | done => simp
  | @file here name content rest later found others ih =>
    rw [ih]
    constructor
    · rintro ⟨first, more, begins, member, there⟩
      exact ⟨first, more, begins, List.mem_cons_of_mem _ member, there⟩
    · rintro ⟨first, more, rfl, member, there⟩
      rcases List.mem_cons.mp member with rfl | member
      · cases found.symm.trans (isDirectory_head there)
      · exact ⟨first, more, rfl, member, there⟩
  | @directory here name names rest inside later found lists below others ih ih' =>
    rw [List.mem_append, List.mem_cons, List.mem_map, ih']
    constructor
    · rintro ((rfl | ⟨inner, member, rfl⟩) | ⟨first, more, begins, member, there⟩)
      · exact ⟨name, [], rfl, List.mem_cons_self, found⟩
      · obtain ⟨_, _, _, _, there⟩ := ih.mp member
        exact ⟨name, inner, rfl, List.mem_cons_self, by rwa [List.append_cons]⟩
      · exact ⟨first, more, begins, List.mem_cons_of_mem _ member, there⟩
    · rintro ⟨first, more, rfl, member, there⟩
      rcases List.mem_cons.mp member with rfl | member
      · cases more with
        | nil => exact .inl (.inl rfl)
        | cons next more =>
          rw [List.append_cons] at there
          have listed : next ∈ names := (lists.complete next).mpr (by rw [isDirectory_head there]; rfl)
          exact .inl (.inr ⟨next :: more, ih.mpr ⟨next, more, rfl, listed, there⟩, rfl⟩)
      · exact .inr ⟨first, more, rfl, member, there⟩

theorem Walks.sorted (walks : Walks tree here names visited)
    (ordered : names.Pairwise fun one other => bytes one < bytes other) : visited.Pairwise Before := by
  induction walks with
  | done => exact .nil
  | file _ _ ih => exact ih (List.pairwise_cons.mp ordered).2
  | @directory here name names rest inside later found lists below others ih ih' =>
    obtain ⟨first, behind⟩ := List.pairwise_cons.mp ordered
    rw [List.pairwise_append, List.pairwise_cons, List.pairwise_map]
    refine ⟨⟨?_, (ih lists.sorted).imp fun before => before.cons name⟩, ih' behind, ?_⟩
    · intro path member
      obtain ⟨inner, met, rfl⟩ := List.mem_map.mp member
      obtain ⟨_, _, rfl, _⟩ := below.mem.mp met
      exact before_below (by simp) name
    · -- Everything that is met on the way starts with the name of an entry, and these are in order.
      intro path member other late
      obtain ⟨next, more, rfl, along, _⟩ := others.mem.mp late
      have starts : ∃ inner, path = name :: inner := by
        rcases List.mem_cons.mp member with rfl | member
        · exact ⟨[], rfl⟩
        · obtain ⟨inner, _, rfl⟩ := List.mem_map.mp member
          exact ⟨inner, rfl⟩
      obtain ⟨inner, rfl⟩ := starts
      exact List.cons_lt_cons_iff.mpr (.inl (first next along))

theorem Visits.mem (directory : tree.at? here = some .directory) (visits : Visits tree here visited)
    {path : List String} : path ∈ visited ↔ tree.at? (here ++ path) = some .directory := by
  obtain ⟨names, inside, lists, walks, rfl⟩ := visits
  rw [List.mem_cons, walks.mem]
  constructor
  · rintro (rfl | ⟨_, _, _, _, there⟩)
    · rwa [List.append_nil]
    · exact there
  · intro there
    cases path with
    | nil => exact .inl rfl
    | cons name more =>
      have listed : name ∈ names := (lists.complete name).mpr (by rw [isDirectory_head there]; rfl)
      exact .inr ⟨name, more, rfl, listed, there⟩

theorem Visits.sorted (visits : Visits tree here visited) : visited.Pairwise Before := by
  obtain ⟨names, inside, lists, walks, rfl⟩ := visits
  refine List.pairwise_cons.mpr ⟨fun path member => ?_, walks.sorted lists.sorted⟩
  obtain ⟨name, more, rfl, _⟩ := walks.mem.mp member
  exact List.nil_lt_cons ..

end Walking

section Listing

/-- The name of an entry that lies directly below, by the way to it. -/
def nextName? (path : Location) : Option String := if path.tail = [] then path.head? else none

theorem nextName?_eq_some : nextName? path = some name ↔ path = [name] := by
  rw [nextName?, Option.ite_none_right_eq_some, List.head?_eq_some_iff]
  constructor
  · rintro ⟨further, rest, rfl⟩
    rw [show rest = [] from further]
  · rintro rfl
    exact ⟨rfl, [], rfl⟩

/-- A directory can be listed by the bytes of its names. -/
theorem exists_lists (tree : FileTree) (here : Location) : ∃ names, Lists tree here names := by
  refine ⟨(tree.below here).filterMap fun item => nextName? item.1, ?_, fun name => ?_⟩
  · rw [List.pairwise_filterMap]
    refine (tree.pairwise_below here).imp fun before name kept next kept' => ?_
    have less := before_of_lex (FileTree.lex_of_compare before)
    rw [nextName?_eq_some.mp kept, nextName?_eq_some.mp kept'] at less
    rcases List.cons_lt_cons_iff.mp less with less | ⟨_, further⟩
    · exact less
    · cases further
  · rw [List.mem_filterMap, Option.isSome_iff_exists]
    constructor
    · rintro ⟨⟨path, entry⟩, listed, kept⟩
      cases nextName?_eq_some.mp kept
      exact ⟨entry, (FileTree.mem_below.mp listed).2⟩
    · rintro ⟨entry, there⟩
      exact ⟨([name], entry), FileTree.mem_below.mpr ⟨by simp, there⟩, nextName?_eq_some.mpr rfl⟩

/-- There are only so many levels. -/
theorem exists_deepest (tree : FileTree) :
    ∃ bound, ∀ location, (tree.at? location).isSome = true → location.length ≤ bound := by
  have bounded (items : List (Location × Entry)) : ∃ bound, ∀ item ∈ items, item.1.length ≤ bound := by
    induction items with
    | nil => exact ⟨0, by simp⟩
    | cons item rest ih =>
      obtain ⟨bound, each⟩ := ih
      refine ⟨max item.1.length bound, List.forall_mem_cons.mpr ⟨Nat.le_max_left .., fun other member => ?_⟩⟩
      exact (each other member).trans (Nat.le_max_right ..)
  obtain ⟨bound, each⟩ := bounded (tree.below [])
  refine ⟨bound, fun location present => ?_⟩
  by_cases top : location = []
  · simp [top]
  · obtain ⟨entry, there⟩ := Option.isSome_iff_exists.mp present
    exact each (location, entry) (FileTree.mem_below.mpr ⟨top, there⟩)

/-- A walk along entries comes to its end, since there are only so many levels below them. -/
theorem exists_walks {levels : Nat}
    (bound : ∀ location, (tree.at? location).isSome = true → location.length ≤ here.length + levels)
    (present : ∀ name ∈ names, (tree.at? (here ++ [name])).isSome = true) : ∃ visited, Walks tree here names visited := by
  induction levels generalizing here names with
  | zero =>
    cases names with
    | nil => exact ⟨[], .done here⟩
    | cons name rest =>
      have deep := bound _ (present name List.mem_cons_self)
      simp at deep
  | succ levels down =>
    induction names with
    | nil => exact ⟨[], .done here⟩
    | cons name rest along =>
      obtain ⟨first, behind⟩ := List.forall_mem_cons.mp present
      obtain ⟨later, others⟩ := along behind
      obtain ⟨entry, found⟩ := Option.isSome_iff_exists.mp first
      cases entry with
      | file content => exact ⟨later, .file found others⟩
      | directory =>
        obtain ⟨names, lists⟩ := exists_lists tree (here ++ [name])
        have deeper : ∀ location, (tree.at? location).isSome = true →
            location.length ≤ (here ++ [name]).length + levels := fun location there => by
          simpa [Nat.add_assoc, Nat.add_comm 1] using bound location there
        obtain ⟨inside, below⟩ := down deeper fun name member => (lists.complete name).mp member
        exact ⟨_, .directory found lists below others⟩

theorem exists_visits (tree : FileTree) (here : Location) : ∃ visited, Visits tree here visited := by
  obtain ⟨bound, deepest⟩ := exists_deepest tree
  obtain ⟨names, lists⟩ := exists_lists tree here
  have within : ∀ location, (tree.at? location).isSome = true → location.length ≤ here.length + bound :=
    fun location there => (deepest location there).trans (Nat.le_add_left ..)
  obtain ⟨inside, walks⟩ := exists_walks within fun name member => (lists.complete name).mp member
  exact ⟨_, names, inside, lists, walks, rfl⟩

end Listing

section Routes

theorem pairwise_before (disk : Disk) (root : Path) : ((routes disk root).map (·.names)).Pairwise Before :=
  List.pairwise_map.mpr ((pairwise_names disk root).imp before_of_lex)

/-- What is left of a path behind a base. A path that does not lie below the base is kept whole. -/
def relativeTo (path base : Path) : Path :=
  match path.below? base with
  | some components => ⟨"/".intercalate (components.map Component.text)⟩
  | none => path

/-- A route is told by where its directory lies below that of all routes. -/
structure Placed (root : Path) (route : Route) : Prop where
  source : route.source.components = (root.join ⟨route.url⟩).components
  text : route.names ≠ [] → route.source = root.join ⟨route.url⟩
  below : route.source.below? root = some (route.names.map Component.name)
  relative : relativeTo route.source root = ⟨route.url⟩
  inside : (Path.mk route.url).isAbsolute = false
  named : (Path.mk route.url).components = route.names.map Component.name
  depth : route.depth = (Path.mk route.url).components.length

theorem components_intercalate (proper : ∀ name ∈ names, IsEntryName name) :
    (Path.mk ("/".intercalate names)).components = names.map Component.name := by
  rw [Path.components_eq, split_fst_intercalate proper, steps_intercalate proper, filterMap_pieceComponent? proper]
  rfl

theorem below?_pathBelow (root : Path) (proper : ∀ name ∈ names, IsEntryName name) :
    (pathBelow root names).below? root = some (names.map Component.name) := by
  rw [Path.below?, components_pathBelow proper, if_pos (by simp), List.drop_left]

theorem placed_of_names (source : route.source = pathBelow root route.names)
    (proper : ∀ name ∈ route.names, IsEntryName name) : Placed root route := by
  have named := components_intercalate proper
  have below := below?_pathBelow root proper
  rw [← source] at below
  refine ⟨?_, fun further => ?_, below, ?_, isAbsolute_intercalate proper, named, ?_⟩
  · rw [source, components_pathBelow proper, Route.url, components_join_intercalate proper]
  · rw [source, Route.url, join_intercalate proper further]
  · rw [relativeTo, below]
    simp [Route.url, Function.comp_def, Component.text]
  · rw [Route.url, named, List.length_map, Route.depth]

theorem landing_output (proper : ∀ name ∈ route.names, IsEntryName name) (output : Path) :
    landing here (route.output output) = landing here output ++ route.names := by
  have plain : ".." ∉ route.names := fun member => (proper ".." member).ne_dots rfl
  rw [Route.output, Route.url, landing_join (isAbsolute_intercalate proper), steps_intercalate proper,
    foldl_advance plain]

theorem components_output (proper : ∀ name ∈ route.names, IsEntryName name) (output : Path) :
    (route.output output).components = output.components ++ route.names.map Component.name := by
  rw [Route.output, Route.url, components_join_intercalate proper]

/-- No two routes are written to one place. -/
theorem outputs_apart {one other : Route} (directory : disk.isDirectory root = true) (found : one ∈ routes disk root)
    (also : other ∈ routes disk root) (output : Path) (different : one ≠ other) :
    (one.output output).components ≠ (other.output output).components ∧
      landing disk.directory (one.output output) ≠ landing disk.directory (other.output output) := by
  have apart : one.names ≠ other.names := fun same => different (eq_of_names directory found also same)
  have proper := names_of_mem directory found
  have proper' := names_of_mem directory also
  constructor
  · rw [components_output proper, components_output proper']
    exact fun same => apart (List.map_injective_iff.mpr (fun _ _ => Component.name.inj) (List.append_cancel_left same))
  · rw [landing_output proper, landing_output proper']
    exact fun same => apart (List.append_cancel_left same)

variable (works : disk.tree.at? disk.directory = some .directory) (directory : disk.isDirectory root = true)
variable (readable : ∀ names, disk.tree.at? (landing disk.directory root ++ names) = some .directory →
  (pathBelow root names).text.utf8ByteSize ≤ longestPath)
include works directory readable

theorem exists_route_iff_directory : (∃ route ∈ routes disk root, route.names = names) ↔
    disk.tree.at? (landing disk.directory root ++ names) = some .directory := by
  rw [exists_route_iff directory works, and_iff_left_of_imp]
  intro there
  refine readable _ ?_
  rcases List.eq_nil_or_concat' names with rfl | ⟨front, last, rfl⟩
  · exact there
  · rw [List.dropLast_concat]
    rw [← List.append_assoc] at there
    exact disk.tree.closed _ last (by rw [← FileTree.at?, there]; rfl)

theorem visits_iff {visited : List (List String)} :
    Visits disk.tree (landing disk.directory root) visited ↔ visited = (routes disk root).map (·.names) := by
  have there : disk.tree.at? (landing disk.directory root) = some .directory :=
    (Opens.follows (.inr directory) works).2.1
  have same {visited : List (List String)} (visits : Visits disk.tree (landing disk.directory root) visited) :
      visited = (routes disk root).map (·.names) := by
    refine eq_of_before visits.sorted (pairwise_before disk root) fun names => ?_
    rw [visits.mem there, ← exists_route_iff_directory works directory readable, List.mem_map]
  constructor
  · exact same
  · rintro rfl
    obtain ⟨visited, visits⟩ := exists_visits disk.tree (landing disk.directory root)
    exact same visits ▸ visits

/-- The routes are what a walk meets that goes depth first and by the bytes of names: every directory, once, in
the order of the names on the way to it. A route is where its relative path leads from the routes directory, and
its output is where the same path leads from the output directory. -/
theorem routes_walked :
    (∀ visited, Visits disk.tree (landing disk.directory root) visited ↔ visited = (routes disk root).map (·.names)) ∧
    ((routes disk root).map (·.names)).Pairwise Before ∧
    (∀ names, (∃ route ∈ routes disk root, route.names = names) ↔
      disk.tree.at? (landing disk.directory root ++ names) = some .directory) ∧
    (∀ route ∈ routes disk root, Placed root route) ∧
    ∀ output : Path,
      (∀ route ∈ routes disk root,
        (route.output output).components = output.components ++ route.names.map Component.name ∧
          landing disk.directory (route.output output) = landing disk.directory output ++ route.names) ∧
      ∀ one ∈ routes disk root, ∀ other ∈ routes disk root, one ≠ other →
        (one.output output).components ≠ (other.output output).components ∧
          landing disk.directory (one.output output) ≠ landing disk.directory (other.output output) := by
  refine ⟨fun visited => visits_iff works directory readable, pairwise_before disk root,
    fun names => exists_route_iff_directory works directory readable, fun route found => ?_,
    fun output => ⟨fun route found => ?_, fun one found other also => outputs_apart directory found also output⟩⟩
  · exact placed_of_names (source_of_mem directory found) (names_of_mem directory found)
  · have proper := names_of_mem directory found
    exact ⟨components_output proper output, landing_output proper output⟩

omit works directory readable in
/-- In the order of texts the last two would change places. -/
theorem routes_walked_dash :
    let site := siteOf [["a-b"], ["a", "b"]]
    let root : Path := ⟨"./routes/"⟩
    (routes site root).map (·.names) = [[], ["a"], ["a", "b"], ["a-b"]] ∧
      Visits site.tree ["site", "routes"] [[], ["a"], ["a", "b"], ["a-b"]] ∧
      (∀ names, (∃ route ∈ routes site root, route.names = names) ↔
        site.tree.at? (["site", "routes"] ++ names) = some .directory) ∧
      ∀ route ∈ routes site root, Placed root route := by
  intro site root
  have works : site.tree.at? site.directory = some .directory := by decide +kernel
  have directory : site.isDirectory root = true := by decide +kernel
  have location : landing site.directory root = ["site", "routes"] := by decide
  have listed : (routes site root).map (·.names) = [[], ["a"], ["a", "b"], ["a-b"]] := by decide +kernel
  have short : ∀ item ∈ site.tree.below ["site", "routes"],
      (pathBelow root item.1).text.utf8ByteSize ≤ longestPath := by decide +kernel
  have readable (names : List String) (there : site.tree.at? (landing site.directory root ++ names) = some .directory) :
      (pathBelow root names).text.utf8ByteSize ≤ longestPath := by
    by_cases top : names = []
    · rw [top]
      decide
    · rw [location] at there
      exact short (names, .directory) (FileTree.mem_below.mpr ⟨top, there⟩)
  obtain ⟨walked, _, complete, placed, _⟩ := routes_walked works directory readable
  rw [location, listed] at walked
  rw [location] at complete
  exact ⟨listed, (walked _).mpr rfl, complete, placed⟩

end Routes

end Pagewright.Site
