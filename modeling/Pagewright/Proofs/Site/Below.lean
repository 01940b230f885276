import Pagewright.Proofs.Files.Entries
import Pagewright.Proofs.Files.Growth
import Pagewright.Site.Route

/-! Paths below a directory that is there. They lead where their names say, so what is found, made or written
at them is told by the tree alone, unless their text is too long. -/

namespace Pagewright.Site

open Files

variable {disk after : Disk} {tree : FileTree} {root : Path} {here location : Location}
variable {names front rest : List String} {last : String}

section Texts

theorem not_isVoid {name : String} (proper : IsEntryName name) : Path.isVoid name = false := by
  simp [Path.isVoid, proper.ne_empty, proper.ne_dot]

@[simp] theorem pathBelow_nil (root : Path) : pathBelow root [] = root := rfl

@[simp] theorem pathBelow_cons (root : Path) (name : String) (rest : List String) :
    pathBelow root (name :: rest) = pathBelow (root.join ⟨name⟩) rest := rfl

theorem pathBelow_append (root : Path) (front rest : List String) :
    pathBelow root (front ++ rest) = pathBelow (pathBelow root front) rest := List.foldl_append

theorem pathBelow_concat (root : Path) (front : List String) (last : String) :
    pathBelow root (front ++ [last]) = (pathBelow root front).join ⟨last⟩ := pathBelow_append root front [last]

theorem isEmpty_pathBelow (proper : ∀ name ∈ names, IsEntryName name) (nonempty : names ≠ []) :
    (pathBelow root names).isEmpty = false := by
  obtain ⟨front, last, rfl⟩ := (List.eq_nil_or_concat' names).resolve_left nonempty
  rw [pathBelow_concat]
  exact Path.isEmpty_join (proper last (by simp)).ne_empty

theorem endsInSlash_pathBelow (proper : ∀ name ∈ names, IsEntryName name) (nonempty : names ≠ []) :
    (pathBelow root names).endsInSlash = false := by
  obtain ⟨front, last, rfl⟩ := (List.eq_nil_or_concat' names).resolve_left nonempty
  have named := proper last (by simp)
  rw [pathBelow_concat]
  exact Path.endsInSlash_join named.not_mem_slash (not_isVoid named)

variable (proper : ∀ name ∈ names, IsEntryName name)
include proper

theorem filter_pieces_pathBelow :
    (pathBelow root names).pieces.filter (· ≠ "") = root.pieces.filter (· ≠ "") ++ names := by
  induction names generalizing root with
  | nil => exact (List.append_nil _).symm
  | cons name rest ih =>
    obtain ⟨first, others⟩ := List.forall_mem_cons.mp proper
    change (pathBelow (root.join ⟨name⟩) rest).pieces.filter (· ≠ "") = _
    rw [ih others, Path.filter_pieces_join first.not_mem_slash first.ne_empty, List.append_assoc,
      List.singleton_append]

theorem isAbsolute_pathBelow : (pathBelow root names).isAbsolute = root.isAbsolute := by
  induction names generalizing root with
  | nil => rfl
  | cons name rest ih =>
    obtain ⟨first, others⟩ := List.forall_mem_cons.mp proper
    change (pathBelow (root.join ⟨name⟩) rest).isAbsolute = _
    rw [ih others, Path.isAbsolute_join (Path.isAbsolute_name first.not_mem_slash)]

theorem mem_nul_pathBelow :
    '\x00' ∈ (pathBelow root names).text.toList ↔ '\x00' ∈ root.text.toList := by
  induction names generalizing root with
  | nil => rfl
  | cons name rest ih =>
    obtain ⟨first, others⟩ := List.forall_mem_cons.mp proper
    change '\x00' ∈ (pathBelow (root.join ⟨name⟩) rest).text.toList ↔ _
    rw [ih others, Path.join, if_neg (by simp [Path.isAbsolute_name first.not_mem_slash])]
    split <;> simp [first.not_mem_nul]

theorem steps_pathBelow : (pathBelow root names).steps = root.steps ++ names := by
  rw [← Path.filter_filter_pieces, ← Path.filter_filter_pieces, filter_pieces_pathBelow proper, List.filter_append]
  congr 1
  exact List.filter_eq_self.mpr fun name member => by simp [not_isVoid (proper name member)]

theorem landing_pathBelow : landing here (pathBelow root names) = landing here root ++ names := by
  have plain : ".." ∉ names := fun member => (proper ".." member).ne_dots rfl
  rw [landing, landing, origin, origin, steps_pathBelow proper, isAbsolute_pathBelow proper, List.foldl_append,
    foldl_advance plain]

omit proper in
theorem join_join_name {name rest : String} (named : IsEntryName name) (relative : (Path.mk rest).isAbsolute = false) :
    (root.join ⟨name⟩).join ⟨rest⟩ = root.join ⟨name ++ "/" ++ rest⟩ := by
  have first : (Path.mk (name ++ "/" ++ rest)).isAbsolute = false := by
    rw [← Bool.not_eq_true, Path.isAbsolute_iff, Path.pieces_append, Path.pieces_name named.not_mem_slash]
    simp [named.ne_empty]
  rw [Path.join_of_relative relative, Path.isEmpty_join named.ne_empty,
    Path.endsInSlash_join named.not_mem_slash (not_isVoid named), Path.join_of_relative first,
    Path.join_of_relative (Path.isAbsolute_name named.not_mem_slash)]
  cases root.isEmpty || root.endsInSlash <;> simp [String.append_assoc]

theorem isAbsolute_intercalate : (Path.mk ("/".intercalate names)).isAbsolute = false := by
  rw [← Bool.not_eq_true]
  intro absolute
  obtain ⟨_, _, same⟩ := (Path.isAbsolute_ofPieces fun piece member => (proper piece member).not_mem_slash).mp absolute
  exact (proper "" (same ▸ List.mem_cons_self)).ne_empty rfl

theorem join_intercalate (nonempty : names ≠ []) : root.join ⟨"/".intercalate names⟩ = pathBelow root names := by
  induction names generalizing root with
  | nil => exact absurd rfl nonempty
  | cons name rest ih =>
    obtain ⟨named, others⟩ := List.forall_mem_cons.mp proper
    cases rest with
    | nil => simp [pathBelow]
    | cons next rest =>
      change _ = pathBelow (root.join ⟨name⟩) (next :: rest)
      rw [← ih others (by simp), join_join_name named (isAbsolute_intercalate others)]
      simp [String.intercalate_cons_cons]

theorem steps_intercalate : (Path.mk ("/".intercalate names)).steps = names := by
  rw [← Path.ofPieces, Path.steps_ofPieces fun piece member => (proper piece member).not_mem_slash]
  exact List.filter_eq_self.mpr fun name member => by simp [not_isVoid (proper name member)]

/-- Joined with names at once, a path takes the same steps as below. -/
theorem steps_join_intercalate : (root.join ⟨"/".intercalate names⟩).steps = root.steps ++ names := by
  rw [Path.steps_join (isAbsolute_intercalate proper), steps_intercalate proper]

theorem filterMap_pieceComponent? : names.filterMap Path.pieceComponent? = names.map Component.name := by
  rw [← List.filterMap_eq_map]
  refine List.filterMap_congr fun name member => ?_
  have named := proper name member
  simp [Path.pieceComponent?, not_isVoid named, named.ne_dots]

theorem split_fst_intercalate : (Path.mk ("/".intercalate names)).split.1 = .nothing := by
  rw [Path.split_fst, isAbsolute_intercalate proper, if_neg nofun, if_neg]
  cases names with
  | nil => decide
  | cons name rest =>
    have pieces := Path.pieces_ofPieces (List.cons_ne_nil name rest) fun piece member =>
      (proper piece member).not_mem_slash
    rw [Path.ofPieces] at pieces
    rw [pieces, List.head?_cons, Option.some.injEq]
    exact (proper name List.mem_cons_self).ne_dot

theorem components_join_intercalate :
    (root.join ⟨"/".intercalate names⟩).components = root.components ++ names.map Component.name := by
  rw [Path.components_eq, Path.components_eq, steps_join_intercalate proper, List.filterMap_append,
    filterMap_pieceComponent? proper, Path.split_fst_join (isAbsolute_intercalate proper) (split_fst_intercalate proper),
    List.append_assoc]

theorem components_pathBelow : (pathBelow root names).components = root.components ++ names.map Component.name := by
  by_cases top : names = []
  · rw [top, pathBelow_nil, List.map_nil, List.append_nil]
  · rw [← join_intercalate proper top, components_join_intercalate proper]

end Texts

section Opening

/-- A path from which names can be followed: a directory, or no text for the directory worked in. -/
def Opens (disk : Disk) (root : Path) : Prop := root.isEmpty = true ∨ disk.isDirectory root = true

theorem landing_of_isEmpty (empty : root.isEmpty = true) : landing here root = here := by
  have text : root.text = "" := String.isEmpty_iff.mp empty
  simp [landing, Path.steps_of_empty empty, origin, Path.isAbsolute, text]

/-- An open path can be followed to its end, which is a directory. -/
theorem Opens.follows (opens : Opens disk root) (works : disk.tree.at? disk.directory = some .directory) :
    '\x00' ∉ root.text.toList ∧ disk.tree.at? (landing disk.directory root) = some .directory ∧
      ∃ target, Follows disk.tree (origin disk.directory root) (root.pieces.filter (· ≠ "")) target ∧
        target.location = landing disk.directory root := by
  rcases opens with empty | directory
  · have text : root.text = "" := String.isEmpty_iff.mp empty
    rw [landing_of_isEmpty empty]
    refine ⟨by simp [text], works, .directory disk.directory, ?_, rfl⟩
    simp only [origin, Path.isAbsolute, Path.pieces, text]
    exact .done disk.directory
  · have found := Disk.isDirectory_iff.mp directory
    obtain ⟨target, followed, there, _, arrives⟩ := Disk.find_eq_ok.mp found
    obtain ⟨⟨clean, _, _⟩, follows⟩ := Disk.target_eq_ok.mp followed
    exact ⟨by simpa using clean, arrives ▸ there, target, follows, arrives⟩

theorem isDirectory_grows {directories files : Location → Prop} (grows : Grows directories files disk after)
    (directory : disk.isDirectory root = true) : after.isDirectory root = true := by
  obtain ⟨target, followed, there, _⟩ := Disk.find_eq_ok.mp (Disk.isDirectory_iff.mp directory)
  exact Disk.isDirectory_of_target (grows.target followed) (grows.isDirectory there)

theorem Opens.grows {directories files : Location → Prop} (opens : Opens disk root)
    (grows : Grows directories files disk after) : Opens after root := opens.imp_right (isDirectory_grows grows)

theorem follow_append {target : Target} (follows : Follows tree here front target)
    (directory : tree.at? target.location = some .directory) (more : rest ≠ []) :
    follow tree here (front ++ rest) = follow tree target.location rest := by
  induction follows with
  | done => rfl
  | stay _ ih => exact ih directory
  | back _ ih => exact ih directory
  | @last here name plain onward fits =>
    have found : tree.at? (here ++ [name]) = some .directory := directory
    rw [List.singleton_append, follow_name _ plain onward, if_neg (Nat.not_lt.mpr fits), if_neg (by simpa using more),
      found]
    rfl
  | into plain onward fits _ found _ ih =>
    rw [List.cons_append, follow_name _ plain onward, if_neg (Nat.not_lt.mpr fits), if_neg (by simp [more]), found]
    exact ih directory

/-- Below an open path only the names are left to be followed. -/
theorem target_pathBelow (works : disk.tree.at? disk.directory = some .directory) (opens : Opens disk root)
    (proper : ∀ name ∈ names, IsEntryName name) (nonempty : names ≠ []) :
    disk.target (pathBelow root names) =
      if longestPath < (pathBelow root names).text.utf8ByteSize then .error .nameTooLong
      else follow disk.tree (landing disk.directory root) names := by
  obtain ⟨clean, directory, target, follows, arrives⟩ := opens.follows works
  rw [Disk.target, if_neg (by simpa [mem_nul_pathBelow proper] using clean),
    if_neg (by simp [isEmpty_pathBelow proper nonempty]), filter_pieces_pathBelow proper,
    isAbsolute_pathBelow proper, ← arrives]
  congr 1
  exact follow_append follows (arrives ▸ directory) nonempty

end Opening

section Names

variable (proper : ∀ name ∈ front ++ [last], IsEntryName name)
include proper

theorem follow_directory (directory : tree.at? (here ++ front) = some .directory) :
    follow tree here (front ++ [last]) = .ok (.entry (here ++ front) last) := by
  induction front generalizing here with
  | nil =>
    have named := proper last (by simp)
    rw [List.nil_append, List.append_nil, follow_name _ named.ne_dot named.ne_dots,
      if_neg (Nat.not_lt.mpr named.fits), if_pos List.isEmpty_nil]
  | cons name front ih =>
    obtain ⟨named, others⟩ := List.forall_mem_cons.mp proper
    rw [List.append_cons] at directory
    have first : tree.at? (here ++ [name]) = some .directory := by
      by_cases empty : front = []
      · rwa [empty, List.append_nil] at directory
      · exact FileTree.isDirectory_of_below empty (by rw [directory]; rfl)
    rw [List.cons_append, follow_name _ named.ne_dot named.ne_dots, if_neg (Nat.not_lt.mpr named.fits),
      if_neg (by simp), first]
    dsimp only
    rw [ih others directory, ← List.append_cons]

theorem follow_file {content : ByteArray} (nonempty : front ≠ [])
    (file : tree.at? (here ++ front) = some (.file content)) :
    follow tree here (front ++ [last]) = .error .notDirectory := by
  induction front generalizing here with
  | nil => exact absurd rfl nonempty
  | cons name front ih =>
    obtain ⟨named, others⟩ := List.forall_mem_cons.mp proper
    rw [List.append_cons] at file
    rw [List.cons_append, follow_name _ named.ne_dot named.ne_dots, if_neg (Nat.not_lt.mpr named.fits),
      if_neg (by simp)]
    by_cases empty : front = []
    · rw [empty, List.append_nil] at file
      rw [file]
    · rw [FileTree.isDirectory_of_below empty (by rw [file]; rfl)]
      exact ih others empty file

end Names

section Apart

/-- Neither of two directories lies in the other one. -/
def Apart (here : Location) (path other : Path) : Prop :=
  ¬ landing here path <+: landing here other ∧ ¬ landing here other <+: landing here path

instance (here : Location) (path other : Path) : Decidable (Apart here path other) :=
  inferInstanceAs (Decidable (_ ∧ _))

/-- What lies in one of two directories does not lie in the other one. -/
theorem Apart.not_prefix {path other : Path} (apart : Apart here path other)
    (within : landing here other <+: location) : ¬ landing here path <+: location :=
  fun below => (List.prefix_or_prefix_of_prefix below within).elim apart.1 apart.2

end Apart

section Finding

variable (works : disk.tree.at? disk.directory = some .directory) (opens : Opens disk root)
variable (proper : ∀ name ∈ names, IsEntryName name) (nonempty : names ≠ [])
include works opens proper nonempty

/-- What is found below an open path is what the tree has there. -/
theorem find_pathBelow {entry : Entry} : disk.find (pathBelow root names) = .ok (location, entry) ↔
    (pathBelow root names).text.utf8ByteSize ≤ longestPath ∧ location = landing disk.directory root ++ names ∧
      disk.tree.at? location = some entry := by
  constructor
  · intro found
    obtain ⟨arrives, there⟩ := Disk.find_location found
    rw [landing_pathBelow proper] at arrives
    obtain ⟨target, followed, _⟩ := Disk.find_eq_ok.mp found
    exact ⟨(Disk.target_eq_ok.mp followed).1.2.2, arrives, there⟩
  · rintro ⟨fits, rfl, there⟩
    obtain ⟨front, last, rfl⟩ := (List.eq_nil_or_concat' names).resolve_left nonempty
    rw [← List.append_assoc] at there ⊢
    have directory := disk.tree.closed _ _ (by rw [← FileTree.at?, there]; rfl)
    refine Disk.find_eq_ok.mpr ⟨.entry (landing disk.directory root ++ front) last, ?_, there, ?_, rfl⟩
    · rw [target_pathBelow works opens proper nonempty, if_neg (Nat.not_lt.mpr fits),
        follow_directory proper directory]
    · exact fun _ _ _ _ _ => endsInSlash_pathBelow proper nonempty

theorem contains_pathBelow : disk.contains (pathBelow root names) = true ↔
    (pathBelow root names).text.utf8ByteSize ≤ longestPath ∧
      (disk.tree.at? (landing disk.directory root ++ names)).isSome = true := by
  unfold Disk.contains Except.isOk Except.toBool
  constructor
  · intro given
    split at given
    next found =>
      obtain ⟨fits, arrives, there⟩ := (find_pathBelow works opens proper nonempty).mp found
      exact ⟨fits, by rw [← arrives, there]; rfl⟩
    next => cases given
  · rintro ⟨fits, present⟩
    obtain ⟨entry, there⟩ := Option.isSome_iff_exists.mp present
    rw [(find_pathBelow works opens proper nonempty).mpr ⟨fits, rfl, there⟩]

theorem isFile_pathBelow : disk.isFile (pathBelow root names) = true ↔
    (pathBelow root names).text.utf8ByteSize ≤ longestPath ∧
      ∃ content, disk.tree.at? (landing disk.directory root ++ names) = some (.file content) := by
  unfold Disk.isFile
  constructor
  · intro given
    split at given
    next location content found =>
      obtain ⟨fits, rfl, there⟩ := (find_pathBelow works opens proper nonempty).mp found
      exact ⟨fits, content, there⟩
    next => cases given
  · rintro ⟨fits, content, there⟩
    rw [(find_pathBelow works opens proper nonempty).mpr ⟨fits, rfl, there⟩]

theorem isDirectory_pathBelow : disk.isDirectory (pathBelow root names) = true ↔
    (pathBelow root names).text.utf8ByteSize ≤ longestPath ∧
      disk.tree.at? (landing disk.directory root ++ names) = some .directory := by
  rw [Disk.isDirectory_iff, find_pathBelow works opens proper nonempty, landing_pathBelow proper]
  simp

end Finding

end Pagewright.Site
