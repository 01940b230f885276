import Pagewright.Proofs.Site.Below

/-! Making a directory below an open path, with its parents. Either something stands in the way and nothing is
made, or all the missing directories are. -/

namespace Pagewright.Site

open Files

variable {disk before middle after : Disk} {tree other : FileTree} {root : Path} {here location : Location}
variable {names front : List String} {last : String}

section Moves

/-- What a step makes of a location, told for each location by what is there. -/
abbrev Effect := Location → Option Entry → Option Entry

/-- A step with a given effect. -/
structure Moves (effect : Effect) (before after : Disk) : Prop where
  directory : after.directory = before.directory
  at? : ∀ location, after.tree.at? location = effect location (before.tree.at? location)

theorem Moves.refl (disk : Disk) : Moves (fun _ entry => entry) disk disk := ⟨rfl, fun _ => rfl⟩

theorem Moves.trans {effect next : Effect} (first : Moves effect before middle) (second : Moves next middle after) :
    Moves (fun location entry => next location (effect location entry)) before after :=
  ⟨second.directory.trans first.directory, fun location => by rw [second.at?, first.at?]⟩

/-- Steps with the same effect lead to the same disk. -/
theorem Moves.eq {effect next : Effect} {one two : Disk} (first : Moves effect before one)
    (second : Moves next before two) (same : ∀ location entry, next location entry = effect location entry) :
    one = two := by
  have trees : one.tree = two.tree := FileTree.ext_at? fun location => by rw [first.at?, second.at?, same]
  have places := first.directory.trans second.directory.symm
  cases one
  cases two
  cases trees
  cases places
  rfl

/-- All directories of a way, where nothing is. -/
def fill (way : Location) : Effect := fun location entry =>
  if location <+: way then entry.or (some .directory) else entry

/-- A file in its place. -/
def place (file : Location) (content : ByteArray) : Effect := fun location entry =>
  if location = file then some (.file content) else entry

end Moves

section Obstacles

/-- What keeps the directories of a way from being made: a file on it. -/
def obstacle? (tree : FileTree) : Location → List String → Option FileError
  | _, [] => none
  | here, name :: rest =>
    match tree.at? (here ++ [name]) with
    | some .directory => obstacle? tree (here ++ [name]) rest
    | some (.file _) => if rest = [] then none else some .notDirectory
    | none => none

theorem at?_below_none (absent : tree.at? here = none) (names : List String) : tree.at? (here ++ names) = none := by
  by_contra present
  by_cases empty : names = []
  · rw [empty, List.append_nil] at present
    exact present absent
  · have directory := FileTree.isDirectory_of_below empty (Option.isSome_iff_ne_none.mpr present)
    simp [directory] at absent

theorem present_of_begins (within : location <+: here) (present : (tree.at? here).isSome = true) :
    (tree.at? location).isSome = true := by
  by_contra missing
  obtain ⟨rest, rfl⟩ := within
  rw [at?_below_none (by simpa using missing) rest] at present
  cases present

theorem not_prefix_of_missing (start : tree.at? here = some .directory) (missing : tree.at? location = none) :
    ¬ location <+: here := by
  rintro ⟨rest, rfl⟩
  rw [at?_below_none missing rest] at start
  cases start

/-- Nothing stands in the way of what is there. -/
theorem obstacle?_of_present (present : (tree.at? (here ++ names)).isSome = true) :
    obstacle? tree here names = none := by
  induction names generalizing here with
  | nil => rfl
  | cons name rest ih =>
    rw [List.append_cons] at present
    rw [obstacle?]
    by_cases empty : rest = []
    · rw [empty, List.append_nil] at present
      obtain ⟨entry, found⟩ := Option.isSome_iff_exists.mp present
      rw [found, empty]
      cases entry <;> rfl
    · rw [FileTree.isDirectory_of_below empty present]
      exact ih present

end Obstacles

section Making

theorem size_le_join {base path : Path} (relative : path.isAbsolute = false) :
    base.text.utf8ByteSize ≤ (base.join path).text.utf8ByteSize := by
  rw [Path.join, if_neg (by simp [relative])]
  split <;> simp [String.utf8ByteSize_append, Nat.add_assoc]

theorem makeDirectory_of_error {path : Path} {cause : FileError} (stopped : disk.target path = .error cause) :
    disk.makeDirectory path = .error cause := by
  rw [Disk.makeDirectory, stopped]
  rfl

theorem makeDirectory_of_entry {path : Path} {parent : Location} {name : String}
    (followed : disk.target path = .ok (.entry parent name)) (free : disk.tree.at? (parent ++ [name]) = none) :
    disk.makeDirectory path = .ok { disk with tree := disk.tree.put parent name .directory } :=
  Disk.makeDirectory_eq_ok.mpr ⟨parent, name, followed, free, rfl⟩

theorem isDirectory_iff_target {path : Path} :
    disk.isDirectory path = true ↔
      ∃ target, disk.target path = .ok target ∧ disk.tree.at? target.location = some .directory := by
  constructor
  · intro directory
    obtain ⟨target, followed, there, _⟩ := Disk.find_eq_ok.mp (Disk.isDirectory_iff.mp directory)
    exact ⟨target, followed, there⟩
  · rintro ⟨target, followed, there⟩
    exact Disk.isDirectory_of_target followed there

theorem isDirectory_of_error {path : Path} {cause : FileError} (stopped : disk.target path = .error cause) :
    disk.isDirectory path = false := by
  rw [← Bool.not_eq_true, isDirectory_iff_target, stopped]
  simp

/-- A new directory at the end of a way that is there. -/
theorem Moves.put_directory {parent : Location} {name : String} (directory : disk.tree.at? parent = some .directory)
    (free : disk.tree.at? (parent ++ [name]) = none) (proper : IsEntryName name) :
    Moves (fill (parent ++ [name])) disk { disk with tree := disk.tree.put parent name .directory } := by
  refine ⟨rfl, fun location => ?_⟩
  rw [FileTree.at?_put _ _ _ _ directory (by simp [free]) proper, fill]
  by_cases here : location = parent ++ [name]
  · simp [here, free]
  · rw [if_neg here]
    split
    next within =>
      have before : location <+: parent := (List.prefix_concat_iff.mp within).resolve_left here
      obtain ⟨entry, found⟩ := Option.isSome_iff_exists.mp (present_of_begins before (by rw [directory]; rfl))
      rw [found]
      rfl
    next => rfl

/-- A way that is there has no directories missing. -/
theorem Moves.fill_of_present {way : Location} (present : (disk.tree.at? way).isSome = true) :
    Moves (fill way) disk disk := by
  refine ⟨rfl, fun location => ?_⟩
  rw [fill]
  split
  next within =>
    obtain ⟨entry, found⟩ := Option.isSome_iff_exists.mp (present_of_begins within present)
    rw [found]
    rfl
  next => rfl

theorem Moves.fill_concat {way : Location} {name : String} (first : Moves (fill way) before middle)
    (second : Moves (fill (way ++ [name])) middle after) : Moves (fill (way ++ [name])) before after := by
  refine ⟨(first.trans second).directory, fun location => ?_⟩
  rw [(first.trans second).at?]
  dsimp only [fill]
  by_cases within : location <+: way
  · simp [within, within.trans (List.prefix_append way [name])]
  · simp [within]

theorem Moves.grows {way : Location} (moves : Moves (fill way) before after) :
    Grows (· <+: way) (fun _ => False) before after := by
  refine ⟨moves.directory, fun location => ?_⟩
  rw [moves.at?, fill]
  split
  next within =>
    cases before.tree.at? location with
    | none => exact .directory within
    | some entry => exact .same _
  next => exact .same _

theorem Moves.fill_isSome {way : Location} (moves : Moves (fill way) before after) :
    (after.tree.at? way).isSome = true := by
  rw [moves.at?, fill, if_pos List.prefix_rfl, Option.isSome_or, Option.isSome_some, Bool.or_true]

theorem Moves.fill_still {way : Location} (moves : Moves (fill way) before after)
    (present : (before.tree.at? way).isSome = true) : after = before :=
  moves.eq (.fill_of_present present) fun _ _ => rfl

/-- What keeps the directories of a way below a path from being made, if not the length of its text. -/
def blocked? (disk : Disk) (root path : Path) (names : List String) : Option FileError :=
  if longestPath < path.text.utf8ByteSize then some .nameTooLong
  else obstacle? disk.tree (landing disk.directory root) names

theorem on_makeDirectoriesOf_of_error {path : Path} {cause : FileError} (parents : List Path)
    (full : path.isEmpty = false) (stopped : disk.target path = .error cause) (other : cause ≠ .notFound) :
    (makeDirectoriesOf (path :: parents)).on disk = (.error cause, disk) := by
  rw [on_makeDirectoriesOf, if_neg (by simp [full]), makeDirectory_of_error stopped, isDirectory_of_error stopped]
  cases cause <;> first | rfl | exact absurd rfl other

/-- A path that leads nowhere for another reason than a missing directory cannot be made. -/
theorem on_makeDirectories_of_error {path : Path} {cause : FileError} (stopped : disk.target path = .error cause)
    (other : cause ≠ .notFound) : (makeDirectories path).on disk = (.error cause, disk) := by
  have full : path.isEmpty = false := by
    rw [← Bool.not_eq_true]
    intro empty
    have text : path = ⟨""⟩ := congrArg Path.mk (String.isEmpty_iff.mp empty)
    rw [text] at stopped
    cases stopped
    exact other rfl
  obtain ⟨parents, listed⟩ := Path.exists_ancestors path
  rw [makeDirectories, listed]
  exact on_makeDirectoriesOf_of_error parents full stopped other

theorem isDirectory_of_makeDirectory {path : Path} (works : disk.tree.at? disk.directory = some .directory)
    (made : disk.makeDirectory path = .ok after) : after.isDirectory path = true := by
  have grows := makeDirectory_grows made
  obtain ⟨parent, name, followed, free, rfl⟩ := Disk.makeDirectory_eq_ok.mp made
  have directory : disk.tree.at? parent = some .directory := Disk.target_isDirectory works followed
  have stored := (FileTree.at?_put _ _ _ .directory directory (by rw [free]; nofun) (Disk.target_named followed)
    (parent ++ [name])).trans (if_pos rfl)
  have again := grows.target followed
  exact Disk.isDirectory_of_target again stored

/-- A directory that has been made is there. -/
theorem opens_of_makeDirectories {path : Path} (works : disk.tree.at? disk.directory = some .directory)
    (made : (makeDirectories path).on disk = (.ok ⟨⟩, after)) : Opens after path := by
  obtain ⟨parents, listed⟩ := Path.exists_ancestors path
  rw [makeDirectories, listed, on_makeDirectoriesOf] at made
  split at made
  next empty => exact .inl empty
  next =>
    refine .inr ?_
    split at made
    next last first =>
      cases made
      exact isDirectory_of_makeDirectory works first
    next =>
      split at made
      next => cases made
      next middle further =>
        have grows : Grows (fun _ => True) (fun _ => False) disk ((makeDirectoriesOf parents).on disk).2 :=
          makeDirectoriesOf_grows fun _ _ _ _ _ => trivial
        rw [further] at grows
        split at made
        next last again =>
          cases made
          exact isDirectory_of_makeDirectory (grows.directory ▸ grows.isDirectory works) again
        next =>
          obtain ⟨same, rfl⟩ := Prod.mk.inj made
          split at same
          next there => exact there
          next => cases same
    next =>
      obtain ⟨same, rfl⟩ := Prod.mk.inj made
      split at same
      next there => exact there
      next => cases same

end Making

end Pagewright.Site
