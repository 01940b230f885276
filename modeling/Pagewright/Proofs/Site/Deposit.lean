import Pagewright.Proofs.Site.Reach
import Pagewright.Site.Build

/-! What a route leaves in the output: the directories of its way and its two documents. How far it gets is
decided by what stands on the way and in the places of the documents, and nothing else is touched. -/

namespace Pagewright.Site

open Files Expansion
open Markup (Documents)

variable {disk after : Disk} {root : Path} {here location : Location} {names : List String}

section Output

variable {route : Route} (proper : ∀ name ∈ route.names, IsEntryName name)

include proper

theorem output_eq_pathBelow (nonempty : route.names ≠ []) : route.output root = pathBelow root route.names :=
  join_intercalate proper nonempty

theorem output_join {name : String} (named : IsEntryName name) :
    (route.output root).join ⟨name⟩ = pathBelow root (route.names ++ [name]) := by
  rw [pathBelow_concat]
  by_cases top : route.names = []
  · rw [Route.output, Route.url, top]
    exact Path.join_empty_join (Path.isAbsolute_name named.not_mem_slash)
  · rw [output_eq_pathBelow proper top]

end Output

section Opening

theorem filter_pieces_join_empty (root : Path) :
    (root.join ⟨""⟩).pieces.filter (· ≠ "") = root.pieces.filter (· ≠ "") := by
  have relative : (Path.mk "").isAbsolute = false := rfl
  cases empty : root.isEmpty with
  | true =>
    have text : root.text = "" := String.isEmpty_iff.mp empty
    rw [Path.join_of_empty relative empty, Path.pieces, Path.pieces, text]
  | false =>
    obtain ⟨front, ending, left, joined, _, void⟩ := Path.pieces_join relative empty
    have nothing : ending.filter (· ≠ "") = [] := by simpa using void
    rw [left, joined, List.filter_append, List.filter_append, nothing]
    rfl

/-- A directory is still found with a slash behind it, unless that makes its path too long. -/
theorem target_join_empty (works : disk.tree.at? disk.directory = some .directory)
    (directory : disk.isDirectory root = true) :
    if longestPath < (root.join ⟨""⟩).text.utf8ByteSize then disk.target (root.join ⟨""⟩) = .error .nameTooLong
    else disk.contains (root.join ⟨""⟩) = true := by
  have relative : (Path.mk "").isAbsolute = false := rfl
  obtain ⟨clean, there, target, follows, arrives⟩ := Opens.follows (.inr directory) works
  have found := Disk.isDirectory_iff.mp directory
  obtain ⟨_, followed, _⟩ := Disk.find_eq_ok.mp found
  have full := (Disk.target_eq_ok.mp followed).1.2.1
  have text : root.join ⟨""⟩ = _ := Path.join_of_relative relative
  have still : (root.join ⟨""⟩).isEmpty = false := by
    rw [text]
    split <;> simp_all [Path.isEmpty, String.isEmpty_iff]
  have plain : '\x00' ∉ (root.join ⟨""⟩).text.toList := by
    rw [text]
    split <;> simp [clean]
  have onward : follow disk.tree (origin disk.directory (root.join ⟨""⟩))
      ((root.join ⟨""⟩).pieces.filter (· ≠ "")) = .ok target := by
    rw [filter_pieces_join_empty, origin, Path.isAbsolute_join relative]
    exact follows.follow_eq
  split
  next long =>
    rw [Disk.target, if_neg (by simpa using plain), if_neg (by simp [still]), if_pos long]
  next fits =>
    have again : disk.target (root.join ⟨""⟩) = .ok target := by
      rw [Disk.target, if_neg (by simpa using plain), if_neg (by simp [still]), if_neg fits]
      exact onward
    have there : disk.tree.at? target.location = some .directory := by rw [arrives, there]
    rw [Disk.contains, Disk.find_directory again there]
    rfl

theorem not_contains {path : Path} {cause : FileError} (stopped : disk.target path = .error cause) :
    disk.contains path = false := by
  rw [Disk.contains, Disk.find, stopped]
  rfl

/-- How a route comes to its output directory. -/
def openOutput (disk : Disk) (output : Path) : Except FileError Unit × Disk :=
  if disk.contains output then (.ok ⟨⟩, disk) else (makeDirectories output).on disk

/-- The output directory of the route that is the routes directory itself is the one that is there. -/
theorem openOutput_root (works : disk.tree.at? disk.directory = some .directory) (opens : Opens disk root) :
    openOutput disk (root.join ⟨""⟩) =
      (if longestPath < (root.join ⟨""⟩).text.utf8ByteSize then .error .nameTooLong else .ok ⟨⟩, disk) := by
  unfold openOutput
  rcases opens with empty | directory
  · have nothing : root.join ⟨""⟩ = ⟨""⟩ := Path.join_of_empty rfl empty
    have target : disk.target ⟨""⟩ = .error .notFound := rfl
    obtain ⟨parents, listed⟩ := Path.exists_ancestors ⟨""⟩
    rw [nothing, if_neg (by simp [not_contains target]), if_neg (by decide), makeDirectories, listed,
      on_makeDirectoriesOf, if_pos (by decide)]
  · have target := target_join_empty works directory
    split at target
    next long =>
      rw [if_pos long, if_neg (by simp [not_contains target])]
      exact on_makeDirectories_of_error target (by decide)
    next fits => rw [if_neg fits, if_pos target]

/-- The output directory of a route is made whole, or something keeps it from being made. -/
theorem openOutput_cases (works : disk.tree.at? disk.directory = some .directory) (opens : Opens disk root)
    {route : Route} (proper : ∀ name ∈ route.names, IsEntryName name) :
    match blocked? disk root (route.output root) route.names with
    | some cause => openOutput disk (route.output root) = (.error cause, disk)
    | none => ∃ after, openOutput disk (route.output root) = (.ok ⟨⟩, after) ∧
        Moves (fill (landing disk.directory root ++ route.names)) disk after := by
  have start := (opens.follows works).2.1
  unfold blocked?
  by_cases top : route.names = []
  · have output : route.output root = root.join ⟨""⟩ := by rw [Route.output, Route.url, top]; rfl
    rw [output, top, openOutput_root works opens]
    by_cases long : longestPath < (root.join ⟨""⟩).text.utf8ByteSize
    · rw [if_pos long, if_pos long]
    · rw [if_neg long, if_neg long]
      exact ⟨disk, rfl, .fill_of_present (by rw [List.append_nil, start]; rfl)⟩
  · have output : route.output root = pathBelow root route.names := output_eq_pathBelow proper top
    rw [output]
    unfold openOutput
    have target := target_pathBelow works opens proper top
    have contained := contains_pathBelow works opens proper top
    by_cases long : longestPath < (pathBelow root route.names).text.utf8ByteSize
    · rw [if_pos long] at target ⊢
      rw [if_neg fun given => absurd (contained.mp given).1 (Nat.not_le.mpr long)]
      exact on_makeDirectories_of_error target (by decide)
    · have fits := Nat.not_lt.mp long
      rw [if_neg long]
      by_cases present : (disk.tree.at? (landing disk.directory root ++ route.names)).isSome = true
      · rw [if_pos (contained.mpr ⟨fits, present⟩), obstacle?_of_present present]
        exact ⟨disk, rfl, .fill_of_present present⟩
      · rw [if_neg fun given => present (contained.mp given).2]
        exact on_makeDirectories_pathBelow works opens proper fits (by simpa using present)

end Opening

section Writing

variable {name : String}

/-- What keeps a document from being written below a path. -/
def refused? (disk : Disk) (root : Path) (names : List String) (name : String) : Option FileError :=
  if longestPath < (pathBelow root (names ++ [name])).text.utf8ByteSize then some .nameTooLong
  else
    match disk.tree.at? (landing disk.directory root ++ names) with
    | some .directory =>
      match disk.tree.at? (landing disk.directory root ++ names ++ [name]) with
      | some .directory => some .isDirectory
      | _ => none
    | _ => some .notDirectory

/-- A document is written in its place, or something keeps it from being written. -/
theorem write_cases (content : ByteArray) (works : disk.tree.at? disk.directory = some .directory)
    (opens : Opens disk root) (proper : ∀ part ∈ names ++ [name], IsEntryName part)
    (present : (disk.tree.at? (landing disk.directory root ++ names)).isSome = true) :
    match refused? disk root names name with
    | some cause => disk.write (pathBelow root (names ++ [name])) content = .error cause
    | none => ∃ after, disk.write (pathBelow root (names ++ [name])) content = .ok after ∧
        Moves (place (landing disk.directory root ++ names ++ [name]) content) disk after := by
  have start := (opens.follows works).2.1
  have target := target_pathBelow works opens proper (by simp)
  have ending : (pathBelow root (names ++ [name])).endsInSlash = false := endsInSlash_pathBelow proper (by simp)
  unfold refused?
  by_cases long : longestPath < (pathBelow root (names ++ [name])).text.utf8ByteSize
  · rw [if_pos long] at target ⊢
    rw [Disk.write, target]
    rfl
  · rw [if_neg long] at target ⊢
    obtain ⟨entry, there⟩ := Option.isSome_iff_exists.mp present
    cases entry with
    | file other =>
      have below : names ≠ [] := by
        rintro rfl
        rw [List.append_nil, start] at there
        cases there
      rw [there, Disk.write, target, follow_file proper below there]
      rfl
    | directory =>
      rw [follow_directory proper there] at target
      have placed (free : disk.tree.at? (landing disk.directory root ++ names ++ [name]) ≠ some .directory) :
          Moves (place (landing disk.directory root ++ names ++ [name]) content) disk
            { disk with tree := disk.tree.put (landing disk.directory root ++ names) name (.file content) } :=
        ⟨rfl, FileTree.at?_put _ _ _ _ there free (proper name (by simp))⟩
      rw [there, Disk.write, target]
      simp only [ending, bind, Except.bind]
      cases slot : disk.tree.at? (landing disk.directory root ++ names ++ [name]) with
      | none =>
        exact ⟨_, rfl, placed (by rw [slot]; nofun)⟩
      | some entry =>
        cases entry with
        | directory => rfl
        | file other => exact ⟨_, rfl, placed (by rw [slot]; nofun)⟩

theorem on_writeDocument (path : Path) (text : String) (disk : Disk) :
    (writeDocument path text).on disk =
      match disk.write path text.toUTF8 with
      | .ok after => (.ok ⟨⟩, after)
      | .error cause => (.error (.write path cause), disk) := by
  rw [writeDocument, OnDisk.on_withError, on_writeText]
  cases disk.write path text.toUTF8 <;> rfl

end Writing

section Compiling

variable {placeholder : Placeholder} {source output : Path} {depth : Nat}

/-- The documents of a route are written one after the other. -/
def writeDocuments (disk : Disk) (output : Path) (documents : Documents) : Except BuildError Documents × Disk :=
  match disk.write (output.join ⟨markupName⟩) documents.html.toUTF8 with
  | .error cause => (.error (.write (output.join ⟨markupName⟩) cause), disk)
  | .ok marked =>
    match marked.write (output.join ⟨stylesName⟩) documents.css.toUTF8 with
    | .error cause => (.error (.write (output.join ⟨stylesName⟩) cause), marked)
    | .ok styled => (.ok documents, styled)

theorem on_writeDocuments (output : Path) (documents : Documents) (disk : Disk) :
    (do
      writeDocument (output.join ⟨markupName⟩) documents.html
      writeDocument (output.join ⟨stylesName⟩) documents.css
      return documents : OnDisk BuildError Documents).on disk = writeDocuments disk output documents := by
  rw [writeDocuments, OnDisk.on_bind, on_writeDocument]
  cases disk.write (output.join ⟨markupName⟩) documents.html.toUTF8 with
  | error cause => rfl
  | ok marked =>
    dsimp only
    rw [OnDisk.on_bind, on_writeDocument]
    cases marked.write (output.join ⟨stylesName⟩) documents.css.toUTF8 <;> rfl

theorem on_compileRoute (placeholder : Placeholder) (source output : Path) (depth : Nat) (disk : Disk) :
    (compileRoute placeholder source output depth).on disk =
      match compilePage placeholder disk source depth with
      | .error error => (.error error, disk)
      | .ok documents =>
        match openOutput disk output with
        | (.error cause, after) => (.error (.write output cause), after)
        | (.ok _, opened) => writeDocuments opened output documents := by
  rw [compileRoute, OnDisk.on_bind, OnDisk.on_get]
  dsimp only
  cases compilePage placeholder disk source depth with
  | error error => rfl
  | ok documents =>
    have lifted : (liftM (.ok documents : Except BuildError Documents) : OnDisk BuildError Documents).on disk =
        (.ok documents, disk) := rfl
    rw [OnDisk.on_bind, lifted]
    unfold openOutput
    cases disk.contains output with
    | true => exact on_writeDocuments output documents disk
    | false =>
      simp only [Bool.false_eq_true, if_false]
      rw [OnDisk.on_bind, OnDisk.on_withError]
      rcases (makeDirectories output).on disk with ⟨_ | _, opened⟩
      · rfl
      · exact on_writeDocuments output documents opened

/-- What has been done for a route that is compiled. -/
theorem compiled_steps {documents : Documents}
    (compiled : (compileRoute placeholder source output depth).on disk = (.ok documents, after)) :
    compilePage placeholder disk source depth = .ok documents ∧
      ∃ opened marked, openOutput disk output = (.ok ⟨⟩, opened) ∧
        opened.write (output.join ⟨markupName⟩) documents.html.toUTF8 = .ok marked ∧
        marked.write (output.join ⟨stylesName⟩) documents.css.toUTF8 = .ok after := by
  rw [on_compileRoute] at compiled
  split at compiled
  next => cases compiled
  next page =>
    split at compiled
    next => cases compiled
    next opened made =>
      unfold writeDocuments at compiled
      split at compiled
      next => cases compiled
      next marked first =>
        split at compiled
        next => cases compiled
        next second =>
          cases compiled
          exact ⟨page, opened, marked, made, first, second⟩

/-- The places of the documents of a route. -/
def IsDocument (here : Location) (names : List String) (location : Location) : Prop :=
  ∃ name ∈ [markupName, stylesName], location = here ++ names ++ [name]

theorem IsDocument.names_eq {others : List String} (placed : IsDocument here names location)
    (again : IsDocument here others location) : names = others := by
  obtain ⟨_, _, rfl⟩ := placed
  obtain ⟨_, _, same⟩ := again
  exact List.append_cancel_left (List.append_inj' same rfl).1

theorem isEntryName_document : ∀ name ∈ [markupName, stylesName], IsEntryName name := by decide

theorem isEntryName_of_document (proper : ∀ name ∈ names, IsEntryName name) {name : String}
    (document : name ∈ [markupName, stylesName]) : ∀ part ∈ names ++ [name], IsEntryName part := by
  have named := isEntryName_document name document
  simp_all [or_imp]

variable {route : Route} (works : disk.tree.at? disk.directory = some .directory) (opens : Opens disk root)
variable (proper : ∀ name ∈ route.names, IsEntryName name)
include works opens proper

theorem openOutput_grows :
    Grows (· <+: landing disk.directory root ++ route.names) (fun _ => False) disk
      (openOutput disk (route.output root)).2 := by
  have cases := openOutput_cases works opens proper
  split at cases
  next => exact cases ▸ .refl disk
  next =>
    obtain ⟨after, opened, moves⟩ := cases
    rw [opened]
    exact moves.grows

omit works opens in
theorem writeDocuments_grows (documents : Documents) :
    Grows (fun _ => False) (IsDocument (landing disk.directory root) route.names) disk
      (writeDocuments disk (route.output root) documents).2 := by
  have written {before after : Disk} {name : String} {content : ByteArray}
      (document : name ∈ [markupName, stylesName]) (same : before.directory = disk.directory)
      (done : before.write ((route.output root).join ⟨name⟩) content = .ok after) :
      Grows (fun _ => False) (IsDocument (landing disk.directory root) route.names) before after := by
    have named := isEntryName_document name document
    rw [output_join proper named] at done
    refine (write_grows done).mono (fun _ => False.elim) ?_
    rintro location rfl
    refine ⟨name, document, ?_⟩
    rw [landing_pathBelow (by simp_all [or_imp]), same, List.append_assoc]
  unfold writeDocuments
  split
  next => exact .refl disk
  next marked first =>
    have marks := written (by simp) rfl first
    split
    next => exact marks
    next styled second => exact marks.trans (written (by simp) marks.directory second)

/-- A route makes directories on its way, and writes its documents. -/
theorem compileRoute_grows :
    Grows (· <+: landing disk.directory root ++ route.names)
      (IsDocument (landing disk.directory root) route.names) disk
      ((compileRoute placeholder source (route.output root) depth).on disk).2 := by
  have opened : Grows _ (IsDocument (landing disk.directory root) route.names) disk _ :=
    (openOutput_grows works opens proper).mono (fun _ => id) fun _ => False.elim
  rw [on_compileRoute]
  cases compilePage placeholder disk source depth with
  | error => exact .refl disk
  | ok documents =>
    generalize openOutput disk (route.output root) = step at opened
    obtain ⟨result, middle⟩ := step
    cases result with
    | error => exact opened
    | ok =>
      have written : Grows _ (IsDocument (landing middle.directory root) route.names) middle _ :=
        writeDocuments_grows proper documents
      rw [opened.directory] at written
      exact opened.trans (written.mono (fun _ => False.elim) fun _ => id)

end Compiling

end Pagewright.Site
