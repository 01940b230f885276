import Pagewright.Proofs.Files.Repeating
import Pagewright.Proofs.Site.Isolation
import Pagewright.Proofs.Site.Reach

/-! Steps that put something into an output directory, taken again once they have been taken. They read nothing that
lies in the output, and nothing that they have put there stands in their way. -/

namespace Pagewright.Site

open Files Expansion
open Markup (Documents)

variable {first second disk after : Disk} {config : BuildConfig} {placeholder : Placeholder} {source path : Path}
variable {names front : List String} {last : String} {root here location : Location} {route : Route}

section Reading

/-- A path that leads to a directory already, or does not lead past anything inside another directory. -/
def Steady (disk : Disk) (root : Location) (path : Path) : Prop :=
  disk.isDirectory path = true ∨ Avoids disk.directory path root

instance (disk : Disk) (root : Location) (path : Path) : Decidable (Steady disk root path) :=
  inferInstanceAs (Decidable (_ ∨ _))

/-- A directory to read from that is not inside another one, and is found without it. -/
structure Source (root : Location) (disk : Disk) (source : Path) : Prop where
  outside : ∀ location, landing disk.directory source <+: location → ¬ Inside root location
  steady : Steady disk root source

theorem Source.grows {directories files : Location → Prop} (given : Source root disk source)
    (grows : Grows directories files disk after) : Source root after source where
  outside := by
    rw [grows.directory]
    exact given.outside
  steady := by
    unfold Steady
    rw [grows.directory]
    exact given.steady.imp_left (isDirectory_grows grows)

section Found

variable (given : Source root first source) (works : first.tree.at? first.directory = some .directory)
variable (same : SameOutside root first second) (grown : Grown first second)
variable (proper : ∀ name ∈ names, IsEntryName name)
include given works same grown proper

/-- What is found below a source does not depend on what is inside the other directory. -/
theorem Source.find : second.find (pathBelow source names) = first.find (pathBelow source names) := by
  have lands : landing first.directory (pathBelow source names) = _ := landing_pathBelow proper
  have outside : ¬ Inside root (landing first.directory (pathBelow source names)) :=
    given.outside _ (lands ▸ List.prefix_append _ _)
  rcases given.steady with directory | past
  · have also := isDirectory_grows grown directory
    by_cases top : names = []
    · rw [top]
      have one := Disk.isDirectory_iff.mp directory
      have two := Disk.isDirectory_iff.mp also
      rw [same.directory] at two
      exact two.trans one.symm
    · have works' := grown.isDirectory works
      rw [← grown.directory] at works'
      refine same.find ?_ outside
      rw [target_pathBelow works (.inr directory) proper top, target_pathBelow works' (.inr also) proper top,
        same.directory]
      congr 1
      refine follow_congr (fun empty => (proper "" empty).ne_empty rfl) fun front begins => same.at? _ ?_
      have within : ".." ∉ front := fun back =>
        (proper ".." (List.mem_of_mem_filter (begins.subset back))).ne_dots rfl
      rw [foldl_advance within]
      exact given.outside _ (List.prefix_append _ _)
  · refine same.find (same.target fun location passes => ?_) outside
    rcases (Continues.below proper).outward passes with way | below
    · exact past location way
    · exact given.outside location below

theorem Source.isFile : second.isFile (pathBelow source names) = first.isFile (pathBelow source names) := by
  rw [Disk.isFile, Disk.isFile, given.find works same grown proper]

theorem Source.isDirectory : second.isDirectory (pathBelow source names) = first.isDirectory (pathBelow source names) := by
  rw [Disk.isDirectory, Disk.isDirectory, Disk.directory?, Disk.directory?, given.find works same grown proper]

theorem Source.read : second.read (pathBelow source names) = first.read (pathBelow source names) := by
  rw [Disk.read, Disk.read, given.find works same grown proper]

theorem Source.fileAt? : fileAt? second (pathBelow source names) = Site.fileAt? first (pathBelow source names) := by
  rw [Site.fileAt?, Site.fileAt?, given.find works same grown proper]

theorem Source.itemsIn : itemsIn second (pathBelow source names) = Site.itemsIn first (pathBelow source names) := by
  rw [Site.itemsIn, Site.itemsIn, given.find works same grown proper]
  split
  next => rfl
  next => rfl
  next location found =>
    obtain ⟨rfl, _⟩ := Disk.find_location found
    rw [landing_pathBelow proper]
    refine congrArg Except.ok (FileTree.filterMap_below_congr fun rest _ => ?_)
    rw [same.at? _ (given.outside _ (by rw [List.append_assoc]; exact List.prefix_append _ _))]

end Found

end Reading

/-- A disk on which a build can go on: there is a place for the output, and it is apart from what is read. -/
structure Stage (config : BuildConfig) (root : Location) (disk : Disk) : Prop where
  ready : Ready config disk
  lands : landing disk.directory config.output = root
  routes : Source root disk config.routes
  static : Source root disk config.static
  scripts : Source root disk config.scripts

theorem Stage.grows {directories files : Location → Prop} (stage : Stage config root disk)
    (grows : Grows directories files disk after) : Stage config root after where
  ready := stage.ready.grows grows
  lands := by rw [grows.directory, stage.lands]
  routes := stage.routes.grows grows
  static := stage.static.grows grows
  scripts := stage.scripts.grows grows

section Making

variable {way : Location} (moves : Moves (fill way) first after)
include moves

/-- Directories that have been made are not made again. -/
theorem again_of_fill {ρ : Type} (result : ρ) (grown : Grown after second) :
    Again first second (result, after) (result, second) := by
  refine ⟨rfl, .refl second, fun location => ?_⟩
  have change := moves.grows.change location
  have later := @Grows.isDirectory _ _ _ _ grown location
  generalize first.tree.at? location = before at change ⊢
  generalize after.tree.at? location = now at change later ⊢
  cases change with
  | same => exact .inr ⟨rfl, rfl⟩
  | directory => exact .inl (later rfl)
  | file allowed => exact allowed.elim

end Making

section Writing

variable (stage : Stage config root first)
include stage

theorem Stage.directory : first.tree.at? root = some .directory := by
  rw [← stage.lands]
  exact (stage.ready.output.follows stage.ready.works).2.1

theorem Stage.inside (within : location <+: root ++ names) (missing : first.tree.at? location = none) :
    Inside root location := by
  have further := not_prefix_of_missing stage.directory missing
  refine ⟨(List.prefix_or_prefix_of_prefix (List.prefix_append _ names) within).resolve_right further, ?_⟩
  rintro rfl
  exact further List.prefix_rfl

theorem Stage.grows_fill {way : Location} (within : way <+: root ++ names) (moves : Moves (fill way) first after) :
    Grows (Inside root) (Inside root) first after := by
  refine ⟨moves.directory, fun location => ?_⟩
  have change := moves.grows.change location
  cases missing : first.tree.at? location with
  | none =>
    rw [missing] at change
    exact change.mono (fun begins => stage.inside (begins.trans within) missing) False.elim
  | some entry =>
    rw [moves.at?, missing, fill]
    split <;> exact .same _

theorem Stage.descends (continues : Continues path config.output names) : Descends first path root names := by
  rw [← stage.lands]
  exact (stage.ready.output.descends stage.ready.works).append continues.steps continues.start
    fun back => (continues.proper ".." back).ne_dots rfl

/-- Directories that have been made are there, and what has kept them from being made still does. -/
theorem makeDirectories_repeats (continues : Continues path config.output names)
    (undotted : names ≠ [] → path.Undotted) : Repeats root (makeDirectories path).on first := by
  have descends := stage.descends continues
  cases readable : unreadable? path with
  | some cause =>
    exact (Repeats.stay _).congr (on_makeDirectories_of_unreadable readable)
      fun _ _ _ => on_makeDirectories_of_unreadable readable
  | none =>
    obtain ⟨one, made, moves⟩ := on_makeDirectories_reach descends undotted readable
    have grows := stage.grows_fill (reach_begins _ _ _) moves
    refine ⟨by rw [made]; exact grows, fun second same grown => ?_⟩
    rw [made] at grown ⊢
    cases stopped : (reach first.tree root names).2 with
    | none =>
      rw [stopped] at made
      have opens : Opens second path := (opens_of_makeDirectories stage.ready.works made).grows grown
      rw [on_makeDirectories_of_opens opens]
      exact again_of_fill moves _ grown
    | some cause =>
      have before := grows.grown.trans grown
      obtain ⟨kept, there⟩ := reach_stopped (fun name member => (continues.proper name member).fits)
        descends.directory stopped (fun _ => before.isDirectory) fun _ _ found => (before.isFile found).imp fun _ => And.left
      obtain ⟨two, again, also⟩ := on_makeDirectories_reach (descends.grows before) undotted readable
      rw [kept] at again also
      rw [again, stopped]
      rw [moves.fill_still (by rw [there]; rfl), also.fill_still (by rw [before.isDirectory there]; rfl)]
      exact .stay _

/-- What refuses a document still does later. -/
theorem refused?_kept {cause : FileError} (present : (first.tree.at? (root ++ names)).isSome = true)
    (refused : refused? first config.output names last = some cause) (grown : Grown first second) :
    refused? second config.output names last = some cause := by
  unfold refused? at refused ⊢
  rw [grown.directory]
  rw [stage.lands] at refused ⊢
  split at refused
  next long => rwa [if_pos long]
  next short =>
    rw [if_neg short]
    obtain ⟨entry, there⟩ := Option.isSome_iff_exists.mp present
    rw [there] at refused
    cases entry with
    | file content =>
      obtain ⟨changed, kept, _⟩ := grown.isFile there
      rwa [kept]
    | directory =>
      rw [grown.isDirectory there]
      dsimp only at refused ⊢
      cases slot : first.tree.at? (root ++ names ++ [last]) with
      | none =>
        rw [slot] at refused
        simp at refused
      | some entry =>
        rw [slot] at refused
        cases entry with
        | file => cases refused
        | directory => rwa [grown.isDirectory slot]

/-- A document that has been written is not refused. -/
theorem refused?_written {content : ByteArray} (present : (first.tree.at? (root ++ names)).isSome = true)
    (free : refused? first config.output names last = none) (moves : Moves (place (root ++ names ++ [last]) content) first after)
    (grown : Grown after second) : refused? second config.output names last = none := by
  have kept : after.tree.at? (root ++ names) = first.tree.at? (root ++ names) := by
    rw [moves.at?, place, if_neg (by simp)]
  have stored : after.tree.at? (root ++ names ++ [last]) = some (.file content) := by
    rw [moves.at?, place, if_pos rfl]
  obtain ⟨changed, again, _⟩ := grown.isFile stored
  unfold refused? at free ⊢
  rw [grown.directory, moves.directory]
  rw [stage.lands] at free ⊢
  split at free
  next => cases free
  next short =>
    rw [if_neg short, again]
    obtain ⟨entry, there⟩ := Option.isSome_iff_exists.mp present
    rw [there] at free
    cases entry with
    | file => cases free
    | directory => rw [grown.isDirectory (kept.trans there)]

/-- A document that has been written can be written again, and what has refused it still does. -/
theorem writeFile_repeats (names : List String) (last : String) (proper : ∀ part ∈ names ++ [last], IsEntryName part)
    (present : (first.tree.at? (root ++ names)).isSome = true) (content : ByteArray) :
    Repeats root (writeFile (pathBelow config.output (names ++ [last])) content).on first := by
  have lands := stage.lands
  have outcome {disk : Disk} (stage : Stage config root disk) (present : (disk.tree.at? (root ++ names)).isSome = true) :=
    write_cases content stage.ready.works stage.ready.output proper (by rwa [stage.lands])
  have one := outcome stage present
  rw [lands] at one
  cases refusal : refused? first config.output names last with
  | some cause =>
    rw [refusal] at one
    refine (Repeats.stay (.error cause)).congr (by rw [writeFile, OnDisk.on_change, one]) fun second same grown => ?_
    have two := outcome (stage.grows grown) (grown.isSome present)
    rw [refused?_kept stage present refusal grown] at two
    rw [writeFile, OnDisk.on_change, two]
  | none =>
    rw [refusal] at one
    obtain ⟨after, written, moves⟩ := one
    have run : (writeFile (pathBelow config.output (names ++ [last])) content).on first = (.ok ⟨⟩, after) := by
      rw [writeFile, OnDisk.on_change, written]
    have place : landing first.directory (pathBelow config.output (names ++ [last])) = root ++ names ++ [last] := by
      rw [landing_pathBelow proper, lands, List.append_assoc]
    have grows : Grows (Inside root) (Inside root) first after := by
      refine (write_grows written).mono (fun _ => False.elim) ?_
      rintro location rfl
      rw [place, List.append_assoc]
      exact ⟨List.prefix_append _ _, by simp⟩
    refine ⟨by rw [run]; exact grows, fun second same grown => ?_⟩
    rw [run] at grown ⊢
    have before : Grown first second := grows.grown.trans grown
    have two := outcome (stage.grows before) (before.isSome present)
    rw [refused?_written stage present refusal moves grown] at two
    obtain ⟨final, again, also⟩ := two
    rw [(stage.grows before).lands] at also
    rw [writeFile, OnDisk.on_change, again]
    refine ⟨rfl, (write_grows again).grown, fun location => ?_⟩
    rw [moves.at?, also.at?, Site.place, Site.place]
    split
    · exact .inl rfl
    · exact .inr ⟨rfl, rfl⟩

end Writing

end Pagewright.Site
