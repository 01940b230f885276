import Pagewright.Proofs.Files.Way
import Pagewright.Proofs.Outcome

/-! Files while nothing is removed. What a step makes or writes is where its path leads, or a directory on
the way, and everything else stays as it was. -/

namespace Pagewright.Files

variable {path : Path}

section Changes

/-- What may become of a location: it stays as it is, becomes a directory where nothing was, or becomes a
file with new content where no directory was. -/
inductive Change (directory file : Prop) : Option Entry → Option Entry → Prop where
  | same (entry : Option Entry) : Change directory file entry entry
  | directory (allowed : directory) : Change directory file none (some .directory)
  | file {before : Option Entry} (allowed : file) (free : before ≠ some .directory) (content : ByteArray) :
      Change directory file before (some (.file content))

theorem Change.trans {directory file : Prop} {before middle after : Option Entry}
    (first : Change directory file before middle) (last : Change directory file middle after) :
    Change directory file before after := by
  cases first with
  | same => exact last
  | directory allowed =>
    cases last with
    | same => exact .directory allowed
    | file _ free => exact absurd rfl free
  | file allowed free content =>
    cases last with
    | same => exact .file allowed free content
    | file _ _ content => exact .file allowed free content

theorem Change.mono {directory file wider also : Prop} {before after : Option Entry}
    (change : Change directory file before after) (directories : directory → wider) (files : file → also) :
    Change wider also before after := by
  cases change with
  | same => exact .same _
  | directory allowed => exact .directory (directories allowed)
  | file allowed free content => exact .file (files allowed) free content

theorem Change.of_directory {directory file : Prop} {after : Option Entry}
    (change : Change directory file (some .directory) after) : after = some .directory := by
  cases change with
  | same => rfl
  | file _ free => exact absurd rfl free

theorem Change.of_file {directory file : Prop} {content : ByteArray} {after : Option Entry}
    (change : Change directory file (some (.file content)) after) :
    ∃ changed, after = some (.file changed) ∧ (changed = content ∨ file) := by
  cases change with
  | same => exact ⟨content, rfl, .inl rfl⟩
  | file allowed _ changed => exact ⟨changed, rfl, .inr allowed⟩

theorem Change.eq_of_not {directory file : Prop} {before after : Option Entry}
    (change : Change directory file before after) (noDirectory : ¬ directory) (noFile : ¬ file) : after = before := by
  cases change with
  | same => rfl
  | directory allowed => exact absurd allowed noDirectory
  | file allowed => exact absurd allowed noFile

/-- Where only directories are made, the files stay. -/
theorem Change.file_iff {directory : Prop} {content : ByteArray} {before after : Option Entry}
    (change : Change directory False before after) : after = some (.file content) ↔ before = some (.file content) := by
  cases change with
  | same => rfl
  | directory => exact iff_of_false nofun nofun
  | file allowed => exact absurd allowed id

/-- Nothing is removed, new directories are among those allowed, and so are files with new content. -/
structure Grows (directories files : Location → Prop) (before after : Disk) : Prop where
  directory : after.directory = before.directory
  change : ∀ location,
    Change (directories location) (files location) (before.tree.at? location) (after.tree.at? location)

namespace Grows

variable {directories files : Location → Prop} {before middle after : Disk}

theorem refl (disk : Disk) : Grows directories files disk disk := ⟨rfl, fun _ => .same _⟩

theorem trans (first : Grows directories files before middle) (last : Grows directories files middle after) :
    Grows directories files before after :=
  ⟨last.directory.trans first.directory, fun location => (first.change location).trans (last.change location)⟩

theorem mono {wider also : Location → Prop} (grows : Grows directories files before after)
    (moreDirectories : ∀ location, directories location → wider location)
    (moreFiles : ∀ location, files location → also location) : Grows wider also before after :=
  ⟨grows.directory, fun location =>
    (grows.change location).mono (moreDirectories location) (moreFiles location)⟩

/-- Putting an entry where it may stand. -/
theorem put {parent : Location} {name : String} {entry : Entry}
    (change : Change (directories (parent ++ [name])) (files (parent ++ [name]))
      (before.tree.at? (parent ++ [name])) (some entry)) :
    Grows directories files before { before with tree := before.tree.put parent name entry } := by
  refine ⟨rfl, fun location => ?_⟩
  by_cases fits : before.tree.at? parent = some .directory ∧
      before.tree.at? (parent ++ [name]) ≠ some .directory ∧ IsEntryName name
  · rw [FileTree.at?_put _ _ _ _ fits.1 fits.2.1 fits.2.2]
    by_cases here : location = parent ++ [name]
    · rw [if_pos here, here]
      exact change
    · rw [if_neg here]
      exact .same _
  · rw [FileTree.put, dif_neg fits]
    exact .same _

section Kept

variable (grows : Grows directories files before after)
include grows

theorem isDirectory {location : Location} (found : before.tree.at? location = some .directory) :
    after.tree.at? location = some .directory := by
  have change := grows.change location
  rw [found] at change
  exact change.of_directory

theorem isFile {location : Location} {content : ByteArray}
    (found : before.tree.at? location = some (.file content)) :
    ∃ changed, after.tree.at? location = some (.file changed) ∧ (changed = content ∨ files location) := by
  have change := grows.change location
  rw [found] at change
  exact change.of_file

theorem target {target : Target} (found : before.target path = .ok target) : after.target path = .ok target := by
  obtain ⟨fits, follows⟩ := Disk.target_eq_ok.mp found
  rw [← grows.directory] at follows
  exact Disk.target_eq_ok.mpr ⟨fits, follows.mono fun _ => grows.isDirectory⟩

end Kept

end Grows

end Changes

section Operations

variable {disk after : Disk} {content : ByteArray} {location : Location}

namespace Disk

theorem write_eq_ok : disk.write path content = .ok after ↔
    ∃ parent name, disk.target path = .ok (.entry parent name) ∧ path.endsInSlash = false ∧
      disk.tree.at? (parent ++ [name]) ≠ some .directory ∧
      { disk with tree := disk.tree.put parent name (.file content) } = after := by
  cases followed : disk.target path with
  | error cause => simp [Disk.write, followed, bind, Except.bind]
  | ok target =>
    cases target with
    | directory location => simp [Disk.write, followed, bind, Except.bind]
    | entry parent name =>
      cases slash : path.endsInSlash with
      | true => simp [Disk.write, followed, slash, bind, Except.bind]
      | false =>
        cases slot : disk.tree.at? (parent ++ [name]) with
        | none => simp [Disk.write, followed, slash, slot, bind, Except.bind, pure, Except.pure]
        | some entry =>
          cases entry <;> simp [Disk.write, followed, slash, slot, bind, Except.bind, pure, Except.pure]

theorem makeDirectory_eq_ok : disk.makeDirectory path = .ok after ↔
    ∃ parent name, disk.target path = .ok (.entry parent name) ∧ disk.tree.at? (parent ++ [name]) = none ∧
      { disk with tree := disk.tree.put parent name .directory } = after := by
  cases followed : disk.target path with
  | error cause => simp [Disk.makeDirectory, followed, bind, Except.bind]
  | ok target =>
    cases target with
    | directory location => simp [Disk.makeDirectory, followed, bind, Except.bind]
    | entry parent name =>
      cases slot : disk.tree.at? (parent ++ [name]) with
      | none => simp [Disk.makeDirectory, followed, slot, bind, Except.bind, pure, Except.pure]
      | some entry => simp [Disk.makeDirectory, followed, slot, bind, Except.bind]

theorem find_eq_ok {entry : Entry} : disk.find path = .ok (location, entry) ↔
    ∃ target, disk.target path = .ok target ∧ disk.tree.at? target.location = some entry ∧
      (∀ parent name content, target = .entry parent name → entry = .file content → path.endsInSlash = false) ∧
      target.location = location := by
  cases followed : disk.target path with
  | error cause => simp [Disk.find, followed, bind, Except.bind]
  | ok target =>
    cases target with
    | directory there =>
      cases slot : disk.tree.at? there <;>
        simp [Disk.find, followed, slot, bind, Except.bind, pure, Except.pure, Target.location, and_comm]
    | entry parent name =>
      cases slot : disk.tree.at? (parent ++ [name]) with
      | none => simp [Disk.find, followed, slot, bind, Except.bind, Target.location]
      | some entry =>
        cases entry <;> cases slash : path.endsInSlash <;>
          simp only [Disk.find, followed, slot, slash, bind, Except.bind, pure, Except.pure, Target.location] <;>
          grind

theorem find_location {entry : Entry} (found : disk.find path = .ok (location, entry)) :
    location = landing disk.directory path ∧ disk.tree.at? location = some entry := by
  obtain ⟨target, followed, there, _, rfl⟩ := find_eq_ok.mp found
  exact ⟨target_location followed, there⟩

/-- A directory is found by every path that leads to it. -/
theorem find_directory {target : Target} (followed : disk.target path = .ok target)
    (there : disk.tree.at? target.location = some .directory) : disk.find path = .ok (target.location, .directory) := by
  refine find_eq_ok.mpr ⟨target, followed, there, fun parent name content _ same => ?_, rfl⟩
  cases same

theorem isDirectory_iff :
    disk.isDirectory path = true ↔ disk.find path = .ok (landing disk.directory path, .directory) := by
  unfold isDirectory directory?
  constructor
  · intro given
    split at given
    next found => rw [found, (find_location found).1]
    next => cases given
  · intro found
    rw [found]
    rfl

theorem isDirectory_of_target {target : Target} (followed : disk.target path = .ok target)
    (there : disk.tree.at? target.location = some .directory) : disk.isDirectory path = true := by
  rw [isDirectory_iff, find_directory followed there, target_location followed]

theorem isFile_iff : disk.isFile path = true ↔ ∃ location content, disk.find path = .ok (location, .file content) := by
  unfold isFile
  constructor
  · intro given
    split at given
    next location content found => exact ⟨location, content, found⟩
    next => cases given
  · rintro ⟨location, content, found⟩
    rw [found]

end Disk

theorem write_grows (written : disk.write path content = .ok after) :
    Grows (fun _ => False) (· = landing disk.directory path) disk after := by
  obtain ⟨parent, name, followed, _, free, rfl⟩ := Disk.write_eq_ok.mp written
  exact .put (.file (Disk.target_location followed) free content)

theorem makeDirectory_grows (made : disk.makeDirectory path = .ok after) :
    Grows (Passes disk.directory path) (fun _ => False) disk after := by
  obtain ⟨parent, name, followed, free, rfl⟩ := Disk.makeDirectory_eq_ok.mp made
  have arrives : parent ++ [name] = landing disk.directory path := Disk.target_location followed
  refine .put ?_
  rw [free]
  exact .directory (arrives ▸ passes_landing _ _)

/-- What has been written is found again. -/
theorem find_of_write (works : disk.tree.at? disk.directory = some .directory)
    (written : disk.write path content = .ok after) :
    after.find path = .ok (landing disk.directory path, .file content) := by
  have grows := write_grows written
  obtain ⟨parent, name, followed, ending, free, rfl⟩ := Disk.write_eq_ok.mp written
  have directory := Disk.target_isDirectory works followed
  have named := Disk.target_named followed
  have stored := (FileTree.at?_put _ _ _ (.file content) directory free named (parent ++ [name])).trans (if_pos rfl)
  exact Disk.find_eq_ok.mpr
    ⟨_, grows.target followed, stored, fun _ _ _ _ _ => ending, Disk.target_location followed⟩

/-- A file is found again, with what has been written to it. -/
theorem Grows.find {directories files : Location → Prop} (grows : Grows directories files disk after)
    (found : disk.find path = .ok (location, .file content)) :
    ∃ changed, after.find path = .ok (location, .file changed) ∧ (changed = content ∨ files location) := by
  obtain ⟨target, followed, there, ending, rfl⟩ := Disk.find_eq_ok.mp found
  obtain ⟨changed, now, kept⟩ := grows.isFile there
  exact ⟨changed, Disk.find_eq_ok.mpr ⟨target, grows.target followed, now,
    fun parent name _ entry _ => ending parent name content entry rfl, rfl⟩, kept⟩

theorem readText_of_find {text : String} (found : disk.find path = .ok (location, .file text.toUTF8)) :
    disk.readText path = .ok text := by
  have decoded : String.fromUTF8? text.toUTF8 = some text := by
    rw [String.fromUTF8?, dif_pos (show text.toUTF8.IsValidUTF8 from text.isValidUTF8)]
    rfl
  rw [Disk.readText, Disk.read, found]
  simp only [bind, Except.bind, pure, Except.pure, decoded]

end Operations

section Steps

variable {ε ε' α β : Type} {directories files : Location → Prop}

theorem run_bind (steps : StateM Disk α) (next : α → StateM Disk β) (disk : Disk) :
    (steps >>= next).run disk = (next (steps.run disk).1).run (steps.run disk).2 := rfl

/-- What a series of steps comes to on a disk. -/
def OnDisk.on (steps : OnDisk ε α) (disk : Disk) : Except ε α × Disk := steps.run.run disk

theorem OnDisk.on_bind (first : OnDisk ε α) (next : α → OnDisk ε β) (disk : Disk) :
    (first >>= next).on disk =
      match first.on disk with
      | (.ok value, after) => (next value).on after
      | (.error cause, after) => (.error cause, after) := by
  simp only [OnDisk.on, ExceptT.run_bind, StateT.run_bind]
  rcases first.run.run disk with ⟨_ | _, after⟩ <;> rfl

@[simp] theorem OnDisk.on_get (disk : Disk) : (get : OnDisk ε Disk).on disk = (.ok disk, disk) := rfl

@[simp] theorem OnDisk.on_set (disk after : Disk) : (set after : OnDisk ε PUnit).on disk = (.ok ⟨⟩, after) := rfl

@[simp] theorem OnDisk.on_pure (value : α) (disk : Disk) :
    (pure value : OnDisk ε α).on disk = (.ok value, disk) := rfl

@[simp] theorem OnDisk.on_throw (cause : ε) (disk : Disk) :
    (throw cause : OnDisk ε α).on disk = (.error cause, disk) := rfl

theorem OnDisk.on_withError (f : ε → ε') (steps : OnDisk ε α) (disk : Disk) :
    (steps.withError f).on disk = ((steps.on disk).1.mapError f, (steps.on disk).2) := rfl

theorem on_writeText (path : Path) (text : String) (disk : Disk) :
    (writeText path text).on disk =
      match disk.write path text.toUTF8 with
      | .ok after => (.ok ⟨⟩, after)
      | .error cause => (.error cause, disk) := by
  rw [writeText, writeFile, change, OnDisk.on_bind, OnDisk.on_get]
  dsimp only
  cases disk.write path text.toUTF8 <;> rfl

theorem on_makeDirectoriesOf (path : Path) (parents : List Path) (disk : Disk) :
    (makeDirectoriesOf (path :: parents)).on disk =
      if path.isEmpty then (.ok ⟨⟩, disk)
      else
        match disk.makeDirectory path with
        | .ok after => (.ok ⟨⟩, after)
        | .error .notFound =>
          match (makeDirectoriesOf parents).on disk with
          | (.error cause, after) => (.error cause, after)
          | (.ok _, after) =>
            match after.makeDirectory path with
            | .ok last => (.ok ⟨⟩, last)
            | .error cause => (if after.isDirectory path then .ok ⟨⟩ else .error cause, after)
        | .error cause => (if disk.isDirectory path then .ok ⟨⟩ else .error cause, disk) := by
  rw [makeDirectoriesOf]
  split
  next => rfl
  next =>
    simp only [OnDisk.on_bind, OnDisk.on_get]
    cases disk.makeDirectory path with
    | ok after => rfl
    | error cause =>
      cases cause
      case notFound =>
        simp only [OnDisk.on_bind]
        rcases (makeDirectoriesOf parents).on disk with ⟨_ | _, after⟩
        · rfl
        · cases made : after.makeDirectory path with
          | ok last => simp [made]
          | error cause => cases there : after.isDirectory path <;> simp [made, there]
      all_goals cases there : disk.isDirectory path <;> simp [there, OnDisk.on_bind]

theorem makeDirectoriesOf_grows {paths : List Path} {disk : Disk}
    (each : ∀ path ∈ paths, path.isEmpty = false →
      ∀ location, Passes disk.directory path location → directories location) :
    Grows directories files disk ((makeDirectoriesOf paths).on disk).2 := by
  induction paths generalizing disk with
  | nil => exact .refl disk
  | cons path parents ih =>
    obtain ⟨here, others⟩ := List.forall_mem_cons.mp each
    have make : ∀ {before after : Disk}, before.directory = disk.directory → path.isEmpty = false →
        before.makeDirectory path = .ok after → Grows directories files before after :=
      fun same nonempty made => (makeDirectory_grows made).mono
        (fun location passes => here nonempty location (same ▸ passes)) fun _ => False.elim
    rw [on_makeDirectoriesOf]
    split
    next => exact .refl disk
    next given =>
      have nonempty : path.isEmpty = false := by simpa using given
      split
      next after made => exact make rfl nonempty made
      next =>
        have first := ih others
        split
        next stopped => exact stopped ▸ first
        next after further =>
          rw [further] at first
          split
          next last made => exact first.trans (make first.directory nonempty made)
          next => exact first
      next => exact .refl disk

/-- Making directories makes no others than those that their path leads past. -/
theorem makeDirectories_grows (path : Path) (disk : Disk) :
    Grows (Passes disk.directory path) (fun _ => False) disk ((makeDirectories path).on disk).2 :=
  makeDirectoriesOf_grows fun first member nonempty _ passes =>
    passes.of_leads (Path.ancestorsWithin_lead _ _ first member) nonempty

end Steps

end Pagewright.Files
