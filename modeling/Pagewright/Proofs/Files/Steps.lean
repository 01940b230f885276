import Pagewright.Proofs.Files.Growth

/-! What a series of steps does to the files, whether it ends in an error or not. A relation between disks that
each step keeps is kept by all of them. -/

namespace Pagewright.Files

variable {ε ε' α β : Type} {relation : Disk → Disk → Prop} {disk before middle after : Disk} {path : Path}

namespace OnDisk

/-- The steps take a disk to one related to it. -/
def Within (relation : Disk → Disk → Prop) (steps : OnDisk ε α) (disk : Disk) : Prop :=
  relation disk (steps.on disk).2

section Rules

variable (refl : ∀ disk, relation disk disk)
variable (trans : ∀ before middle after, relation before middle → relation middle after → relation before after)

include refl in
theorem Within.pure (value : α) : Within relation (pure value : OnDisk ε α) disk := refl disk

include trans in
theorem Within.bind {steps : OnDisk ε α} {next : α → OnDisk ε β} (first : Within relation steps disk)
    (later : ∀ value after, steps.on disk = (.ok value, after) → Within relation (next value) after) :
    Within relation (steps >>= next) disk := by
  rw [Within, OnDisk.on_bind]
  rw [Within] at first
  cases taken : steps.on disk with
  | mk result after =>
    rw [taken] at first
    cases result with
    | error => exact first
    | ok value => exact trans disk after _ first (later value after taken)

theorem Within.get {next : Disk → OnDisk ε β} (later : Within relation (next disk) disk) :
    Within relation (MonadState.get >>= next) disk := by
  rw [Within, OnDisk.on_bind]
  exact later

theorem Within.withError {steps : OnDisk ε α} (f : ε → ε') (within : Within relation steps disk) :
    Within relation (steps.withError f) disk := within

include refl trans in
theorem Within.mapM {body : α → OnDisk ε β} {items : List α}
    (each : ∀ item ∈ items, ∀ disk, Within relation (body item) disk) : Within relation (items.mapM body) disk := by
  induction items generalizing disk with
  | nil => exact refl disk
  | cons item rest ih =>
    rw [List.mapM_cons]
    refine Within.bind trans (each item List.mem_cons_self disk) fun _ after _ => ?_
    refine Within.bind trans (ih fun item member => each item (List.mem_cons_of_mem _ member)) fun _ last _ => ?_
    exact refl last

end Rules

@[simp] theorem on_liftM (steps : StateM Disk α) (disk : Disk) :
    (liftM steps : OnDisk ε α).on disk = (.ok (steps.run disk).1, (steps.run disk).2) := rfl

theorem on_mapM_liftM (body : α → StateM Disk β) (items : List α) (disk : Disk) :
    (items.mapM fun item => (liftM (body item) : OnDisk ε β)).on disk =
      (.ok ((items.mapM body).run disk).1, ((items.mapM body).run disk).2) := by
  induction items generalizing disk with
  | nil => rfl
  | cons item rest ih =>
    rw [List.mapM_cons, List.mapM_cons]
    simp only [OnDisk.on_bind, on_liftM, ih]
    rfl

theorem on_bind_eq_ok {steps : OnDisk ε α} {next : α → OnDisk ε β} {value : β} :
    (steps >>= next).on disk = (.ok value, after) ↔
      ∃ first middle, steps.on disk = (.ok first, middle) ∧ (next first).on middle = (.ok value, after) := by
  rw [OnDisk.on_bind]
  rcases steps.on disk with ⟨_ | first, middle⟩ <;> simp

theorem on_look (f : Disk → Except FileError α) (disk : Disk) : (look f).on disk = (f disk, disk) := by
  rw [look, OnDisk.on_bind, OnDisk.on_get]
  dsimp only
  cases f disk <;> rfl

theorem ok_of_withError {steps : OnDisk ε α} {f : ε → ε'} {value : α}
    (ended : (steps.withError f).on disk = (.ok value, after)) : steps.on disk = (.ok value, after) := by
  rw [OnDisk.on_withError] at ended
  rcases run : steps.on disk with ⟨cause | result, last⟩ <;> rw [run] at ended <;> cases ended
  rfl

theorem of_look {f : Disk → Except FileError α} {g : FileError → ε} {value : α}
    (found : ((look f).withError g).on disk = (.ok value, after)) : f disk = .ok value := by
  have looked := ok_of_withError found
  rw [on_look] at looked
  exact (Prod.mk.inj looked).1

theorem on_change (step : Disk → Except FileError Disk) (disk : Disk) :
    (change step).on disk =
      match step disk with
      | .ok after => (.ok ⟨⟩, after)
      | .error cause => (.error cause, disk) := by
  rw [change, OnDisk.on_bind, OnDisk.on_get]
  dsimp only
  cases step disk <;> rfl

end OnDisk

section Growing

variable {here : Location} {directories : Location → Prop} {files : Disk → Location → Prop}

/-- Growth from a directory worked in. What may be written can depend on what is there in the end. -/
def Growing (here : Location) (directories : Location → Prop) (files : Disk → Location → Prop) (before after : Disk) :
    Prop :=
  before.directory = here → Grows directories (files after) before after

/-- What may be written once may be written later. -/
def Lasting (files : Disk → Location → Prop) : Prop :=
  ∀ {before after : Disk} {directories changed : Location → Prop}, Grows directories changed before after →
    ∀ location, files before location → files after location

theorem Growing.refl (disk : Disk) : Growing here directories files disk disk := fun _ => .refl disk

theorem Growing.trans (lasting : Lasting files) (before middle after : Disk)
    (first : Growing here directories files before middle) (last : Growing here directories files middle after) :
    Growing here directories files before after := by
  intro same
  have one := first same
  have two := last (one.directory.trans same)
  exact (one.mono (fun _ => id) (lasting two)).trans two

theorem Grows.isFile_path {changed : Location → Prop} (grows : Grows directories changed before after)
    (file : before.isFile path = true) : after.isFile path = true := by
  unfold Disk.isFile at file
  split at file
  next location content found =>
    obtain ⟨now, again, _⟩ := grows.find found
    rw [Disk.isFile, again]
  next => cases file

end Growing

/-- Copying a file changes nothing but the place it is copied to. -/
theorem copyFile_grows (source destination : Path) (disk : Disk) :
    Grows (fun _ => False) (· = landing disk.directory destination) disk ((copyFile source destination).on disk).2 := by
  let place (location : Location) : Prop := location = landing disk.directory destination
  have trans := @Growing.trans disk.directory (fun _ => False) (fun _ => place) fun _ _ => id
  have reads (disk' : Disk) : (look (·.read source)).Within
      (Growing disk.directory (fun _ => False) fun _ => place) disk' := by
    rw [OnDisk.Within, OnDisk.on_look]
    exact .refl disk'
  have writes (content : ByteArray) (disk' : Disk) : (writeFile destination content).Within
      (Growing disk.directory (fun _ => False) fun _ => place) disk' := by
    intro same
    rw [writeFile, OnDisk.on_change]
    split
    next after written =>
      refine (write_grows written).mono (fun _ => id) fun location arrives => ?_
      rwa [same] at arrives
    next => exact .refl disk'
  have whole : (copyFile source destination).Within (Growing disk.directory (fun _ => False) fun _ => place) disk := by
    refine .bind trans (reads disk) fun _ disk _ => ?_
    refine .bind trans (writes .empty disk) fun _ disk _ => ?_
    refine .bind trans (reads disk) fun content disk _ => writes content disk
  exact whole rfl

theorem at?_of_read {content : ByteArray} (read : disk.read path = .ok content) :
    disk.tree.at? (landing disk.directory path) = some (.file content) := by
  rw [Disk.read] at read
  cases found : disk.find path with
  | error => rw [found] at read; cases read
  | ok there =>
    rw [found] at read
    obtain ⟨location, _ | other⟩ := there
    · cases read
    · cases read
      obtain ⟨rfl, there⟩ := Disk.find_location found
      exact there

theorem write_of_writeFile {content : ByteArray} (ended : (writeFile path content).on disk = (.ok ⟨⟩, after)) :
    disk.write path content = .ok after := by
  rw [writeFile, OnDisk.on_change] at ended
  split at ended
  next written =>
    cases ended
    exact written
  next => cases ended

/-- Nothing is written where there is no file to copy. -/
theorem copyFile_of_not_isFile {source destination : Path} (missing : disk.isFile source = false) :
    ∃ cause, (copyFile source destination).on disk = (.error cause, disk) := by
  have unread : ∃ cause, disk.read source = .error cause := by
    rw [Disk.read]
    cases found : disk.find source with
    | error cause => exact ⟨cause, rfl⟩
    | ok there =>
      obtain ⟨location, _ | content⟩ := there
      · exact ⟨_, rfl⟩
      · rw [Disk.isFile, found] at missing
        cases missing
  obtain ⟨cause, stopped⟩ := unread
  exact ⟨cause, by rw [copyFile, OnDisk.on_bind, OnDisk.on_look, stopped]⟩

/-- A copy that does not end in an error is there, with what was to be copied if that is elsewhere. -/
theorem copied_of_copyFile {source destination : Path} (works : disk.tree.at? disk.directory = some .directory)
    (copied : (copyFile source destination).on disk = (.ok ⟨⟩, after)) :
    ∃ content, after.find destination = .ok (landing disk.directory destination, .file content) ∧
      (landing disk.directory source ≠ landing disk.directory destination →
        disk.tree.at? (landing disk.directory source) = some (.file content)) := by
  obtain ⟨_, one, looked, ended⟩ := OnDisk.on_bind_eq_ok.mp copied
  obtain ⟨_, two, emptied, ended⟩ := OnDisk.on_bind_eq_ok.mp ended
  obtain ⟨content, three, looked', ended⟩ := OnDisk.on_bind_eq_ok.mp ended
  rw [OnDisk.on_look, Prod.mk.injEq] at looked looked'
  obtain ⟨_, rfl⟩ := looked
  obtain ⟨read, rfl⟩ := looked'
  have grows := write_grows (write_of_writeFile emptied)
  have found := find_of_write (grows.directory ▸ grows.isDirectory works) (write_of_writeFile ended)
  rw [grows.directory] at found
  refine ⟨content, found, fun apart => ?_⟩
  have there := at?_of_read read
  rw [grows.directory] at there
  rw [← there, (grows.change _).eq_of_not id apart]

theorem find_of_copyFile {source destination : Path} (works : disk.tree.at? disk.directory = some .directory)
    (copied : (copyFile source destination).on disk = (.ok ⟨⟩, after)) :
    ∃ content, after.find destination = .ok (landing disk.directory destination, .file content) := by
  obtain ⟨content, found, _⟩ := copied_of_copyFile works copied
  exact ⟨content, found⟩

end Pagewright.Files
