import Pagewright.Proofs.Site.Assets
import Pagewright.Proofs.Site.Reach

/-! Copying a directory to another place, whatever the order in which its entries are taken. Each part of what the
source holds is put below the destination, no step touches what an earlier one has put there, and elsewhere nothing
changes but that directories are made on the way to the destination. -/

namespace Pagewright.Site

open Files

variable {disk middle after : Disk} {source destination : Path} {here base location : Location}
variable {names : List String} {arrange : Arrangement}

section Content

variable {ε ε' α β : Type}

/-- What a directory holds, by the names that lead there. -/
abbrev Content := List String → Option Entry

variable {content : Content} {inside others : List String → Prop} {number : α → Nat}

/-- The place of a directory in a copy. -/
def Makes (content : Content) (base location : Location) : Prop :=
  ∃ names, content names = some .directory ∧ location = base ++ names

/-- The place of a file in a copy, for the files of a part of what is copied. -/
def Writes (content : Content) (base : Location) (inside : List String → Prop) (location : Location) : Prop :=
  ∃ names bytes, inside names ∧ content names = some (.file bytes) ∧ location = base ++ names

/-- A part of what is to be copied is there, with this number of files. -/
structure Carried (content : Content) (base : Location) (inside : List String → Prop) (after : Disk) (count : Nat) :
    Prop where
  entries : ∀ names entry, inside names → content names = some entry → after.tree.at? (base ++ names) = some entry
  files : ∃ files : List (List String), files.Nodup ∧ files.length = count ∧
    ∀ names, names ∈ files ↔ inside names ∧ ∃ bytes, content names = some (.file bytes)

/-- What has been copied stays while another part is. -/
theorem Carried.grows {count : Nat} (carried : Carried content base inside middle count)
    (grows : Grows (Makes content base) (Writes content base others) middle after)
    (apart : ∀ names, inside names → ¬ others names) : Carried content base inside after count where
  entries names entry part there := by
    have copied := carried.entries names entry part there
    cases entry with
    | directory => exact grows.isDirectory copied
    | file bytes =>
      obtain ⟨changed, now, rfl | written⟩ := grows.isFile copied
      · exact now
      · obtain ⟨also, _, other, _, same⟩ := written
        cases List.append_cancel_left same
        exact absurd other (apart names part)
  files := carried.files

theorem Carried.or {count more : Nat} (one : Carried content base inside after count)
    (two : Carried content base others after more) (apart : ∀ names, inside names → ¬ others names) :
    Carried content base (fun names => inside names ∨ others names) after (count + more) where
  entries names entry part there := by
    rcases part with part | part
    · exact one.entries names entry part there
    · exact two.entries names entry part there
  files := by
    obtain ⟨files, distinct, length, mem⟩ := one.files
    obtain ⟨rest, distinct', length', mem'⟩ := two.files
    refine ⟨files ++ rest, ?_, by rw [List.length_append, length, length'], fun names => ?_⟩
    · refine List.nodup_append.mpr ⟨distinct, distinct', fun names member other also => ?_⟩
      rintro rfl
      exact apart names ((mem names).mp member).1 ((mem' names).mp also).1
    · rw [List.mem_append, mem, mem', ← or_and_right]

/-- Steps that copy a part: they do nothing else, and all of it has been copied if they do not end in an error. -/
structure Copies (content : Content) (base : Location) (inside : List String → Prop) (number : α → Nat) (disk : Disk)
    (outcome : Except ε α × Disk) : Prop where
  grows : Grows (Makes content base) (Writes content base inside) disk outcome.2
  carried : ∀ value, outcome.1 = .ok value → Carried content base inside outcome.2 (number value)

namespace Copies

theorem error {cause : ε} (grows : Grows (Makes content base) (Writes content base inside) disk after) :
    Copies content base inside number disk (.error cause, after) := ⟨grows, fun _ stopped => by cases stopped⟩

theorem bind {steps : OnDisk ε α} {next : α → OnDisk ε β} {number : β → Nat}
    (first : Grows (Makes content base) (Writes content base inside) disk (steps.on disk).2)
    (later : ∀ value middle, steps.on disk = (.ok value, middle) →
      Copies content base inside number middle ((next value).on middle)) :
    Copies content base inside number disk ((steps >>= next).on disk) := by
  rw [OnDisk.on_bind]
  rcases done : steps.on disk with ⟨cause | value, middle⟩
  · rw [done] at first
    exact .error first
  · rw [done] at first
    have further := later value middle done
    exact ⟨first.trans further.grows, further.carried⟩

theorem widen {outcome : Except ε α × Disk} (copies : Copies content base inside number disk outcome)
    (within : ∀ names, inside names → others names) :
    Grows (Makes content base) (Writes content base others) disk outcome.2 := by
  refine copies.grows.mono (fun _ => id) fun location writes => ?_
  obtain ⟨names, bytes, part, file, arrives⟩ := writes
  exact ⟨names, bytes, within names part, file, arrives⟩

theorem bindError {steps : OnDisk ε' α} {f : ε' → ε} {next : α → OnDisk ε β} {number : β → Nat}
    (first : Grows (Makes content base) (Writes content base inside) disk (steps.on disk).2)
    (later : ∀ value middle, steps.on disk = (.ok value, middle) →
      Copies content base inside number middle ((next value).on middle)) :
    Copies content base inside number disk ((steps.withError f >>= next).on disk) :=
  .bind (by rwa [OnDisk.on_withError]) fun value middle ended => later value middle (OnDisk.ok_of_withError ended)

end Copies

end Content

section Walking

variable {content : Content}

/-- A disk during a copy: the source holds what is to be copied, and the way to the destination has been made. -/
structure Walking (source destination : Path) (here : Location) (content : Content) (disk : Disk) : Prop where
  directory : disk.directory = here
  works : disk.tree.at? here = some .directory
  stands : disk.isDirectory source = true
  passed : ∀ location, Passes here destination location → disk.tree.at? location = some .directory
  apart : Apart here source destination
  holds : ∀ names, disk.tree.at? (landing here source ++ names) = content names

namespace Walking

variable {inside : List String → Prop} {entry : Entry} (walking : Walking source destination here content disk)
include walking

theorem grows
    (grows : Grows (Makes content (landing here destination)) (Writes content (landing here destination) inside) disk
      after) : Walking source destination here content after where
  directory := grows.directory.trans walking.directory
  works := grows.isDirectory walking.works
  stands := isDirectory_grows grows walking.stands
  passed location passes := grows.isDirectory (walking.passed location passes)
  apart := walking.apart
  holds names := by
    -- all that is made or written is below the destination, so nothing of the source is
    have outside : ¬ landing here destination <+: landing here source ++ names :=
      fun below => walking.apart.not_prefix below (List.prefix_append _ _)
    rw [(grows.change _).eq_of_not, walking.holds]
    · rintro ⟨below, _, same⟩
      exact outside (same ▸ List.prefix_append _ _)
    · rintro ⟨below, _, _, _, same⟩
      exact outside (same ▸ List.prefix_append _ _)

theorem proper (there : content names = some entry) : ∀ name ∈ names, IsEntryName name := by
  have present : (disk.tree.at? (landing here source ++ names)).isSome = true := by rw [walking.holds, there]; rfl
  exact fun name => FileTree.isEntryName_of_mem present

/-- What the source holds lies in directories that it holds. -/
theorem isDirectory {rest : List String} (nonempty : rest ≠ []) (there : content (names ++ rest) = some entry) :
    content names = some .directory := by
  rw [← walking.holds]
  refine FileTree.isDirectory_of_below nonempty ?_
  rw [List.append_assoc, walking.holds, there]
  rfl

/-- The directories on the way to that of a copy are there already or belong to the copy. -/
theorem makeDirectories_grows (there : content names = some .directory) (inside : List String → Prop) :
    Grows (Makes content (landing here destination)) (Writes content (landing here destination) inside) disk
      ((makeDirectories (destination.join ⟨"/".intercalate names⟩)).on disk).2 := by
  have proper := walking.proper there
  have made := Files.makeDirectories_grows (destination.join ⟨"/".intercalate names⟩) disk
  rw [walking.directory] at made
  refine ⟨made.directory, fun location => ?_⟩
  have change := made.change location
  -- up to the destination everything is a directory already, and after it the names are those of the source
  by_cases passes : Passes here destination location
  · rw [walking.passed location passes] at change ⊢
    rw [change.of_directory]
    exact .same _
  · refine change.mono (fun led => ?_) False.elim
    obtain ⟨front, begins, rfl⟩ := (led.of_join (isAbsolute_intercalate proper)).resolve_left passes
    rw [steps_intercalate proper] at begins
    obtain ⟨rest, rfl⟩ := begins
    have plain : ".." ∉ front := fun member => (proper ".." (List.mem_append_left _ member)).ne_dots rfl
    rw [foldl_advance plain]
    refine ⟨front, ?_, rfl⟩
    by_cases last : rest = []
    · rwa [last, List.append_nil] at there
    · exact walking.isDirectory last there

theorem at?_of_makeDirectories (proper : ∀ name ∈ names, IsEntryName name)
    (made : (makeDirectories (destination.join ⟨"/".intercalate names⟩)).on disk = (.ok ⟨⟩, after)) :
    after.tree.at? (landing here destination ++ names) = some .directory := by
  have works : disk.tree.at? disk.directory = some .directory := walking.directory ▸ walking.works
  have grows := Files.makeDirectories_grows (destination.join ⟨"/".intercalate names⟩) disk
  rw [made] at grows
  have opens := opens_of_makeDirectories works made
  have there := (opens.follows (grows.directory ▸ grows.isDirectory works)).2.1
  rwa [(Continues.joined proper).landing_eq, grows.directory, walking.directory] at there

/-- Nothing is below a file. -/
theorem eq_of_file {bytes : ByteArray} {below : List String} (file : content names = some (.file bytes))
    (inside : names <+: below) (there : content below = some entry) : below = names := by
  obtain ⟨rest, rfl⟩ := inside
  by_cases last : rest = []
  · rw [last, List.append_nil]
  · rw [walking.isDirectory last there] at file
    cases file

/-- A file is read as it was when the copy began: it is not where files are written. -/
theorem at?_of_copyFile {bytes : ByteArray} (file : content names = some (.file bytes))
    (copied : (copyFile (pathBelow source names) (destination.join ⟨"/".intercalate names⟩)).on disk =
      (.ok ⟨⟩, after)) : after.tree.at? (landing here destination ++ names) = some (.file bytes) := by
  have proper := walking.proper file
  obtain ⟨now, found, read⟩ := copied_of_copyFile (walking.directory ▸ walking.works) copied
  have arrives := (Disk.find_location found).2
  rw [walking.directory, (Continues.joined proper).landing_eq] at arrives read
  rw [landing_pathBelow proper, walking.holds, file] at read
  rw [arrives, read]
  exact fun same => walking.apart.1 (List.append_cancel_right same ▸ List.prefix_rfl)

/-- What is below a directory of the source begins with an entry of its listing. -/
theorem begins_iff {items taken : List Item} {below : List String} (directory : content names = some .directory)
    (listed : itemsIn disk (pathBelow source names) = .ok items) (same : taken.Perm items)
    (there : content below = some entry) :
    (∃ item ∈ taken, names ++ [item.name] <+: below) ↔ names <+: below ∧ below ≠ names := by
  have place (rest : List String) : disk.tree.at? (landing disk.directory (pathBelow source names) ++ rest) =
      content (names ++ rest) := by
    rw [landing_pathBelow (walking.proper directory), walking.directory, List.append_assoc, walking.holds]
  constructor
  · rintro ⟨item, _, rest, rfl⟩
    exact ⟨by simp, by simp⟩
  · rintro ⟨⟨rest, rfl⟩, other⟩
    obtain ⟨name, rest, rfl⟩ := List.exists_cons_of_ne_nil (show rest ≠ [] by simpa using other)
    rw [List.append_cons] at there ⊢
    obtain ⟨first, begun⟩ : ∃ first, content (names ++ [name]) = some first := by
      by_cases last : rest = []
      · rw [last, List.append_nil] at there
        exact ⟨entry, there⟩
      · exact ⟨.directory, walking.isDirectory last there⟩
    refine ⟨⟨name, first.isFile⟩, same.mem_iff.mpr ?_, List.prefix_append _ _⟩
    exact (mem_itemsIn listed).mpr ⟨first, (place [name]).trans begun, rfl⟩

end Walking

/-- A file of the source is copied by itself. -/
theorem copyFile_copies {bytes : ByteArray} (walking : Walking source destination here content disk)
    (file : content names = some (.file bytes)) :
    Copies content (landing here destination) (names <+: ·) id disk
      (((copyFile (pathBelow source names) (destination.join ⟨"/".intercalate names⟩)).withError CopyError.step >>=
        fun _ => return 1).on disk) := by
  refine .bindError ?_ fun _ middle copied => ⟨.refl middle, fun count counted => ?_⟩
  · refine (copyFile_grows _ _ disk).mono (fun _ => False.elim) fun location arrives => ?_
    rw [walking.directory, (Continues.joined (walking.proper file)).landing_eq] at arrives
    exact ⟨names, bytes, List.prefix_rfl, file, arrives⟩
  · cases counted
    refine ⟨fun below entry inside there => ?_, [names], by simp, rfl, fun below => ?_⟩
    · cases walking.eq_of_file file inside there
      cases file.symm.trans there
      exact walking.at?_of_copyFile file copied
    · rw [List.mem_singleton]
      constructor
      · rintro rfl
        exact ⟨List.prefix_rfl, bytes, file⟩
      · rintro ⟨inside, _, there⟩
        exact walking.eq_of_file file inside there

/-- Parts that begin with different names are copied one after the other. -/
theorem mapM_copies {ε : Type} {body : Item → OnDisk ε Nat} {items : List Item}
    (distinct : items.Pairwise (·.name ≠ ·.name)) (walking : Walking source destination here content disk)
    (each : ∀ item ∈ items, ∀ disk, Walking source destination here content disk →
      Copies content (landing here destination) (names ++ [item.name] <+: ·) id disk ((body item).on disk)) :
    Copies content (landing here destination) (fun below => ∃ item ∈ items, names ++ [item.name] <+: below)
      (List.foldr (· + ·) 0) disk ((items.mapM body).on disk) := by
  induction items generalizing disk with
  | nil =>
    refine ⟨.refl disk, fun counts counted => ?_⟩
    cases counted
    exact ⟨by simp, [], List.nodup_nil, rfl, by simp⟩
  | cons item rest ih =>
    obtain ⟨alone, distinct⟩ := List.pairwise_cons.mp distinct
    have first := each item List.mem_cons_self disk walking
    have apart (below : List String) (inside : names ++ [item.name] <+: below) :
        ¬ ∃ other ∈ rest, names ++ [other.name] <+: below := by
      rintro ⟨other, member, also⟩
      -- two names in the same place of one way are the same
      have same := (List.prefix_of_prefix_length_le inside also (by simp)).eq_of_length (by simp)
      exact alone other member (List.singleton_inj.mp (List.append_cancel_left same))
    rw [List.mapM_cons]
    refine .bind (first.widen fun below inside => ⟨item, List.mem_cons_self, inside⟩) fun count middle counted => ?_
    rw [counted] at first
    have others := ih distinct (walking.grows first.grows) fun other member =>
      each other (List.mem_cons_of_mem item member)
    refine .bind (others.widen fun below inside => ?_) fun counts last listed => ⟨.refl last, fun total counted => ?_⟩
    · obtain ⟨other, member, also⟩ := inside
      exact ⟨other, List.mem_cons_of_mem item member, also⟩
    cases counted
    rw [listed] at others
    have whole := ((first.carried count rfl).grows others.grows apart).or (others.carried counts rfl) apart
    change Carried content _ _ last _
    simpa only [List.exists_mem_cons_iff, List.foldr_cons, id] using whole

/-- Copies what is in a directory that has been made. -/
def copyItems (arrange : Arrangement) (source destination : Path) (depth : Nat) (names : List String) :
    OnDisk CopyError Nat := do
  let items ← (look (itemsIn · (pathBelow source names))).withError (.walk (pathBelow source names))
  let counts ← (arrange.order names items).mapM fun item =>
    copyWithin arrange source destination depth (names ++ [item.name]) item.isFile
  return counts.foldr (· + ·) 0

theorem copyWithin_file (arrange : Arrangement) (source destination : Path) (depth : Nat) (names : List String) :
    copyWithin arrange source destination (depth + 1) names true =
      (copyFile (pathBelow source names) (destination.join ⟨"/".intercalate names⟩)).withError CopyError.step >>=
        fun _ => return 1 := rfl

theorem copyWithin_directory (arrange : Arrangement) (source destination : Path) (depth : Nat) (names : List String) :
    copyWithin arrange source destination (depth + 1) names false =
      (makeDirectories (destination.join ⟨"/".intercalate names⟩)).withError CopyError.step >>=
        fun _ => copyItems arrange source destination depth names := rfl

/-- What is in a directory of the source is copied when its entries are. -/
theorem copyItems_copies {depth : Nat} (walking : Walking source destination here content disk)
    (directory : content names = some .directory)
    (made : disk.tree.at? (landing here destination ++ names) = some .directory)
    (each : ∀ name entry disk, content (names ++ [name]) = some entry → names.length + 1 < longestPath →
      Walking source destination here content disk →
      Copies content (landing here destination) (names ++ [name] <+: ·) id disk
        ((copyWithin arrange source destination depth (names ++ [name]) entry.isFile).on disk)) :
    Copies content (landing here destination) (names <+: ·) id disk
      ((copyItems arrange source destination depth names).on disk) := by
  have proper := walking.proper directory
  refine .bindError (by rw [OnDisk.on_look]; exact .refl disk) fun items middle looked => ?_
  rw [OnDisk.on_look, Prod.mk.injEq] at looked
  obtain ⟨listed, rfl⟩ := looked
  have same := arrange.perm names items
  have distinct : (arrange.order names items).Pairwise (·.name ≠ ·.name) :=
    same.symm.pairwise (itemsIn_distinct listed) fun different => different.symm
  have entries : Copies content (landing here destination)
      (fun below => ∃ item ∈ arrange.order names items, names ++ [item.name] <+: below) (List.foldr (· + ·) 0) disk
      (((arrange.order names items).mapM fun item =>
        copyWithin arrange source destination depth (names ++ [item.name]) item.isFile).on disk) := by
    refine mapM_copies distinct walking fun item member after walking' => ?_
    obtain ⟨entry, there, kind⟩ := (mem_itemsIn listed).mp (same.mem_iff.mp member)
    rw [landing_pathBelow proper, walking.directory, List.append_assoc, walking.holds] at there
    exact kind ▸ each item.name entry after there (length_lt_of_itemsIn proper listed) walking'
  have begins {below : List String} {entry : Entry} (there : content below = some entry) :=
    walking.begins_iff directory listed same there
  refine .bind ?_ fun counts last counted => ⟨.refl last, fun total summed => ?_⟩
  · refine entries.grows.mono (fun _ => id) fun location writes => ?_
    obtain ⟨below, bytes, inside, file, arrives⟩ := writes
    exact ⟨below, bytes, ((begins file).mp inside).1, file, arrives⟩
  · cases summed
    rw [counted] at entries
    have carried := entries.carried counts rfl
    obtain ⟨files, single, length, mem⟩ := carried.files
    refine ⟨fun below entry inside there => ?_, files, single, length, fun below => ?_⟩
    · by_cases top : below = names
      · rw [top, directory] at there
        cases there
        exact top ▸ entries.grows.isDirectory made
      · exact carried.entries below entry ((begins there).mpr ⟨inside, top⟩) there
    · rw [mem]
      refine and_congr_left fun ⟨bytes, file⟩ => ?_
      rw [begins file]
      refine and_iff_left ?_
      rintro rfl
      cases directory.symm.trans file

/-- An entry of the source is copied with all that is below it. -/
theorem copyWithin_copies {depth : Nat} {entry : Entry} (walking : Walking source destination here content disk)
    (there : content names = some entry) (short : names.length < longestPath)
    (enough : longestPath ≤ names.length + depth) :
    Copies content (landing here destination) (names <+: ·) id disk
      ((copyWithin arrange source destination depth names entry.isFile).on disk) := by
  induction depth generalizing names entry disk with
  | zero => omega
  | succ depth ih =>
    cases entry with
    | file bytes =>
      rw [Entry.isFile, copyWithin_file]
      exact copyFile_copies walking there
    | directory =>
      rw [Entry.isFile, copyWithin_directory]
      have grows := walking.makeDirectories_grows there (names <+: ·)
      refine .bindError grows fun _ middle made => ?_
      rw [made] at grows
      have place := walking.at?_of_makeDirectories (walking.proper there) made
      refine copyItems_copies (walking.grows grows) there place fun name entry disk there short walking => ?_
      exact ih walking there (by simpa using short) (by simp; omega)

end Walking

section Mirroring

/-- The files below a location, by the names that lead there. -/
def filesBelow (tree : FileTree) (location : Location) : List (List String) :=
  (tree.below location).filterMap fun (names, entry) => if entry.isFile then some names else none

theorem mem_filesBelow {tree : FileTree} : names ∈ filesBelow tree location ↔
    names ≠ [] ∧ ∃ bytes, tree.at? (location ++ names) = some (.file bytes) := by
  rw [filesBelow, List.mem_filterMap]
  constructor
  · rintro ⟨⟨below, _ | bytes⟩, inside, kept⟩
    · cases kept
    · cases kept
      obtain ⟨nonempty, there⟩ := FileTree.mem_below.mp inside
      exact ⟨nonempty, bytes, there⟩
  · rintro ⟨nonempty, bytes, there⟩
    exact ⟨(names, .file bytes), FileTree.mem_below.mpr ⟨nonempty, there⟩, rfl⟩

theorem nodup_filesBelow (tree : FileTree) (location : Location) : (filesBelow tree location).Nodup := by
  rw [filesBelow, List.nodup_iff_pairwise_ne, List.pairwise_filterMap]
  refine (FileTree.pairwise_below tree location).imp ?_
  rintro ⟨one, entry⟩ ⟨other, entry'⟩ before names kept names' kept' rfl
  dsimp only at before kept kept'
  split at kept <;> split at kept' <;> cases kept <;> cases kept'
  exact absurd before (by simp [Std.ReflCmp.compare_self])

/-- A place is as it was, if it is not a directory that has been made on the way to a destination. -/
def AsBefore (disk after : Disk) (destination : Path) (location : Location) : Prop :=
  Change (Passes disk.directory destination location) False (disk.tree.at? location) (after.tree.at? location)

/-- A copy that has been finished: each directory and each file that the source has is at the destination, all the files
have been counted, and everything else is as before. The source is read when the destination has been made, since the
way to the destination can lead through it. -/
structure Mirrors (disk after : Disk) (source destination : Path) (count : Nat) : Prop where
  counted : count = (filesBelow disk.tree (landing disk.directory source)).length
  copied : ∀ names entry, after.tree.at? (landing disk.directory source ++ names) = some entry →
    after.tree.at? (landing disk.directory destination ++ names) = some entry
  kept : ∀ names, AsBefore disk after destination (landing disk.directory source ++ names)
  elsewhere : ∀ location, (∀ names, location = landing disk.directory destination ++ names →
    after.tree.at? (landing disk.directory source ++ names) = none) → AsBefore disk after destination location

/-- A copy that has not been finished: the source and all that is outside of the destination is as before. -/
structure Confined (disk after : Disk) (source destination : Path) : Prop where
  kept : ∀ names, AsBefore disk after destination (landing disk.directory source ++ names)
  elsewhere : ∀ location, ¬ landing disk.directory destination <+: location → AsBefore disk after destination location

theorem on_copyDirectory {depth : Nat} (bound : longestPath = depth + 1) (there : disk.isDirectory source = true) :
    (copyDirectory source destination arrange).on disk =
      match (makeDirectories (destination.join ⟨"/".intercalate []⟩)).on disk with
      | (.error cause, middle) => (.error (.step cause), middle)
      | (.ok _, middle) => (copyItems arrange source destination depth []).on middle := by
  rw [copyDirectory, OnDisk.on_bind, OnDisk.on_withError, OnDisk.on_look, Disk.isDirectory_iff.mp there]
  dsimp only [Except.mapError, Entry.isFile]
  rw [bound, copyWithin_directory, OnDisk.on_bind, OnDisk.on_withError]
  rcases (makeDirectories (destination.join ⟨"/".intercalate []⟩)).on disk with ⟨_ | _, middle⟩ <;> rfl

/-- Making the destination makes directories on the way to it. -/
theorem makeRoot_grows (destination : Path) (disk : Disk) :
    Grows (Passes disk.directory destination) (fun _ => False) disk
      ((makeDirectories (destination.join ⟨"/".intercalate []⟩)).on disk).2 := by
  refine (makeDirectories_grows _ disk).mono (fun location led => ?_) fun _ => id
  rcases led.of_join (isAbsolute_intercalate (by simp)) with passes | ⟨front, begins, rfl⟩
  · exact passes
  · rw [steps_intercalate (by simp)] at begins
    rw [List.prefix_nil.mp begins]
    exact passes_landing _ _

section Made

variable (works : disk.tree.at? disk.directory = some .directory) (there : disk.isDirectory source = true)
variable (apart : Apart disk.directory source destination)
variable (made : (makeDirectories (destination.join ⟨"/".intercalate []⟩)).on disk = (.ok ⟨⟩, middle))

include made in
theorem grows_of_made : Grows (Passes disk.directory destination) (fun _ => False) disk middle := by
  have grows := makeRoot_grows destination disk
  rwa [made] at grows

include works there apart made

/-- What the source holds when the destination has been made is what is copied. -/
theorem walking_of_makeDirectories : Walking source destination disk.directory
    (fun names => middle.tree.at? (landing disk.directory source ++ names)) middle := by
  have grows := grows_of_made made
  have works' := grows.isDirectory works
  refine ⟨grows.directory, works', isDirectory_grows grows there, fun location passes => ?_, apart, fun _ => rfl⟩
  have continues : Continues (destination.join ⟨"/".intercalate []⟩) destination [] := .joined (by simp)
  have opens := opens_of_makeDirectories works made
  exact opens.passed (grows.directory ▸ works') (grows.directory ▸ continues.passes passes)

variable {ε : Type} {outcome : Except ε Nat × Disk}
variable (copies : Copies (fun names => middle.tree.at? (landing disk.directory source ++ names))
  (landing disk.directory destination) ([] <+: ·) id middle outcome)
include copies

theorem at?_source_of_copies (names : List String) :
    outcome.2.tree.at? (landing disk.directory source ++ names) =
      middle.tree.at? (landing disk.directory source ++ names) :=
  ((walking_of_makeDirectories works there apart made).grows copies.grows).holds names

theorem kept_of_copies (names : List String) :
    AsBefore disk outcome.2 destination (landing disk.directory source ++ names) := by
  have grows := grows_of_made made
  have change := grows.change (landing disk.directory source ++ names)
  rwa [← at?_source_of_copies works there apart made copies] at change

theorem elsewhere_of_copies (free : ∀ names, location = landing disk.directory destination ++ names →
    outcome.2.tree.at? (landing disk.directory source ++ names) = none) :
    AsBefore disk outcome.2 destination location := by
  have grows := grows_of_made made
  have vacant (names : List String) (entry : Entry) (arrives : location = landing disk.directory destination ++ names) :
      middle.tree.at? (landing disk.directory source ++ names) ≠ some entry := by
    rw [← at?_source_of_copies works there apart made copies, free names arrives]
    nofun
  have same : outcome.2.tree.at? location = middle.tree.at? location := by
    refine (copies.grows.change location).eq_of_not ?_ ?_
    · rintro ⟨names, directory, arrives⟩
      exact vacant names _ arrives directory
    · rintro ⟨names, bytes, _, file, arrives⟩
      exact vacant names _ arrives file
  rw [AsBefore, same]
  exact grows.change location

omit works apart copies in
/-- The files that are there when the destination has been made are those that were there. -/
theorem count_of_carried {count : Nat}
    (carried : Carried (fun names => middle.tree.at? (landing disk.directory source ++ names))
      (landing disk.directory destination) ([] <+: ·) after count) :
    count = (filesBelow disk.tree (landing disk.directory source)).length := by
  have grows := grows_of_made made
  obtain ⟨files, single, rfl, mem⟩ := carried.files
  refine ((List.perm_ext_iff_of_nodup single (nodup_filesBelow _ _)).mpr fun names => ?_).length_eq
  rw [mem, mem_filesBelow]
  simp only [(grows.change _).file_iff]
  refine and_congr_left fun ⟨bytes, file⟩ => iff_of_true List.nil_prefix ?_
  rintro rfl
  rw [List.append_nil, (Disk.find_location (Disk.isDirectory_iff.mp there)).2] at file
  cases file

end Made

/-- A directory is copied as it is, with all that is below it and nothing besides, and all its files are counted. Where
the copy is not finished, nothing has changed but below the destination. -/
theorem directory_mirrored {result : Except CopyError Nat}
    (works : disk.tree.at? disk.directory = some .directory) (there : disk.isDirectory source = true)
    (apart : Apart disk.directory source destination)
    (ended : (copyDirectory source destination arrange).on disk = (result, after)) :
    match result with
    | .ok count => Mirrors disk after source destination count
    | .error _ => Confined disk after source destination := by
  obtain ⟨depth, bound⟩ : ∃ depth, longestPath = depth + 1 := ⟨4094, rfl⟩
  rw [on_copyDirectory bound there] at ended
  rcases made : (makeDirectories (destination.join ⟨"/".intercalate []⟩)).on disk with ⟨cause | _, middle⟩
  · have grows := makeRoot_grows destination disk
    rw [made] at ended grows
    cases ended
    exact ⟨fun _ => grows.change _, fun _ _ => grows.change _⟩
  · rw [made] at ended
    have grows := grows_of_made made
    have walking := walking_of_makeDirectories works there apart made
    have directory : middle.tree.at? (landing disk.directory source ++ []) = some .directory := by
      rw [List.append_nil]
      exact grows.isDirectory (Disk.find_location (Disk.isDirectory_iff.mp there)).2
    have begun : middle.tree.at? (landing disk.directory destination ++ []) = some .directory := by
      rw [List.append_nil]
      exact walking.passed _ (passes_landing _ _)
    have copies : Copies _ _ _ id middle ((copyItems arrange source destination depth []).on middle) :=
      copyItems_copies walking directory begun fun name entry disk there short walking =>
        copyWithin_copies walking there (by simpa using short) (by simp; omega)
    dsimp only at ended
    rw [ended] at copies
    have kept := kept_of_copies works there apart made copies
    cases result with
    | error cause =>
      refine ⟨kept, fun location outside => elsewhere_of_copies works there apart made copies fun names arrives => ?_⟩
      exact absurd (arrives ▸ List.prefix_append _ _) outside
    | ok count =>
      have carried := copies.carried count rfl
      refine ⟨count_of_carried there made carried, fun names entry present => ?_, kept, fun location =>
        elsewhere_of_copies works there apart made copies⟩
      have still := at?_source_of_copies works there apart made copies names
      exact carried.entries names entry List.nil_prefix (still.symm.trans present)

/-- A directory of static files, and a destination that has some of the names already. -/
def cluttered : Disk :=
  let source := FileTree.empty.putDirectories [] ["work", "static", "css", "old"]
  let filled := (source.put ["work", "static", "css"] "a.css" (.file "new".toUTF8)).put ["work", "static"] "b.txt"
    (.file "new".toUTF8)
  let taken := filled.putDirectories ["work"] ["out", "css"]
  { tree := (taken.put ["work", "out"] "b.txt" (.file "earlier".toUTF8)).put ["work", "out"] "c.txt" (.file .empty)
    directory := ["work"] }

/-- The entries of a directory, the last one first. -/
def backwards : Arrangement := ⟨fun _ items => items.reverse, fun _ items => items.reverse_perm⟩

theorem directory_mirrored_backwards :
    ∃ after, (copyDirectory ⟨"static"⟩ ⟨"out"⟩ backwards).on cluttered = (.ok 2, after) ∧
      after.tree.at? ["work", "out", "b.txt"] = some (.file "new".toUTF8) ∧
      after.tree.at? ["work", "out", "c.txt"] = some (.file .empty) ∧
      Mirrors cluttered after ⟨"static"⟩ ⟨"out"⟩ 2 := by
  have counted : ((copyDirectory ⟨"static"⟩ ⟨"out"⟩ backwards).on cluttered).1 = .ok 2 := by decide +kernel
  have copied : ((copyDirectory ⟨"static"⟩ ⟨"out"⟩ backwards).on cluttered).2.tree.at? ["work", "out", "b.txt"] =
      some (.file "new".toUTF8) := by decide +kernel
  have kept : ((copyDirectory ⟨"static"⟩ ⟨"out"⟩ backwards).on cluttered).2.tree.at? ["work", "out", "c.txt"] =
      some (.file .empty) := by decide +kernel
  rcases ended : (copyDirectory ⟨"static"⟩ ⟨"out"⟩ backwards).on cluttered with ⟨result, after⟩
  rw [ended] at counted copied kept
  cases counted
  refine ⟨after, rfl, copied, kept, ?_⟩
  exact directory_mirrored (by decide +kernel) (by decide +kernel) (by decide +kernel) ended

end Mirroring

end Pagewright.Site
