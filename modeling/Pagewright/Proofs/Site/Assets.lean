import Pagewright.Proofs.Files.Steps
import Pagewright.Proofs.Parents
import Pagewright.Proofs.Site.Below
import Pagewright.Site.Build

/-! Where the assets of a site go. Directories are made on the way to the output directory and below it, and
each file that is written has its own place there. -/

namespace Pagewright.Site

open Files

variable {disk before after : Disk} {root source destination : Path} {here location : Location} {names : List String}
variable {config : BuildConfig} {arrange : Arrangement}

/-- On the way to the output directory, or below it. -/
def Outward (here : Location) (output : Path) (location : Location) : Prop :=
  Passes here output location ∨ landing here output <+: location

/-- A path that goes on from another one by names. -/
structure Continues (path root : Path) (names : List String) : Prop where
  proper : ∀ name ∈ names, IsEntryName name
  steps : path.steps = root.steps ++ names
  start : path.isAbsolute = root.isAbsolute

namespace Continues

variable {path : Path}

theorem below (proper : ∀ name ∈ names, IsEntryName name) : Continues (pathBelow root names) root names :=
  ⟨proper, steps_pathBelow proper, isAbsolute_pathBelow proper⟩

theorem single {name : String} (named : IsEntryName name) : Continues (root.join ⟨name⟩) root [name] := by
  have below : Continues (pathBelow root [name]) root [name] := below (by simpa using named)
  exact below

theorem joined (proper : ∀ name ∈ names, IsEntryName name) :
    Continues (root.join ⟨"/".intercalate names⟩) root names :=
  ⟨proper, steps_join_intercalate proper, Path.isAbsolute_join (isAbsolute_intercalate proper)⟩

theorem trans {middle : Path} {rest : List String} (later : Continues path middle rest)
    (first : Continues middle root names) : Continues path root (names ++ rest) where
  proper name member := (List.mem_append.mp member).elim (first.proper name) (later.proper name)
  steps := by rw [later.steps, first.steps, List.append_assoc]
  start := later.start.trans first.start

theorem pair {name last : String} (named : IsEntryName name) (also : IsEntryName last) :
    Continues ((root.join ⟨name⟩).join ⟨last⟩) root [name, last] := (Continues.single also).trans (.single named)

variable (continues : Continues path root names)
include continues

theorem landing_eq : landing here path = landing here root ++ names := by
  have plain : ".." ∉ names := fun member => (continues.proper ".." member).ne_dots rfl
  rw [landing, landing, origin, origin, continues.steps, continues.start, List.foldl_append, foldl_advance plain]

theorem passes (passes : Passes here root location) : Passes here path location := by
  obtain ⟨front, begins, rfl⟩ := passes
  refine ⟨front, ?_, by rw [origin, origin, continues.start]⟩
  rw [continues.steps]
  exact begins.trans (List.prefix_append _ _)

theorem outward (passes : Passes here path location) : Outward here root location := by
  obtain ⟨front, begins, rfl⟩ := passes
  have start : origin here path = origin here root := by rw [origin, origin, continues.start]
  rw [continues.steps] at begins
  rw [start]
  rcases List.prefix_or_prefix_of_prefix begins (List.prefix_append root.steps names) with
    inside | ⟨rest, rfl⟩
  · exact .inl ⟨front, inside, rfl⟩
  · have further : rest <+: names := (List.prefix_append_right_inj _).mp begins
    have plain : ".." ∉ rest := fun member => (continues.proper ".." (further.subset member)).ne_dots rfl
    rw [List.foldl_append, foldl_advance plain]
    exact .inr (List.prefix_append _ _)

end Continues

/-- The place of the copy of a static file, of the icon, or of the client script. -/
inductive AssetPlace (config : BuildConfig) (here : Location) (disk : Disk) : Location → Prop where
  | static (names : List String) (proper : ∀ name ∈ names, IsEntryName name)
      (file : disk.isFile (pathBelow config.static names) = true) :
      AssetPlace config here disk (landing here config.output ++ "static" :: names)
  | favicon (file : disk.isFile ((config.static.join ⟨"favicon"⟩).join ⟨"favicon.ico"⟩) = true) :
      AssetPlace config here disk (landing here config.output ++ ["favicon.ico"])
  | script : AssetPlace config here disk (landing here config.output ++ ["scripts", clientScriptName])

theorem AssetPlace.below (place : AssetPlace config here disk location) : landing here config.output <+: location := by
  cases place with
  | static => exact List.prefix_append _ _
  | favicon => exact List.prefix_append _ _
  | script => exact List.prefix_append _ _

theorem assetPlace_lasting (config : BuildConfig) (here : Location) : Lasting (AssetPlace config here) := by
  intro before after directories changed grows location place
  cases place with
  | static names proper file => exact .static names proper (grows.isFile_path file)
  | favicon file => exact .favicon (grows.isFile_path file)
  | script => exact .script

theorem mem_itemsIn {path : Path} {items : List Item} {item : Item} (listed : itemsIn disk path = .ok items) :
    item ∈ items ↔ ∃ entry, disk.tree.at? (landing disk.directory path ++ [item.name]) = some entry ∧
      entry.isFile = item.isFile := by
  unfold itemsIn at listed
  split at listed
  next => cases listed
  next => cases listed
  next location found =>
    obtain ⟨rfl, _⟩ := Disk.find_location found
    cases listed
    rw [List.mem_filterMap]
    constructor
    · rintro ⟨⟨names, entry⟩, inside, kept⟩
      dsimp only at kept
      split at kept
      next name =>
        cases kept
        exact ⟨entry, (FileTree.mem_below.mp inside).2, rfl⟩
      next => cases kept
    · rintro ⟨entry, there, kind⟩
      obtain ⟨name, isFile⟩ := item
      cases kind
      exact ⟨([name], entry), FileTree.mem_below.mpr ⟨by simp, there⟩, rfl⟩

theorem itemsIn_named {path : Path} {items : List Item} (listed : itemsIn disk path = .ok items) :
    ∀ item ∈ items, IsEntryName item.name := by
  intro item member
  obtain ⟨entry, there, _⟩ := (mem_itemsIn listed).mp member
  exact FileTree.isEntryName (by rw [there]; rfl)

theorem itemsIn_distinct {path : Path} {items : List Item} (listed : itemsIn disk path = .ok items) :
    items.Pairwise (·.name ≠ ·.name) := by
  unfold itemsIn at listed
  split at listed
  next => cases listed
  next => cases listed
  next location _ =>
    cases listed
    rw [List.pairwise_filterMap]
    refine (FileTree.pairwise_below disk.tree location).imp ?_
    rintro ⟨one, _⟩ ⟨other, _⟩ before item kept item' kept' same
    dsimp only at kept kept' before
    split at kept
    next =>
      split at kept'
      next =>
        cases kept
        cases kept'
        cases same
        exact absurd before (by simp [Std.ReflCmp.compare_self])
      next => cases kept'
    next => cases kept

/-- A directory that can be listed does not lie deep. -/
theorem length_lt_of_itemsIn {items : List Item} (proper : ∀ name ∈ names, IsEntryName name)
    (listed : itemsIn disk (pathBelow root names) = .ok items) : names.length + 1 < longestPath := by
  have filled : "" ∉ names := fun member => (proper "" member).ne_empty rfl
  have reached : (pathBelow root names).text.utf8ByteSize ≤ longestPath := by
    unfold itemsIn at listed
    split at listed
    next => cases listed
    next => cases listed
    next found =>
      obtain ⟨target, followed, _⟩ := Disk.find_eq_ok.mp found
      exact (Disk.target_eq_ok.mp followed).1.2.2
  have inside : names.Sublist (pathBelow root names).steps := by
    rw [steps_pathBelow proper]
    exact List.sublist_append_right _ _
  have long := Path.length_le_size filled
  have steps := Path.size_intercalate_le inside
  have text : ("/".intercalate (pathBelow root names).steps).utf8ByteSize ≤ (pathBelow root names).text.utf8ByteSize :=
    Path.size_steps_le List.prefix_rfl
  have bound : longestPath = 4095 := rfl
  omega

section Growth

variable {ε : Type}

/-- What the assets of a site do to the files. -/
abbrev Furnishes (config : BuildConfig) (here : Location) : Disk → Disk → Prop :=
  Growing here (Outward here config.output) (AssetPlace config here)

theorem Furnishes.trans (config : BuildConfig) (here : Location) : ∀ before middle after,
    Furnishes config here before middle → Furnishes config here middle after → Furnishes config here before after :=
  Growing.trans (assetPlace_lasting config here)

theorem makeDirectories_within {path : Path} {names : List String} (continues : Continues path config.output names)
    (disk : Disk) : (makeDirectories path).Within (Furnishes config here) disk := by
  rintro rfl
  exact (makeDirectories_grows path disk).mono (fun _ => continues.outward) fun _ => False.elim

theorem copyFile_within {path : Path}
    (place : ∀ after, after.isFile source = true → AssetPlace config here after (landing here path)) (disk : Disk) :
    (copyFile source path).Within (Furnishes config here) disk := by
  rintro rfl
  cases file : disk.isFile source with
  | true =>
    have grows := copyFile_grows source path disk
    refine grows.mono (fun _ => False.elim) fun location arrives => ?_
    rw [arrives]
    exact place _ (grows.isFile_path file)
  | false =>
    obtain ⟨_, stopped⟩ := copyFile_of_not_isFile file
    rw [stopped]
    exact .refl disk

theorem copyWithin_within (depth : Nat) (proper : ∀ name ∈ names, IsEntryName name) (isFile : Bool) (disk : Disk) :
    (copyWithin arrange config.static (config.output.join ⟨"static"⟩) depth names isFile).Within (Furnishes config here)
      disk := by
  have trans := Furnishes.trans config here
  have static : Continues (config.output.join ⟨"static"⟩) config.output ["static"] := .single (by decide)
  induction depth generalizing names isFile disk with
  | zero => exact .pure Growing.refl 0
  | succ depth ih =>
    have target := (Continues.joined proper).trans static
    rw [copyWithin]
    split
    next =>
      refine .bind trans (.withError _ (copyFile_within (fun after file => ?_) disk)) fun _ _ _ => .pure Growing.refl 1
      rw [target.landing_eq]
      exact .static names proper file
    next =>
      refine .bind trans (.withError _ (makeDirectories_within target disk)) fun _ middle _ => ?_
      refine .bind trans ?_ fun items middle listed => ?_
      · exact .withError _ (by rw [OnDisk.Within, OnDisk.on_look]; exact .refl middle)
      · refine .bind trans (.mapM Growing.refl trans fun item member disk => ih ?_ item.isFile disk) fun _ _ _ =>
          .pure Growing.refl _
        have named := itemsIn_named (OnDisk.of_look listed) item ((arrange.perm names items).mem_iff.mp member)
        simp_all [or_imp]

theorem copyDirectory_within (disk : Disk) :
    (copyDirectory config.static (config.output.join ⟨"static"⟩) arrange).Within (Furnishes config here) disk := by
  refine .bind (Furnishes.trans config here) ?_ fun found middle _ =>
    copyWithin_within longestPath (by simp) found.2.isFile middle
  exact .withError _ (by rw [OnDisk.Within, OnDisk.on_look]; exact .refl disk)

theorem copyFavicon_within (disk : Disk) :
    (copyFavicon config.static config.output).Within (Furnishes config here) disk := by
  refine .get ?_
  split
  next => exact .pure Growing.refl false
  next present =>
    have file : disk.isFile ((config.static.join ⟨"favicon"⟩).join ⟨"favicon.ico"⟩) = true := by simpa using present
    have target : Continues (config.output.join ⟨"favicon.ico"⟩) config.output ["favicon.ico"] := .single (by decide)
    refine .bind (Furnishes.trans config here) (copyFile_within (fun after file => ?_) disk) fun _ _ _ =>
      .pure Growing.refl true
    rw [target.landing_eq]
    exact .favicon file

theorem placeClientScript_within (disk : Disk) :
    (placeClientScript config.scripts config.output).Within (Furnishes config here) disk := by
  have trans := Furnishes.trans config here
  have directory : Continues (config.output.join ⟨"scripts"⟩) config.output ["scripts"] := .single (by decide)
  have target : Continues ((config.output.join ⟨"scripts"⟩).join ⟨clientScriptName⟩) config.output
      ["scripts", clientScriptName] := .pair (by decide) (by decide)
  have place (after : Disk) : AssetPlace config here after
      (landing here ((config.output.join ⟨"scripts"⟩).join ⟨clientScriptName⟩)) := by
    rw [target.landing_eq]
    exact .script
  refine .bind trans (makeDirectories_within directory disk) fun _ middle _ => .get ?_
  split
  next file =>
    exact .bind trans (copyFile_within (fun after _ => place after) _) fun _ _ _ => .pure Growing.refl true
  next =>
    refine .bind trans ?_ fun _ _ _ => .pure Growing.refl false
    rintro rfl
    rw [on_writeText]
    split
    next after written => exact (write_grows written).mono (fun _ => False.elim) fun _ arrives => arrives ▸ place after
    next => exact .refl middle

theorem run_copyAssets (config : BuildConfig) (arrange : Arrangement) (disk : Disk) :
    ((copyAssets config arrange).run disk).2 =
      ((placeClientScript config.scripts config.output).on
        ((copyFavicon config.static config.output).on
          (if disk.isDirectory config.static then
            ((copyDirectory config.static (config.output.join ⟨"static"⟩) arrange).on disk).2
          else disk)).2).2 := by
  unfold copyAssets attempt OnDisk.on
  -- the steps are kept closed, since comparing the two sides would run them
  generalize copyDirectory config.static (config.output.join ⟨"static"⟩) arrange = copied
  generalize copyFavicon config.static config.output = icon
  generalize placeClientScript config.scripts config.output = script
  simp only [StateT.run_bind, StateT.run_get, pure_bind]
  split
  · rfl
  · rfl

/-- The assets are put into the output directory, each in its place. -/
theorem copyAssets_grows (config : BuildConfig) (arrange : Arrangement) (disk : Disk) :
    Grows (Outward disk.directory config.output)
      (AssetPlace config disk.directory ((copyAssets config arrange).run disk).2) disk
      ((copyAssets config arrange).run disk).2 := by
  have trans := Furnishes.trans config disk.directory
  have whole : Furnishes config disk.directory disk ((copyAssets config arrange).run disk).2 := by
    rw [run_copyAssets]
    refine trans _ _ _ ?_ (placeClientScript_within _)
    refine trans _ _ _ ?_ (copyFavicon_within _)
    split
    next => exact copyDirectory_within disk
    next => exact Growing.refl disk
  exact whole rfl

end Growth

end Pagewright.Site
