import Pagewright.Proofs.Files.Steps

/-! The same steps on two disks that differ in one place, where neither has a directory. As long as no path leads
past that place, the steps have the same results, and the disks differ nowhere else afterwards. -/

namespace Pagewright.Files

variable {tree other : FileTree} {here spot location : Location} {path : Path} {names front : List String}
variable {first second : Disk}

section Ways

/-- What is on the way decides how a way is followed. -/
theorem follow_congr (filled : "" ∉ names)
    (same : ∀ front, front <+: names.filter (!Path.isVoid ·) →
      other.at? (front.foldl advance here) = tree.at? (front.foldl advance here)) :
    follow other here names = follow tree here names := by
  induction names generalizing here with
  | nil => rfl
  | cons name rest ih =>
    rw [List.mem_cons, not_or] at filled
    by_cases plain : name = "."
    · subst plain
      exact ih filled.2 same
    have named : Path.isVoid name = false := by simp [Path.isVoid, plain, Ne.symm filled.1]
    rw [List.filter_cons_of_pos (by simp [named])] at same
    have further : follow other (advance here name) rest = follow tree (advance here name) rest :=
      ih filled.2 fun front begins => same (name :: front) (List.cons_prefix_cons.mpr ⟨rfl, begins⟩)
    by_cases onward : name = ".."
    · subst onward
      exact further
    · have step : advance here name = here ++ [name] := if_neg onward
      have slot := same [name] (by simp)
      rw [List.foldl_cons, List.foldl_nil, step] at slot
      rw [step] at further
      rw [follow_name rest plain onward, follow_name rest plain onward, slot, further]

/-- All that a way leads past is a directory, but for its end. -/
theorem Follows.passed {target : Target} (follows : Follows tree here names target) (filled : "" ∉ names)
    (start : tree.at? here = some .directory) (begins : front <+: names.filter (!Path.isVoid ·)) :
    front = names.filter (!Path.isVoid ·) ∨ tree.at? (front.foldl advance here) = some .directory := by
  induction follows generalizing front with
  | done => exact .inl (List.prefix_nil.mp begins)
  | stay _ ih => exact ih (fun member => filled (List.mem_cons_of_mem _ member)) start begins
  | back _ ih =>
    cases front with
    | nil => exact .inr start
    | cons step front =>
      obtain ⟨rfl, further⟩ := List.cons_prefix_cons.mp begins
      have later := ih (fun member => filled (List.mem_cons_of_mem _ member)) (at?_dropLast start) further
      exact later.imp_left (congrArg (".." :: ·))
  | @last here name plain onward =>
    have named : Path.isVoid name = false := by simp_all [Path.isVoid]
    rw [List.filter_cons_of_pos (by simp [named])] at begins
    cases front with
    | nil => exact .inr start
    | cons step front =>
      obtain ⟨rfl, further⟩ := List.cons_prefix_cons.mp begins
      cases List.prefix_nil.mp further
      exact .inl (by simp [named])
  | @into here name rest target plain onward _ _ directory _ ih =>
    have named : Path.isVoid name = false := by simp_all [Path.isVoid]
    rw [List.filter_cons_of_pos (by simp [named])] at begins
    cases front with
    | nil => exact .inr start
    | cons step front =>
      obtain ⟨rfl, further⟩ := List.cons_prefix_cons.mp begins
      rw [List.foldl_cons, advance, if_neg onward, List.filter_cons_of_pos (by simp [named])]
      exact (ih (fun member => filled (List.mem_cons_of_mem _ member)) directory further).imp_left (congrArg (List.cons _))

theorem Disk.passed {disk : Disk} {target : Target} (works : disk.tree.at? disk.directory = some .directory)
    (found : disk.target path = .ok target) (begins : front <+: path.steps) :
    front = path.steps ∨ disk.tree.at? (front.foldl advance (origin disk.directory path)) = some .directory := by
  have start : disk.tree.at? (origin disk.directory path) = some .directory := by
    unfold origin
    split
    · rfl
    · exact works
  rw [← Path.filter_filter_pieces] at begins ⊢
  exact (target_eq_ok.mp found).2.passed (by simp) start begins

end Ways

section Congruence

/-- A path leads to the same where all that it leads past is the same. -/
theorem target_congr (here : second.directory = first.directory)
    (same : ∀ location, Passes first.directory path location →
      second.tree.at? location = first.tree.at? location) : second.target path = first.target path := by
  have followed : follow second.tree (origin first.directory path) (path.pieces.filter (· ≠ "")) =
      follow first.tree (origin first.directory path) (path.pieces.filter (· ≠ "")) := by
    refine follow_congr (by simp) fun front begins => same _ ?_
    rw [Path.filter_filter_pieces] at begins
    exact ⟨front, begins, rfl⟩
  rw [origin] at followed
  rw [Disk.target, Disk.target, here, followed]

/-- What a path leads to is told by where it leads and what is there. -/
theorem find_congr (followed : second.target path = first.target path)
    (same : second.tree.at? (landing first.directory path) = first.tree.at? (landing first.directory path)) :
    second.find path = first.find path := by
  rw [Disk.find, Disk.find, followed]
  cases found : first.target path with
  | error => rfl
  | ok target =>
    rw [← Disk.target_location found] at same
    cases target <;> simp only [Target.location] at same <;> simp [bind, Except.bind, same]

end Congruence

/-- Two disks, worked on from the same directory, that differ in one place at most, where neither has a directory. -/
structure SameBut (here spot : Location) (first second : Disk) : Prop where
  directory : first.directory = here
  also : second.directory = here
  works : first.tree.at? here = some .directory
  at? : ∀ location, location ≠ spot → second.tree.at? location = first.tree.at? location
  vacant : first.tree.at? spot ≠ some .directory
  vacant' : second.tree.at? spot ≠ some .directory

namespace SameBut

variable (same : SameBut here spot first second)
include same

theorem at?_directory : second.tree.at? location = some .directory ↔ first.tree.at? location = some .directory := by
  by_cases away : location = spot
  · rw [away]
    exact iff_of_false same.vacant' same.vacant
  · rw [same.at? location away]

theorem symm : SameBut here spot second first where
  directory := same.also
  also := same.directory
  works := same.at?_directory.mpr same.works
  at? location away := (same.at? location away).symm
  vacant := same.vacant'
  vacant' := same.vacant

/-- Both disks with the same new entry. -/
theorem put {parent : Location} {name : String} (away : parent ++ [name] ≠ spot) (entry : Entry) :
    SameBut here spot { first with tree := first.tree.put parent name entry }
      { second with tree := second.tree.put parent name entry } := by
  by_cases fits : first.tree.at? parent = some .directory ∧
      first.tree.at? (parent ++ [name]) ≠ some .directory ∧ IsEntryName name
  case neg =>
    have also : ¬ (second.tree.at? parent = some .directory ∧
        second.tree.at? (parent ++ [name]) ≠ some .directory ∧ IsEntryName name) := by
      rwa [same.at?_directory, same.at? _ away]
    rw [FileTree.put, FileTree.put, dif_neg fits, dif_neg also]
    exact same
  obtain ⟨directory, free, proper⟩ := fits
  have one := FileTree.at?_put first.tree parent name entry directory free proper
  have two := FileTree.at?_put second.tree parent name entry (same.at?_directory.mpr directory)
    (by rwa [same.at? _ away]) proper
  refine ⟨same.directory, same.also, ?_, fun location other => ?_, ?_, ?_⟩
  · rw [one, if_neg, same.works]
    rintro rfl
    exact free same.works
  · rw [one, two, same.at? location other]
  · rw [one, if_neg (Ne.symm away)]
    exact same.vacant
  · rw [two, if_neg (Ne.symm away)]
    exact same.vacant'

end SameBut

/-- A disk with and without a file. -/
theorem sameBut_put {disk : Disk} {parent : Location} {name : String}
    (works : disk.tree.at? disk.directory = some .directory) (directory : disk.tree.at? parent = some .directory)
    (free : disk.tree.at? (parent ++ [name]) ≠ some .directory) (proper : IsEntryName name) (content : ByteArray) :
    SameBut disk.directory (parent ++ [name]) disk
      { disk with tree := disk.tree.put parent name (.file content) } := by
  have put := FileTree.at?_put disk.tree parent name (.file content) directory free proper
  refine ⟨rfl, rfl, works, fun location away => (put location).trans (if_neg away), free, ?_⟩
  rw [put, if_pos rfl]
  simp

section Reading

variable (same : SameBut here spot first second)
include same

/-- A path that leads to something else does not lead past the place of the difference. -/
theorem SameBut.not_passes {entry : Entry} (away : location ≠ spot) (found : first.find path = .ok (location, entry)) :
    ¬ Passes here path spot := by
  rintro ⟨front, begins, arrives⟩
  obtain ⟨target, followed, _, _, ends⟩ := Disk.find_eq_ok.mp found
  rw [← same.directory] at arrives
  rcases Disk.passed (same.directory ▸ same.works) followed begins with rfl | directory
  · rw [Disk.target_location followed] at ends
    exact away (ends.symm.trans arrives.symm)
  · exact same.vacant (arrives ▸ directory)

omit same in
theorem landing_ne (past : ¬ Passes here path spot) : landing here path ≠ spot :=
  fun arrives => past (arrives ▸ passes_landing here path)

section Past

variable (past : ¬ Passes here path spot)
include past

theorem SameBut.target : second.target path = first.target path :=
  target_congr (same.also.trans same.directory.symm) fun location passes =>
    same.at? location fun arrives => past (arrives ▸ same.directory ▸ passes)

theorem SameBut.find : second.find path = first.find path :=
  find_congr (same.target past) (same.at? _ (same.directory.symm ▸ landing_ne past))

theorem SameBut.contains : second.contains path = first.contains path := by
  rw [Disk.contains, Disk.contains, same.find past]

theorem SameBut.read : second.read path = first.read path := by
  rw [Disk.read, Disk.read, same.find past]

end Past

theorem SameBut.find_iff (away : landing here path ≠ spot) {entry : Entry} :
    second.find path = .ok (location, entry) ↔ first.find path = .ok (location, entry) := by
  constructor
  · intro found
    obtain ⟨arrives, _⟩ := Disk.find_location found
    rw [same.also] at arrives
    rw [same.symm.find (same.symm.not_passes (arrives ▸ away) found), found]
  · intro found
    obtain ⟨arrives, _⟩ := Disk.find_location found
    rw [same.directory] at arrives
    rw [same.find (same.not_passes (arrives ▸ away) found), found]

theorem SameBut.isFile (away : landing here path ≠ spot) : second.isFile path = first.isFile path := by
  rw [Bool.eq_iff_iff, Disk.isFile_iff, Disk.isFile_iff]
  simp only [same.find_iff away]

theorem SameBut.isDirectory (path : Path) : second.isDirectory path = first.isDirectory path := by
  rw [Bool.eq_iff_iff, Disk.isDirectory_iff, Disk.isDirectory_iff, same.also, same.directory]
  by_cases away : landing here path = spot
  · rw [away]
    refine iff_of_false (fun found => ?_) fun found => ?_
    · exact same.vacant' (Disk.find_location found).2
    · exact same.vacant (Disk.find_location found).2
  · exact same.find_iff away

theorem SameBut.directory? (path : Path) : second.directory? path = first.directory? path := by
  have there := same.isDirectory path
  cases found : first.isDirectory path with
  | true =>
    rw [found] at there
    rw [Disk.directory?, Disk.directory?, Disk.isDirectory_iff.mp found, Disk.isDirectory_iff.mp there, same.also,
      same.directory]
  | false =>
    rw [found] at there
    simp only [Disk.isDirectory, Option.isSome_eq_false_iff, Option.isNone_iff_eq_none] at found there
    rw [found, there]

end Reading

section Changing

/-- A step on each of two disks: it fails alike, or leaves them as alike as they were. -/
inductive Keeps (here spot : Location) : Except FileError Disk → Except FileError Disk → Prop where
  | error (cause : FileError) : Keeps here spot (.error cause) (.error cause)
  | ok {one two : Disk} (same : SameBut here spot one two) : Keeps here spot (.ok one) (.ok two)

variable (same : SameBut here spot first second)
include same

variable (past : ¬ Passes here path spot)
include past

theorem SameBut.away {parent : Location} {name : String} (followed : first.target path = .ok (.entry parent name)) :
    parent ++ [name] ≠ spot := by
  have arrives : parent ++ [name] = landing first.directory path := Disk.target_location followed
  rw [arrives, same.directory]
  exact landing_ne past

theorem SameBut.write (content : ByteArray) :
    Keeps here spot (first.write path content) (second.write path content) := by
  rw [Disk.write, Disk.write, same.target past]
  cases followed : first.target path with
  | error cause => exact .error cause
  | ok target =>
    cases target with
    | directory => exact .error _
    | entry parent name =>
      have away := same.away past followed
      simp only [bind, Except.bind, same.at? _ away]
      split
      next => exact .error _
      next =>
        split
        next => exact .error _
        next => exact .ok (same.put away _)

theorem SameBut.makeDirectory : Keeps here spot (first.makeDirectory path) (second.makeDirectory path) := by
  rw [Disk.makeDirectory, Disk.makeDirectory, same.target past]
  cases followed : first.target path with
  | error cause => exact .error cause
  | ok target =>
    cases target with
    | directory => exact .error _
    | entry parent name =>
      have away := same.away past followed
      simp only [bind, Except.bind, same.at? _ away]
      split
      next => exact .error _
      next => exact .ok (same.put away _)

end Changing

section Steps

variable {ε ε' α β : Type}

/-- What steps come to on two disks: the same result, and disks as alike as they were. -/
structure Abreast (here spot : Location) (one two : Except ε α × Disk) : Prop where
  result : two.1 = one.1
  same : SameBut here spot one.2 two.2

namespace Abreast

theorem stay (same : SameBut here spot first second) (result : Except ε α) :
    Abreast here spot (result, first) (result, second) := ⟨rfl, same⟩

theorem ended {one two : Except ε α × Disk} (abreast : Abreast here spot one two) :
    ∃ result first second, one = (result, first) ∧ two = (result, second) ∧ SameBut here spot first second :=
  ⟨one.1, one.2, two.2, rfl, Prod.ext abreast.result rfl, abreast.same⟩

theorem bind {steps : OnDisk ε α} {next : α → OnDisk ε β}
    (begun : Abreast here spot (steps.on first) (steps.on second))
    (later : ∀ value one two, steps.on first = (.ok value, one) → SameBut here spot one two →
      Abreast here spot ((next value).on one) ((next value).on two)) :
    Abreast here spot ((steps >>= next).on first) ((steps >>= next).on second) := by
  obtain ⟨result, one, two, ended, ended', same⟩ := begun.ended
  rw [OnDisk.on_bind, OnDisk.on_bind, ended, ended']
  cases result with
  | error => exact .stay same _
  | ok value => exact later value one two ended same

theorem get {next : Disk → OnDisk ε β} (later : Abreast here spot ((next first).on first) ((next second).on second)) :
    Abreast here spot ((MonadState.get >>= next).on first) ((MonadState.get >>= next).on second) := by
  rw [OnDisk.on_bind, OnDisk.on_bind]
  exact later

theorem withError {steps : OnDisk ε α} (f : ε → ε') (begun : Abreast here spot (steps.on first) (steps.on second)) :
    Abreast here spot ((steps.withError f).on first) ((steps.withError f).on second) := by
  rw [OnDisk.on_withError, OnDisk.on_withError, begun.result]
  exact .stay begun.same _

theorem mapM {body : α → OnDisk ε β} {items : List α} (same : SameBut here spot first second)
    (each : ∀ item ∈ items, ∀ one two, SameBut here spot one two →
      Abreast here spot ((body item).on one) ((body item).on two)) :
    Abreast here spot ((items.mapM body).on first) ((items.mapM body).on second) := by
  induction items generalizing first second with
  | nil => exact .stay same _
  | cons item rest ih =>
    rw [List.mapM_cons]
    refine .bind (each item List.mem_cons_self first second same) fun _ one two _ same => ?_
    refine .bind (ih same fun item member => each item (List.mem_cons_of_mem _ member)) fun _ one two _ same => ?_
    exact .stay same _

theorem look {f : Disk → Except FileError α} (same : SameBut here spot first second) (alike : f second = f first) :
    Abreast here spot ((Files.look f).on first) ((Files.look f).on second) := by
  rw [OnDisk.on_look, OnDisk.on_look, alike]
  exact .stay same _

theorem change {step : Disk → Except FileError Disk} (same : SameBut here spot first second)
    (keeps : Keeps here spot (step first) (step second)) :
    Abreast here spot ((Files.change step).on first) ((Files.change step).on second) := by
  rw [OnDisk.on_change, OnDisk.on_change]
  generalize step first = one at keeps
  generalize step second = two at keeps
  cases keeps with
  | error => exact .stay same _
  | ok same => exact .stay same _

end Abreast

variable (same : SameBut here spot first second)
include same

theorem writeFile_abreast (past : ¬ Passes here path spot) (content : ByteArray) :
    Abreast here spot ((writeFile path content).on first) ((writeFile path content).on second) :=
  .change same (same.write past content)

theorem copyFile_abreast {source destination : Path} (read : ¬ Passes here source spot)
    (past : ¬ Passes here destination spot) :
    Abreast here spot ((copyFile source destination).on first) ((copyFile source destination).on second) := by
  refine .bind (.look same (same.read read)) fun _ _ _ _ same => ?_
  refine .bind (writeFile_abreast same past .empty) fun _ _ _ _ same => ?_
  exact .bind (.look same (same.read read)) fun content _ _ _ same => writeFile_abreast same past content

theorem makeDirectoriesOf_abreast {paths : List Path}
    (past : ∀ path ∈ paths, path.isEmpty = false → ¬ Passes here path spot) :
    Abreast here spot ((makeDirectoriesOf paths).on first) ((makeDirectoriesOf paths).on second) := by
  induction paths generalizing first second with
  | nil => exact .stay same _
  | cons path parents ih =>
    obtain ⟨clear, others⟩ := List.forall_mem_cons.mp past
    rw [on_makeDirectoriesOf, on_makeDirectoriesOf]
    split
    next => exact .stay same _
    next full =>
      have past := clear (by simpa using full)
      have made := same.makeDirectory past
      generalize first.makeDirectory path = one at made
      generalize second.makeDirectory path = two at made
      cases made with
      | ok same => exact .stay same _
      | error cause =>
        cases cause
        case notFound =>
          obtain ⟨result, one, two, ended, ended', same⟩ := (ih same others).ended
          rw [ended, ended']
          cases result with
          | error => exact .stay same _
          | ok =>
            have again := same.makeDirectory past
            dsimp only
            generalize one.makeDirectory path = last at again
            generalize two.makeDirectory path = final at again
            cases again with
            | ok same => exact .stay same _
            | error cause =>
              dsimp only
              rw [same.isDirectory]
              exact .stay same _
        all_goals
          dsimp only
          rw [same.isDirectory]
          exact .stay same _

/-- Making directories is the same on both disks, where no way leads past the place of the difference. -/
theorem makeDirectories_abreast (past : ¬ Passes here path spot) :
    Abreast here spot ((makeDirectories path).on first) ((makeDirectories path).on second) :=
  makeDirectoriesOf_abreast same fun first member nonempty passes =>
    past (passes.of_leads (Path.ancestorsWithin_lead _ _ first member) nonempty)

end Steps

end Pagewright.Files
