import Pagewright.Proofs.Files.Differing
import Pagewright.Proofs.Parents
import Pagewright.Proofs.Site.Making

/-! Making directories along any path that goes on by names from a directory that is there. The names are gone
through one after the other and made into directories where nothing is, up to what keeps them from going on. -/

namespace Pagewright.Site

open Files

variable {disk after : Disk} {tree other : FileTree} {path : Path} {here base location : Location}
variable {names front parts : List String} {last : String}

section Reaching

/-- How far names can be made into directories from a directory, and what keeps them from going on. -/
def reach (tree : FileTree) : Location → List String → Location × Option FileError
  | here, [] => (here, none)
  | here, name :: rest =>
    if longestName < name.utf8ByteSize then (here, some .nameTooLong)
    else
      match tree.at? (here ++ [name]) with
      | some .directory => reach tree (here ++ [name]) rest
      | some (.file _) => (here, some (if rest = [] then .alreadyExists else .notDirectory))
      | none => reach tree (here ++ [name]) rest

theorem reach_begins (tree : FileTree) (here : Location) (names : List String) :
    (reach tree here names).1 <+: here ++ names := by
  fun_induction reach tree here names with
  | case1 here => exact List.prefix_append here []
  | case2 here name rest => exact List.prefix_append here (name :: rest)
  | case3 here name rest _ _ ih => rwa [← List.append_cons] at ih
  | case4 here name rest => exact List.prefix_append here (name :: rest)
  | case5 here name rest _ _ ih => rwa [← List.append_cons] at ih

/-- Where nothing keeps the names from going on, they are gone through to their end. -/
theorem reach_end (free : (reach tree here names).2 = none) : (reach tree here names).1 = here ++ names := by
  fun_induction reach tree here names with
  | case1 here => exact (List.append_nil here).symm
  | case2 => cases free
  | case3 here name rest _ _ ih => rw [ih free, ← List.append_cons]
  | case4 => cases free
  | case5 here name rest _ _ ih => rw [ih free, ← List.append_cons]

/-- More directories on a way leave how far it goes. -/
theorem reach_congr
    (same : ∀ front, front ≠ [] → front <+: names →
      Change True False (tree.at? (here ++ front)) (other.at? (here ++ front))) :
    reach other here names = reach tree here names := by
  induction names generalizing here with
  | nil => rfl
  | cons name rest ih =>
    have change := same [name] (by simp) (by simp)
    have further : reach other (here ++ [name]) rest = reach tree (here ++ [name]) rest := by
      refine ih fun front nonempty begins => ?_
      rw [← List.append_cons]
      exact same (name :: front) (by simp) (by simpa using begins)
    rw [reach, reach, further]
    generalize tree.at? (here ++ [name]) = before at change
    generalize other.at? (here ++ [name]) = now at change
    cases change with
    | file allowed => exact allowed.elim
    | same => rfl
    | directory => rfl

/-- Below something that is missing, nothing keeps short names from going on. -/
theorem reach_of_missing (short : ∀ name ∈ names, name.utf8ByteSize ≤ longestName)
    (absent : tree.at? here = none) : (reach tree here names).2 = none := by
  induction names generalizing here with
  | nil => rfl
  | cons name rest ih =>
    obtain ⟨fits, others⟩ := List.forall_mem_cons.mp short
    have missing := at?_below_none absent [name]
    rw [reach, if_neg (Nat.not_lt.mpr fits), missing]
    exact ih others missing

/-- What keeps short names from going on is a file in a directory, and it does so as long as they stay there. -/
theorem reach_stopped {cause : FileError} (short : ∀ name ∈ names, name.utf8ByteSize ≤ longestName)
    (start : tree.at? here = some .directory) (stopped : (reach tree here names).2 = some cause)
    (directories : ∀ location, tree.at? location = some .directory → other.at? location = some .directory)
    (files : ∀ location content, tree.at? location = some (.file content) →
      ∃ changed, other.at? location = some (.file changed)) :
    reach other here names = reach tree here names ∧ tree.at? (reach tree here names).1 = some .directory := by
  induction names generalizing here with
  | nil => cases stopped
  | cons name rest ih =>
    obtain ⟨fits, others⟩ := List.forall_mem_cons.mp short
    rw [reach, if_neg (Nat.not_lt.mpr fits)] at stopped
    rw [reach, reach, if_neg (Nat.not_lt.mpr fits), if_neg (Nat.not_lt.mpr fits)]
    cases found : tree.at? (here ++ [name]) with
    | none =>
      rw [found] at stopped
      dsimp only at stopped
      rw [reach_of_missing others found] at stopped
      cases stopped
    | some entry =>
      rw [found] at stopped
      cases entry with
      | directory =>
        rw [directories _ found]
        exact ih others found stopped
      | file content =>
        obtain ⟨changed, kept⟩ := files _ _ found
        rw [kept]
        exact ⟨rfl, start⟩

end Reaching

section Following

/-- Dots on the way are nothing, as long as the way does not end in one. -/
theorem follow_filter (filled : "" ∉ parts) (undotted : parts.getLast? ≠ some ".") :
    follow tree here parts = follow tree here (parts.filter (!Path.isVoid ·)) := by
  induction parts generalizing here with
  | nil => rfl
  | cons name rest ih =>
    rw [List.mem_cons, not_or] at filled
    obtain ⟨first, filled⟩ := filled
    by_cases ending : rest = []
    · subst ending
      have named : Path.isVoid name = false := by simp_all [Path.isVoid]
      rw [List.filter_singleton, named]
      rfl
    have undotted : rest.getLast? ≠ some "." := by
      obtain ⟨next, rest, rfl⟩ := List.exists_cons_of_ne_nil ending
      rwa [List.getLast?_cons_cons] at undotted
    have further (here : Location) := @ih here filled undotted
    by_cases dot : name = "."
    · subst dot
      exact further here
    have named : Path.isVoid name = false := by simp [Path.isVoid, dot, Ne.symm first]
    rw [List.filter_cons_of_pos (by simp [named])]
    by_cases back : name = ".."
    · subst back
      exact further here.dropLast
    have more : (rest.filter (!Path.isVoid ·)).isEmpty = rest.isEmpty := by
      obtain ⟨before, final, rfl⟩ := (List.eq_nil_or_concat' rest).resolve_left ending
      have proper : Path.isVoid final = false := by simp_all [Path.isVoid]
      have filled (parts : List String) : (parts ++ [final]).isEmpty = false := by simp
      rw [List.filter_append, List.filter_singleton, proper]
      exact (filled _).trans (filled _).symm
    rw [follow_name rest dot back, follow_name _ dot back, more, further]

/-- Ways with the same steps lead to the same target, unless they end in a dot. -/
theorem follow_of_steps {others : List String} (filled : "" ∉ parts ∧ "" ∉ others)
    (undotted : parts.getLast? ≠ some "." ∧ others.getLast? ≠ some ".")
    (same : parts.filter (!Path.isVoid ·) = others.filter (!Path.isVoid ·)) :
    follow tree here parts = follow tree here others := by
  rw [follow_filter filled.1 undotted.1, follow_filter filled.2 undotted.2, same]

/-- Steps through directories are taken one by one. -/
theorem follow_along (plain : ∀ step ∈ front, Path.isVoid step = false)
    (along : ∀ first, first <+: front → tree.at? (first.foldl advance here) = some .directory) (more : names ≠ []) :
    follow tree here (front ++ names) = follow tree (front.foldl advance here) names := by
  induction front generalizing here with
  | nil => rfl
  | cons step front ih =>
    obtain ⟨named, others⟩ := List.forall_mem_cons.mp plain
    have dot : step ≠ "." := by
      rintro rfl
      cases named
    have later : follow tree (advance here step) (front ++ names) = _ := ih others fun first begins =>
      along (step :: first) (List.cons_prefix_cons.mpr ⟨rfl, begins⟩)
    rw [List.foldl_cons, ← later]
    by_cases back : step = ".."
    · subst back
      rfl
    have there := along [step] (by simp)
    rw [List.foldl_cons, List.foldl_nil, advance, if_neg back] at there
    have fits := (FileTree.isEntryName (by rw [there]; rfl)).fits
    rw [List.cons_append, follow_name _ dot back, if_neg (Nat.not_lt.mpr fits), if_neg (by simp [more]), there, advance,
      if_neg back]

/-- A way through directories can be followed to its end. -/
theorem follow_directories (filled : "" ∉ parts)
    (along : ∀ first, first <+: parts.filter (!Path.isVoid ·) →
      tree.at? (first.foldl advance here) = some .directory) :
    ∃ target, follow tree here parts = .ok target ∧ tree.at? target.location = some .directory := by
  induction parts generalizing here with
  | nil => exact ⟨.directory here, rfl, along [] List.nil_prefix⟩
  | cons name rest ih =>
    rw [List.mem_cons, not_or] at filled
    obtain ⟨first, filled⟩ := filled
    by_cases dot : name = "."
    · subst dot
      exact ih filled along
    have named : Path.isVoid name = false := by simp [Path.isVoid, dot, Ne.symm first]
    rw [List.filter_cons_of_pos (by simp [named])] at along
    have later := @ih (advance here name) filled fun first begins =>
      along (name :: first) (List.cons_prefix_cons.mpr ⟨rfl, begins⟩)
    by_cases back : name = ".."
    · subst back
      exact later
    have there := along [name] (by simp)
    rw [List.foldl_cons, List.foldl_nil] at there
    rw [advance, if_neg back] at later there
    have fits := (FileTree.isEntryName (by rw [there]; rfl)).fits
    rw [follow_name _ dot back, if_neg (Nat.not_lt.mpr fits)]
    split
    next => exact ⟨_, rfl, there⟩
    next => rwa [there]

/-- How names are followed from a directory: to the last one, up to one that is missing, or up to what keeps them
from going on. -/
inductive Followed (tree : FileTree) (here : Location) (front : List String) (last : String) :
    Except FileError Target → Prop where
  | arrives (directory : tree.at? (here ++ front) = some .directory) (fits : last.utf8ByteSize ≤ longestName)
      (same : reach tree here (front ++ [last]) = reach tree (here ++ front) [last]) :
      Followed tree here front last (.ok (.entry (here ++ front) last))
  | missing (more : front ≠ []) (absent : tree.at? (here ++ front) = none)
      (same : reach tree here (front ++ [last]) =
        match reach tree here front with
        | (stop, some cause) => (stop, some cause)
        | (stop, none) => if longestName < last.utf8ByteSize then (stop, some .nameTooLong) else (stop ++ [last], none)) :
      Followed tree here front last (.error .notFound)
  | stopped (stop : Location) {cause : FileError} (reached : reach tree here (front ++ [last]) = (stop, some cause))
      (directory : tree.at? stop = some .directory) (other : cause ≠ .notFound) :
      Followed tree here front last (.error cause)

/-- What is missing below something that is missing is made as long as the names are short enough. -/
theorem reach_missing (absent : tree.at? here = none) :
    reach tree here (front ++ [last]) =
      match reach tree here front with
      | (stop, some cause) => (stop, some cause)
      | (stop, none) => if longestName < last.utf8ByteSize then (stop, some .nameTooLong) else (stop ++ [last], none) := by
  induction front generalizing here with
  | nil =>
    simp only [List.nil_append, reach, at?_below_none absent [last]]
  | cons name front ih =>
    have nothing := at?_below_none absent [name]
    rw [List.cons_append, reach, reach, nothing]
    by_cases long : longestName < name.utf8ByteSize
    · simp only [if_pos long]
    · simp only [if_neg long]
      exact ih nothing

theorem followed (plain : ∀ name ∈ front ++ [last], name ≠ "." ∧ name ≠ "..")
    (start : tree.at? here = some .directory) :
    Followed tree here front last (follow tree here (front ++ [last])) := by
  induction front generalizing here with
  | nil =>
    obtain ⟨dot, back⟩ := plain last (by simp)
    rw [List.nil_append, follow_name _ dot back]
    split
    next long => exact .stopped here (by simp [reach, long]) start (by decide)
    next fits =>
      have arrived : Followed tree here [] last (.ok (.entry (here ++ []) last)) :=
        .arrives (by rwa [List.append_nil]) (Nat.not_lt.mp fits) (by simp)
      rwa [List.append_nil] at arrived
  | cons name front ih =>
    obtain ⟨⟨dot, back⟩, others⟩ := List.forall_mem_cons.mp plain
    rw [List.cons_append, follow_name _ dot back]
    split
    next long => exact .stopped here (by simp [reach, long]) start (by decide)
    next fits =>
      rw [if_neg (by simp)]
      split
      next found =>
        refine .missing (by simp) ?_ ?_
        · rw [List.append_cons]
          exact at?_below_none found front
        · rw [List.cons_append, reach, reach, found]
          simp only [if_neg fits]
          exact reach_missing found
      next found => exact .stopped here (by simp [reach, fits, found]) start (by decide)
      next found =>
        have step (names : List String) : reach tree here (name :: names) = reach tree (here ++ [name]) names := by
          rw [reach, if_neg fits, found]
        have later := ih others found
        generalize follow tree (here ++ [name]) (front ++ [last]) = result at later
        cases later with
        | arrives directory short same =>
          rw [← List.append_cons] at directory same ⊢
          exact .arrives directory short (by rw [List.cons_append, step, same])
        | missing more absent same =>
          rw [← List.append_cons] at absent
          exact .missing (by simp) absent (by rw [List.cons_append, step, step, same])
        | stopped stop reached directory cause => exact .stopped stop (by rw [List.cons_append, step, reached]) directory cause

end Following

section Making

/-- A path that goes on by names from a directory, which it comes to through directories. -/
structure Descends (disk : Disk) (path : Path) (base : Location) (names : List String) : Prop where
  plain : ".." ∉ names
  along : ∃ front, path.steps = front ++ names ∧ front.foldl advance (origin disk.directory path) = base ∧
    ∀ first, first <+: front → disk.tree.at? (first.foldl advance (origin disk.directory path)) = some .directory

namespace Descends

variable (descends : Descends disk path base names)
include descends

theorem directory : disk.tree.at? base = some .directory := by
  obtain ⟨front, _, rfl, there⟩ := descends.along
  exact there front List.prefix_rfl

theorem landing_eq : landing disk.directory path = base ++ names := by
  obtain ⟨front, steps, rfl, _⟩ := descends.along
  rw [landing, steps, List.foldl_append, foldl_advance descends.plain]

theorem isVoid {name : String} (member : name ∈ names) : Path.isVoid name = false := by
  obtain ⟨front, steps, _, _⟩ := descends.along
  have listed : name ∈ path.steps := steps ▸ List.mem_append_right _ member
  simpa using (List.mem_filter.mp listed).2

theorem name {name : String} (member : name ∈ names) : name ≠ "." ∧ name ≠ ".." := by
  have named := descends.isVoid member
  refine ⟨?_, fun back => descends.plain (back ▸ member)⟩
  rintro rfl
  cases named

theorem grows {directories files : Location → Prop} (grows : Grows directories files disk after) :
    Descends after path base names := by
  obtain ⟨front, steps, arrives, there⟩ := descends.along
  rw [← grows.directory] at arrives
  refine ⟨descends.plain, front, steps, arrives, fun first begins => ?_⟩
  rw [grows.directory]
  exact grows.isDirectory (there first begins)

/-- A path that has come further through directories. -/
theorem further (split : names = front ++ parts) (there : disk.tree.at? (base ++ front) = some .directory) :
    Descends disk path (base ++ front) parts := by
  subst split
  obtain ⟨before, steps, rfl, along⟩ := descends.along
  have plain := descends.plain
  rw [List.mem_append, not_or] at plain
  refine ⟨plain.2, before ++ front, by rw [steps, List.append_assoc], ?_, fun first begins => ?_⟩
  · rw [List.foldl_append, foldl_advance plain.1]
  rcases List.prefix_or_prefix_of_prefix begins (List.prefix_append before front) with inside | ⟨rest, rfl⟩
  · exact along first inside
  · have begins := (List.prefix_append_right_inj _).mp begins
    rw [List.foldl_append, foldl_advance fun back => plain.1 (begins.subset back)]
    obtain ⟨others, rfl⟩ := begins
    rw [← List.append_assoc] at there
    by_cases empty : others = []
    · rwa [empty, List.append_nil] at there
    · exact FileTree.isDirectory_of_below empty (by rw [there]; rfl)

theorem isEmpty (more : names ≠ []) : path.isEmpty = false := by
  obtain ⟨front, steps, _, _⟩ := descends.along
  by_contra empty
  have nowhere := Path.steps_of_empty (by simpa using empty)
  simp_all

/-- Only the names are left to be followed. -/
theorem follow_eq (undotted : path.Undotted) (more : names ≠ []) :
    follow disk.tree (origin disk.directory path) (path.pieces.filter (· ≠ "")) = follow disk.tree base names := by
  obtain ⟨front, steps, rfl, there⟩ := descends.along
  have plain : ∀ step ∈ front, Path.isVoid step = false := fun step member => by
    have listed : step ∈ path.steps := steps ▸ List.mem_append_left _ member
    simpa using (List.mem_filter.mp listed).2
  rw [follow_filter (by simp) undotted, Path.filter_filter_pieces, steps, follow_along plain there more]

omit descends in
/-- The path to the directory of the last name. -/
theorem parent (descends : Descends disk path base (front ++ [last])) (more : front ≠ []) :
    ∃ parent above, path.parent? = some parent ∧ parent.Above path above ∧ Descends disk parent base front := by
  obtain ⟨before, steps, arrives, along⟩ := descends.along
  rw [← List.append_assoc] at steps
  obtain ⟨parent, found, above⟩ := Path.exists_parent steps (by simp [more])
  have start : origin disk.directory parent = origin disk.directory path := by rw [origin, origin, above.start]
  exact ⟨parent, _, found, above, fun back => descends.plain (List.mem_append_left _ back), before, above.steps,
    by rw [start, arrives], by rwa [start]⟩

end Descends

/-- Why a path is not even looked at: its text cannot be passed on, or is too long. -/
def unreadable? (path : Path) : Option FileError :=
  if path.text.toList.contains '\x00' then some .nulByte
  else if longestPath < path.text.utf8ByteSize then some .nameTooLong
  else none

theorem target_of_readable (readable : unreadable? path = none) (full : path.isEmpty = false) :
    disk.target path = follow disk.tree (origin disk.directory path) (path.pieces.filter (· ≠ "")) := by
  unfold unreadable? at readable
  split at readable
  next => cases readable
  next clean =>
    split at readable
    next => cases readable
    next fits => rw [Disk.target, if_neg clean, if_neg (by simp [full]), if_neg fits, origin]

theorem Descends.isDirectory (descends : Descends disk path base []) (readable : unreadable? path = none)
    (full : path.isEmpty = false) : disk.isDirectory path = true := by
  obtain ⟨front, steps, _, along⟩ := descends.along
  rw [List.append_nil] at steps
  have filled : "" ∉ path.pieces.filter (· ≠ "") := by simp
  obtain ⟨target, followed, there⟩ := follow_directories filled (by rwa [Path.filter_filter_pieces, steps])
  exact Disk.isDirectory_of_target ((target_of_readable readable full).trans followed) there

theorem isEmpty_of_unreadable {cause : FileError} (refused : unreadable? path = some cause) : path.isEmpty = false := by
  rw [← Bool.not_eq_true]
  intro empty
  have text : path.text = "" := String.isEmpty_iff.mp empty
  rw [unreadable?, text] at refused
  cases refused

theorem target_of_unreadable {cause : FileError} (refused : unreadable? path = some cause) :
    disk.target path = .error cause := by
  have full := isEmpty_of_unreadable refused
  unfold unreadable? at refused
  rw [Disk.target]
  split at refused
  next nul =>
    cases refused
    rw [if_pos nul]
  next clean =>
    split at refused
    next long =>
      cases refused
      rw [if_neg clean, if_neg (by simp [full]), if_pos long]
    next => cases refused

theorem isDirectory_of_entry {parent : Location} {name : String}
    (followed : disk.target path = .ok (.entry parent name)) :
    disk.isDirectory path = decide (disk.tree.at? (parent ++ [name]) = some .directory) := by
  rw [Bool.eq_iff_iff, isDirectory_iff_target, followed, decide_eq_true_eq]
  simp [Target.location]

theorem makeDirectory_of_present {parent : Location} {name : String} {entry : Entry}
    (followed : disk.target path = .ok (.entry parent name)) (slot : disk.tree.at? (parent ++ [name]) = some entry) :
    disk.makeDirectory path = .error .alreadyExists := by
  simp [Disk.makeDirectory, followed, slot, bind, Except.bind]

theorem on_makeDirectories_of_unreadable {cause : FileError} (refused : unreadable? path = some cause) :
    (makeDirectories path).on disk = (.error cause, disk) := by
  refine on_makeDirectories_of_error (target_of_unreadable refused) ?_
  rintro rfl
  unfold unreadable? at refused
  split at refused
  · cases refused
  · split at refused <;> cases refused

theorem readable_of_begins {first : Path} (readable : unreadable? path = none)
    (begins : first.text.toList <+: path.text.toList) : unreadable? first = none := by
  unfold unreadable? at readable ⊢
  split at readable
  next => cases readable
  next clean =>
    split at readable
    next => cases readable
    next fits =>
      have shorter := Path.size_le_of_prefix begins
      have also : first.text.toList.contains '\x00' = false := by
        rw [← Bool.not_eq_true]
        intro nul
        exact clean (List.contains_iff_mem.mpr (begins.subset (List.contains_iff_mem.mp nul)))
      rw [if_neg (by simp only [also]; decide), if_neg (by omega)]

/-- A directory that is there is made without being touched. -/
theorem on_makeDirectories_of_isDirectory (there : disk.isDirectory path = true) :
    (makeDirectories path).on disk = (.ok ⟨⟩, disk) := by
  obtain ⟨target, followed, directory⟩ := isDirectory_iff_target.mp there
  have made : disk.makeDirectory path = .error .alreadyExists := by
    cases target with
    | directory => rw [Disk.makeDirectory, followed]; rfl
    | entry parent name => exact makeDirectory_of_present followed directory
  obtain ⟨parents, listed⟩ := Path.exists_ancestors path
  rw [makeDirectories, listed, on_makeDirectoriesOf, made]
  simp [there]

theorem on_makeDirectories_of_opens (opens : Opens disk path) : (makeDirectories path).on disk = (.ok ⟨⟩, disk) := by
  rcases opens with empty | there
  · obtain ⟨parents, listed⟩ := Path.exists_ancestors path
    rw [makeDirectories, listed, on_makeDirectoriesOf, if_pos empty]
  · exact on_makeDirectories_of_isDirectory there

/-- A series of steps without a value, for what keeps it from its end. -/
def ended : Option FileError → Except FileError Unit
  | none => .ok ⟨⟩
  | some cause => .error cause

theorem ancestorsWithin_eq (bound : Nat) (path : Path) :
    ∃ parents, Path.ancestorsWithin bound path = path :: parents ∧
      ∀ parent, path.parent? = some parent → 0 < bound → parents = Path.ancestorsWithin (bound - 1) parent := by
  cases bound with
  | zero => exact ⟨[], rfl, nofun⟩
  | succ bound =>
    rw [Path.ancestorsWithin]
    split
    next none => exact ⟨[], rfl, fun parent found => by simp [none] at found⟩
    next parent found =>
      refine ⟨_, rfl, fun other same _ => ?_⟩
      rw [found] at same
      cases same
      rfl

/-- The last directory of a path, once the others are there. -/
theorem makeDirectory_last (descends : Descends disk path base [last]) (undotted : path.Undotted)
    (readable : unreadable? path = none) (free : disk.tree.at? (base ++ [last]) = none) :
    if longestName < last.utf8ByteSize then disk.target path = .error .nameTooLong
    else ∃ after, disk.makeDirectory path = .ok after ∧ Moves (fill (base ++ [last])) disk after := by
  obtain ⟨dot, back⟩ := descends.name (List.mem_singleton_self last)
  have target : disk.target path = _ := target_of_readable readable (descends.isEmpty (by simp))
  rw [descends.follow_eq undotted (by simp), follow_name _ dot back] at target
  split
  next long => rwa [if_pos long] at target
  next fits =>
    rw [if_neg fits, if_pos List.isEmpty_nil] at target
    exact ⟨_, makeDirectory_of_entry target free, .put_directory descends.directory free (Disk.target_named target)⟩

/-- Making the directories of a path one by one, from the last one that is there. -/
theorem on_makeDirectoriesOf_ancestors {bound : Nat} (enough : names.length ≤ bound) (more : names ≠ [])
    (descends : Descends disk path base names) (undotted : path.Undotted) (readable : unreadable? path = none) :
    ∃ after, (makeDirectoriesOf (Path.ancestorsWithin bound path)).on disk =
        (ended (reach disk.tree base names).2, after) ∧ Moves (fill (reach disk.tree base names).1) disk after := by
  induction names using List.reverseRecOn generalizing path bound with
  | nil => exact absurd rfl more
  | append_singleton front last ih =>
    have full := descends.isEmpty more
    have target : disk.target path = _ := target_of_readable readable full
    rw [descends.follow_eq undotted more] at target
    obtain ⟨parents, listed, next⟩ := ancestorsWithin_eq bound path
    rw [listed]
    have cases := followed (fun _ => descends.name) descends.directory
    generalize follow disk.tree base (front ++ [last]) = result at target cases
    cases cases with
    | arrives there fits same =>
      have nowhere := isDirectory_of_entry target
      rw [on_makeDirectoriesOf, if_neg (by simp [full]), same, reach, if_neg (Nat.not_lt.mpr fits)]
      cases slot : disk.tree.at? (base ++ front ++ [last]) with
      | none =>
        rw [makeDirectory_of_entry target slot]
        exact ⟨_, rfl, .put_directory there slot (Disk.target_named target)⟩
      | some entry =>
        rw [makeDirectory_of_present target slot, nowhere, slot]
        cases entry with
        | directory => exact ⟨disk, rfl, .fill_of_present (by rw [reach, slot]; rfl)⟩
        | file content => exact ⟨disk, rfl, .fill_of_present (by rw [there]; rfl)⟩
    | missing deeper absent same =>
      obtain ⟨parent, _, found, above, higher⟩ := descends.parent deeper
      have enough : front.length + 1 ≤ bound := by simpa using enough
      have shorter : front.length ≤ bound - 1 := by omega
      obtain ⟨middle, run, moves⟩ := ih shorter deeper higher above.undotted
        (readable_of_begins readable (Path.prefix_text above.pieces))
      rw [on_makeDirectoriesOf, if_neg (by simp [full]), makeDirectory_of_error target, next parent found (by omega),
        same]
      dsimp only
      rw [run]
      rcases reached : reach disk.tree base front with ⟨stop, _ | cause⟩
      case some =>
        rw [reached] at moves
        exact ⟨middle, rfl, moves⟩
      have arrived : stop = base ++ front := by simpa [reached] using reach_end (congrArg Prod.snd reached)
      subst arrived
      rw [reached] at moves
      have there : middle.tree.at? (base ++ front) = some .directory := by
        rw [moves.at?, fill, if_pos List.prefix_rfl, absent]
        rfl
      have free : middle.tree.at? (base ++ front ++ [last]) = none := by
        rw [moves.at?, fill, if_neg fun within => absurd within.length_le (by simp)]
        exact at?_below_none absent [last]
      have later := makeDirectory_last ((descends.grows moves.grows).further rfl there) undotted readable free
      by_cases long : longestName < last.utf8ByteSize
      · rw [if_pos long] at later
        simp only [ended, if_pos long, makeDirectory_of_error later, isDirectory_of_error later]
        exact ⟨middle, rfl, moves⟩
      · rw [if_neg long] at later
        obtain ⟨after, made, further⟩ := later
        simp only [ended, if_neg long, made]
        exact ⟨after, rfl, moves.fill_concat further⟩
    | @stopped stop cause reached there other =>
      rw [reached]
      exact ⟨disk, on_makeDirectoriesOf_of_error parents full target other, .fill_of_present (by rw [there]; rfl)⟩

theorem length_steps_le (path : Path) : path.steps.length ≤ path.components.length := by
  have kept : (path.steps.filterMap Path.pieceComponent?).length = path.steps.length := by
    rw [List.length_filterMap_eq_countP, List.countP_eq_length]
    intro step member
    rw [Path.pieceComponent?_step member]
    rfl
  rw [Path.components_eq, List.length_append, kept]
  exact Nat.le_add_left _ _

/-- The directories of a path are made as far as the names can be gone through. -/
theorem on_makeDirectories_reach (descends : Descends disk path base names) (undotted : names ≠ [] → path.Undotted)
    (readable : unreadable? path = none) :
    ∃ after, (makeDirectories path).on disk = (ended (reach disk.tree base names).2, after) ∧
      Moves (fill (reach disk.tree base names).1) disk after := by
  by_cases top : names = []
  · subst top
    have here : Moves (fill (reach disk.tree base []).1) disk disk :=
      .fill_of_present (by rw [reach, descends.directory]; rfl)
    have opens : Opens disk path := or_iff_not_imp_left.mpr fun full => descends.isDirectory readable (by simpa using full)
    exact ⟨disk, on_makeDirectories_of_opens opens, here⟩
  · have enough : names.length ≤ path.components.length := by
      obtain ⟨front, steps, _⟩ := descends.along
      have taken := length_steps_le path
      rw [steps, List.length_append] at taken
      omega
    exact on_makeDirectoriesOf_ancestors enough top descends (undotted top) readable

end Making

section Grounds

/-- A path that goes back only over directories that are there. -/
def Grounded (disk : Disk) (path : Path) : Prop := ∃ base names, Descends disk path base names

/-- An open path leads past directories only. -/
theorem Opens.passed (opens : Opens disk path) (works : disk.tree.at? disk.directory = some .directory)
    (passes : Passes disk.directory path location) : disk.tree.at? location = some .directory := by
  obtain ⟨front, begins, rfl⟩ := passes
  rcases opens with empty | there
  · rw [Path.steps_of_empty empty] at begins
    have arrives : landing disk.directory path = disk.directory := landing_of_isEmpty empty
    rw [landing, Path.steps_of_empty empty] at arrives
    rw [List.prefix_nil.mp begins, arrives]
    exact works
  · obtain ⟨target, followed, directory⟩ := isDirectory_iff_target.mp there
    rcases Disk.passed works followed begins with rfl | passed
    · rwa [Disk.target_location followed] at directory
    · exact passed

theorem descends_of_isDirectory (works : disk.tree.at? disk.directory = some .directory)
    (there : disk.isDirectory path = true) : Descends disk path (landing disk.directory path) [] := by
  have opens : Opens disk path := .inr there
  exact ⟨List.not_mem_nil, path.steps, (List.append_nil _).symm, rfl, fun first begins =>
    opens.passed works ⟨first, begins, rfl⟩⟩

theorem descends_of_plain (works : disk.tree.at? disk.directory = some .directory) (plain : ".." ∉ path.steps) :
    Descends disk path (origin disk.directory path) path.steps := by
  refine ⟨plain, [], rfl, rfl, fun first begins => ?_⟩
  rw [List.prefix_nil.mp begins, List.foldl_nil, origin]
  split
  · rfl
  · exact works

theorem Opens.descends {root : Path} (opens : Opens disk root) (works : disk.tree.at? disk.directory = some .directory) :
    Descends disk root (landing disk.directory root) [] := by
  rcases opens with empty | there
  · have steps := Path.steps_of_empty empty
    have plain : ".." ∉ root.steps := by simp [steps]
    have stays := descends_of_plain works plain
    rwa [landing, steps] at *
  · exact descends_of_isDirectory works there

theorem Descends.append {onward : Path} (descends : Descends disk path base front)
    (steps : onward.steps = path.steps ++ names) (start : onward.isAbsolute = path.isAbsolute)
    (plain : ".." ∉ names) : Descends disk onward base (front ++ names) := by
  obtain ⟨before, listed, arrives, along⟩ := descends.along
  have same : origin disk.directory onward = origin disk.directory path := by rw [origin, origin, start]
  refine ⟨by simp [descends.plain, plain], before, ?_, by rw [same, arrives], by rwa [same]⟩
  rw [steps, listed, List.append_assoc]

theorem Descends.join {sub : Path} (descends : Descends disk path base names) (relative : sub.isAbsolute = false)
    (plain : ".." ∉ sub.steps) : Descends disk (path.join sub) base (names ++ sub.steps) :=
  descends.append (Path.steps_join relative) (Path.isAbsolute_join relative) plain

theorem readable_of_find {entry : Entry} (found : disk.find path = .ok (location, entry)) : unreadable? path = none := by
  cases readable : unreadable? path with
  | none => rfl
  | some cause =>
    rw [Disk.find, target_of_unreadable readable] at found
    cases found

/-- The directory that a way leads through is found alone as well. -/
theorem isDirectory_of_find_join {sub : Path} {entry : Entry} (relative : sub.isAbsolute = false)
    (full : path.isEmpty = false) (more : sub.steps ≠ [])
    (works : disk.tree.at? disk.directory = some .directory)
    (found : disk.find (path.join sub) = .ok (location, entry)) : disk.isDirectory path = true := by
  obtain ⟨target, followed, _⟩ := Disk.find_eq_ok.mp found
  have start : origin disk.directory (path.join sub) = origin disk.directory path := by
    rw [origin, origin, Path.isAbsolute_join relative]
  have along : ∀ first, first <+: path.steps →
      disk.tree.at? (first.foldl advance (origin disk.directory path)) = some .directory := fun first begins => by
    have steps : (path.join sub).steps = path.steps ++ sub.steps := Path.steps_join relative
    have further := begins.trans (List.prefix_append path.steps sub.steps)
    rcases Disk.passed works followed (steps ▸ further) with whole | passed
    · rw [whole, steps] at begins
      have longer := begins.length_le
      rw [List.length_append] at longer
      exact absurd (List.length_pos_iff.mpr more) (by omega)
    · rwa [start] at passed
  have stays : Descends disk path (landing disk.directory path) [] :=
    ⟨List.not_mem_nil, path.steps, (List.append_nil _).symm, rfl, along⟩
  exact stays.isDirectory (readable_of_begins (readable_of_find found) (Path.prefix_join relative)) full

end Grounds

section Below

variable {root : Path}

/-- Short names can be made into directories as far as nothing stands in their way. -/
theorem reach_eq_obstacle? (short : ∀ name ∈ names, name.utf8ByteSize ≤ longestName)
    (start : tree.at? here = some .directory) (absent : tree.at? (here ++ names) = none) :
    (reach tree here names).2 = obstacle? tree here names ∧
      (obstacle? tree here names ≠ none → tree.at? (reach tree here names).1 = some .directory) := by
  induction names generalizing here with
  | nil =>
    rw [List.append_nil, start] at absent
    cases absent
  | cons name rest ih =>
    obtain ⟨fits, others⟩ := List.forall_mem_cons.mp short
    rw [List.append_cons] at absent
    rw [reach, obstacle?, if_neg (Nat.not_lt.mpr fits)]
    cases found : tree.at? (here ++ [name]) with
    | none =>
      simp [reach_of_missing others found]
    | some entry =>
      cases entry with
      | directory => exact ih others found absent
      | file content =>
        have more : rest ≠ [] := by
          rintro rfl
          rw [List.append_nil, found] at absent
          cases absent
        simp [more, start]

theorem undotted_pathBelow (root : Path) (proper : ∀ name ∈ names, IsEntryName name) (more : names ≠ []) :
    (pathBelow root names).Undotted := by
  obtain ⟨front, last, rfl⟩ := (List.eq_nil_or_concat' names).resolve_left more
  rw [Path.Undotted, filter_pieces_pathBelow proper, ← List.append_assoc, List.getLast?_concat]
  exact fun same => (proper last (by simp)).ne_dot (Option.some.inj same)

variable (works : disk.tree.at? disk.directory = some .directory) (opens : Opens disk root)
variable (proper : ∀ name ∈ names, IsEntryName name)
include works opens proper

theorem readable_pathBelow (fits : (pathBelow root names).text.utf8ByteSize ≤ longestPath) :
    unreadable? (pathBelow root names) = none := by
  have clean := (opens.follows works).1
  rw [unreadable?, if_neg (by simpa [mem_nul_pathBelow proper] using clean), if_neg (Nat.not_lt.mpr fits)]

theorem descends_pathBelow : Descends disk (pathBelow root names) (landing disk.directory root) names :=
  (opens.descends works).append (steps_pathBelow proper) (isAbsolute_pathBelow proper)
    fun back => (proper ".." back).ne_dots rfl

/-- A directory that is not there, below an open path: it is made with all its parents, or nothing is. -/
theorem on_makeDirectories_pathBelow (fits : (pathBelow root names).text.utf8ByteSize ≤ longestPath)
    (absent : disk.tree.at? (landing disk.directory root ++ names) = none) :
    match obstacle? disk.tree (landing disk.directory root) names with
    | some cause => (makeDirectories (pathBelow root names)).on disk = (.error cause, disk)
    | none => ∃ after, (makeDirectories (pathBelow root names)).on disk = (.ok ⟨⟩, after) ∧
        Moves (fill (landing disk.directory root ++ names)) disk after := by
  obtain ⟨after, made, moves⟩ := on_makeDirectories_reach (descends_pathBelow works opens proper)
    (undotted_pathBelow root proper) (readable_pathBelow works opens proper fits)
  obtain ⟨same, stays⟩ := reach_eq_obstacle? (fun name member => (proper name member).fits)
    (opens.follows works).2.1 absent
  rw [same] at made
  cases obstacle : obstacle? disk.tree (landing disk.directory root) names with
  | some cause =>
    rw [obstacle] at made stays
    have still : after = disk := moves.fill_still (by rw [stays nofun]; rfl)
    rwa [still] at made
  | none =>
    rw [obstacle] at made same
    rw [reach_end same] at moves
    exact ⟨after, made, moves⟩

end Below

end Pagewright.Site
