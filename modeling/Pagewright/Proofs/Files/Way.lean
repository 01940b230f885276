import Mathlib.Data.List.Infix
import Pagewright.Files.Disk
import Pagewright.Proofs.Path

/-! Where paths lead. Without links this is seen from the path alone; what is there only decides whether
one gets there, and a way stays open as long as directories stay directories. -/

namespace Pagewright.Files

variable {tree other : FileTree} {here : Location} {path : Path}

section Landing

/-- One step further. There are no links, so two dots lead back. -/
def advance (here : Location) (step : String) : Location :=
  if step = ".." then here.dropLast else here ++ [step]

/-- Where a path starts that is followed from a directory. -/
def origin (here : Location) (path : Path) : Location := if path.isAbsolute then [] else here

/-- Where a path leads, whatever is there. -/
def landing (here : Location) (path : Path) : Location := path.steps.foldl advance (origin here path)

/-- What a path leads past, its end included. -/
def Passes (here : Location) (path : Path) (location : Location) : Prop :=
  ∃ front, front <+: path.steps ∧ location = front.foldl advance (origin here path)

instance (here : Location) (path : Path) (location : Location) : Decidable (Passes here path location) :=
  decidable_of_iff (∃ front ∈ path.steps.inits, location = front.foldl advance (origin here path)) <| by
    simp only [Passes, List.mem_inits]

theorem passes_landing (here : Location) (path : Path) : Passes here path (landing here path) :=
  ⟨path.steps, List.prefix_rfl, rfl⟩

theorem Passes.of_leads {first : Path} (leads : first.Leads path) (nonempty : first.isEmpty = false)
    {location : Location} (passes : Passes here first location) : Passes here path location := by
  obtain ⟨front, begins, rfl⟩ := passes
  rcases leads.start with empty | same
  · cases nonempty.symm.trans empty
  · exact ⟨front, begins.trans leads.steps, by rw [origin, origin, same]⟩

theorem foldl_advance {names : List String} (plain : ".." ∉ names) (here : Location) :
    names.foldl advance here = here ++ names := by
  induction names generalizing here with
  | nil => simp
  | cons name names ih =>
    rw [List.mem_cons, not_or] at plain
    rw [List.foldl_cons, ih plain.2, advance, if_neg (Ne.symm plain.1), List.append_assoc]
    rfl

theorem landing_join {base : Path} (relative : path.isAbsolute = false) :
    landing here (base.join path) = path.steps.foldl advance (landing here base) := by
  rw [landing, landing, origin, origin, Path.steps_join relative, Path.isAbsolute_join relative, List.foldl_append]

theorem Passes.of_join {base : Path} (relative : path.isAbsolute = false) {location : Location}
    (passes : Passes here (base.join path) location) :
    Passes here base location ∨
      ∃ front, front <+: path.steps ∧ location = front.foldl advance (landing here base) := by
  obtain ⟨front, begins, rfl⟩ := passes
  rw [Path.steps_join relative] at begins
  have start : origin here (base.join path) = origin here base := by
    rw [origin, origin, Path.isAbsolute_join relative]
  rw [start]
  rcases List.prefix_or_prefix_of_prefix begins (List.prefix_append base.steps path.steps) with
    inside | ⟨rest, rfl⟩
  · exact .inl ⟨front, inside, rfl⟩
  · refine .inr ⟨rest, (List.prefix_append_right_inj _).mp begins, ?_⟩
    rw [List.foldl_append, landing]

end Landing

section Following

theorem at?_dropLast {location : Location} (directory : tree.at? location = some .directory) :
    tree.at? location.dropLast = some .directory := by
  rcases List.eq_nil_or_concat' location with rfl | ⟨front, name, rfl⟩
  · exact directory
  · rw [List.dropLast_concat]
    exact tree.closed front name (Option.isSome_iff_exists.mpr ⟨_, directory⟩)

/-- Where a target is. -/
def Target.location : Target → Location
  | .directory location => location
  | .entry parent name => parent ++ [name]

/-- The directory that a target is, or is looked for in. -/
def Target.within : Target → Location
  | .directory location => location
  | .entry parent _ => parent

/-- The way along names to a target: all names but the last are directories. -/
inductive Follows (tree : FileTree) : Location → List String → Target → Prop where
  | done (here : Location) : Follows tree here [] (.directory here)
  | stay {here : Location} {rest : List String} {target : Target} (further : Follows tree here rest target) :
      Follows tree here ("." :: rest) target
  | back {here : Location} {rest : List String} {target : Target}
      (further : Follows tree here.dropLast rest target) : Follows tree here (".." :: rest) target
  | last {here : Location} {name : String} (plain : name ≠ ".") (onward : name ≠ "..")
      (fits : name.utf8ByteSize ≤ longestName) : Follows tree here [name] (.entry here name)
  | into {here : Location} {name : String} {rest : List String} {target : Target} (plain : name ≠ ".")
      (onward : name ≠ "..") (fits : name.utf8ByteSize ≤ longestName) (more : rest ≠ [])
      (directory : tree.at? (here ++ [name]) = some .directory)
      (further : Follows tree (here ++ [name]) rest target) : Follows tree here (name :: rest) target

theorem follow_name {name : String} (rest : List String) (plain : name ≠ ".") (onward : name ≠ "..") :
    follow tree here (name :: rest) =
      if longestName < name.utf8ByteSize then .error .nameTooLong
      else if rest.isEmpty then .ok (.entry here name)
      else
        match tree.at? (here ++ [name]) with
        | none => .error .notFound
        | some (.file _) => .error .notDirectory
        | some .directory => follow tree (here ++ [name]) rest := by
  rw [follow.eq_def]
  split
  next same => cases same
  next same => exact absurd (List.cons.inj same).1 plain
  next same => exact absurd (List.cons.inj same).1 onward
  next same =>
    cases same
    rfl

theorem follows_of_follow {names : List String} {target : Target}
    (followed : follow tree here names = .ok target) :
    Follows tree here names target := by
  induction names generalizing here with
  | nil =>
    cases followed
    exact .done here
  | cons name rest ih =>
    by_cases plain : name = "."
    · subst plain
      exact .stay (ih followed)
    by_cases onward : name = ".."
    · subst onward
      exact .back (ih followed)
    rw [follow_name rest plain onward] at followed
    split at followed
    next => cases followed
    next fits =>
      split at followed
      next ending =>
        cases followed
        cases List.isEmpty_iff.mp ending
        exact .last plain onward (Nat.not_lt.mp fits)
      next more =>
        split at followed
        next => cases followed
        next => cases followed
        next found => exact .into plain onward (Nat.not_lt.mp fits) (by simpa using more) found (ih followed)

namespace Follows

variable {names : List String} {target : Target}

theorem follow_eq (follows : Follows tree here names target) : follow tree here names = .ok target := by
  induction follows with
  | done => rfl
  | stay _ ih => exact ih
  | back _ ih => exact ih
  | last plain onward fits =>
    rw [follow_name _ plain onward, if_neg (Nat.not_lt.mpr fits), if_pos List.isEmpty_nil]
  | into plain onward fits more directory _ ih =>
    rw [follow_name _ plain onward, if_neg (Nat.not_lt.mpr fits), if_neg (by simpa using more), directory]
    exact ih

theorem location_eq (follows : Follows tree here names target) (filled : "" ∉ names) :
    target.location = (names.filter (!Path.isVoid ·)).foldl advance here := by
  induction follows with
  | done => rfl
  | stay _ ih => exact ih fun member => filled (List.mem_cons_of_mem _ member)
  | back _ ih => exact ih fun member => filled (List.mem_cons_of_mem _ member)
  | @last _ name plain onward =>
    have named : Path.isVoid name = false := by simp_all [Path.isVoid]
    simp [named, advance, onward, Target.location]
  | @into _ name _ _ plain onward _ _ _ _ ih =>
    have named : Path.isVoid name = false := by simp_all [Path.isVoid]
    rw [ih fun member => filled (List.mem_cons_of_mem _ member)]
    simp [named, advance, onward]

theorem isDirectory (follows : Follows tree here names target) (directory : tree.at? here = some .directory) :
    tree.at? target.within = some .directory := by
  induction follows with
  | done => exact directory
  | stay _ ih => exact ih directory
  | back _ ih => exact ih (at?_dropLast directory)
  | last => exact directory
  | into _ _ _ _ found _ ih => exact ih found

/-- The last name on a way can be the name of an entry, as far as its length and dots go. -/
theorem last_name {parent : Location} {name : String} (follows : Follows tree here names target)
    (ends : target = .entry parent name) :
    name ∈ names ∧ name ≠ "." ∧ name ≠ ".." ∧ name.utf8ByteSize ≤ longestName := by
  induction follows with
  | done => cases ends
  | stay _ ih | back _ ih | into _ _ _ _ _ _ ih => exact (ih ends).imp_left (List.mem_cons_of_mem _)
  | last plain onward fits =>
    cases ends
    exact ⟨List.mem_cons_self, plain, onward, fits⟩

/-- A way stays open while directories stay directories. -/
theorem mono (follows : Follows tree here names target)
    (kept : ∀ location, tree.at? location = some .directory → other.at? location = some .directory) :
    Follows other here names target := by
  induction follows with
  | done => exact .done _
  | stay _ ih => exact .stay ih
  | back _ ih => exact .back ih
  | last plain onward fits => exact .last plain onward fits
  | into plain onward fits more directory _ ih => exact .into plain onward fits more (kept _ directory) ih

/-- A way is followed through its front part before the rest of it. -/
theorem split {front rest : List String} (follows : Follows tree here (front ++ rest) target)
    (more : rest ≠ []) :
    ∃ there, Follows tree there rest target ∧
      ∀ onward {arrival : Target}, onward ≠ [] → Follows tree there onward arrival →
        Follows tree here (front ++ onward) arrival := by
  induction front generalizing here with
  | nil => exact ⟨here, follows, fun _ _ _ further => further⟩
  | cons step front ih =>
    rw [List.cons_append] at follows
    generalize listed : front ++ rest = names at follows
    cases follows with
    | last => exact absurd (List.append_eq_nil_iff.mp listed).2 more
    | stay further =>
      obtain ⟨there, behind, along⟩ := ih (listed ▸ further)
      exact ⟨there, behind, fun onward _ filled arrives => .stay (along onward filled arrives)⟩
    | back further =>
      obtain ⟨there, behind, along⟩ := ih (listed ▸ further)
      exact ⟨there, behind, fun onward _ filled arrives => .back (along onward filled arrives)⟩
    | into plain proper fits _ directory further =>
      obtain ⟨there, behind, along⟩ := ih (listed ▸ further)
      exact ⟨there, behind, fun onward _ filled arrives =>
        .into plain proper fits (by simp [filled]) directory (along onward filled arrives)⟩

theorem void {dots : List String} (follows : Follows tree here dots target) (void : ∀ dot ∈ dots, dot = ".") :
    target = .directory here := by
  induction follows with
  | done => rfl
  | stay _ ih => exact ih (List.forall_mem_cons.mp void).2
  | back => exact absurd (void ".." List.mem_cons_self) (by decide)
  | last plain => exact absurd (void _ List.mem_cons_self) plain
  | into plain => exact absurd (void _ List.mem_cons_self) plain

/-- A way that dots follow behind a name leads into the directory of that name. -/
theorem name {front dots : List String} {name : String} (follows : Follows tree here (front ++ name :: dots) target)
    (named : Path.isVoid name = false) (onward : name ≠ "..") (void : ∀ dot ∈ dots, dot = ".") :
    ∃ parent, Follows tree here (front ++ [name]) (.entry parent name) ∧ name.utf8ByteSize ≤ longestName ∧
      (target = .entry parent name ∨
        target = .directory (parent ++ [name]) ∧ tree.at? (parent ++ [name]) = some .directory) := by
  obtain ⟨parent, behind, along⟩ := follows.split (by simp)
  have dot : name ≠ "." := by
    rintro rfl
    cases named
  refine ⟨parent, ?_⟩
  cases behind with
  | stay => exact absurd rfl dot
  | back => exact absurd rfl onward
  | last _ _ fits => exact ⟨along [name] (by simp) (.last dot onward fits), fits, .inl rfl⟩
  | into _ _ fits _ directory further =>
    exact ⟨along [name] (by simp) (.last dot onward fits), fits, .inr ⟨further.void void, directory⟩⟩

end Follows

namespace Disk

variable {disk after : Disk} {target : Target}

theorem target_eq_ok : disk.target path = .ok target ↔
    (path.text.toList.contains '\x00' = false ∧ path.isEmpty = false ∧ path.text.utf8ByteSize ≤ longestPath) ∧
      Follows disk.tree (origin disk.directory path) (path.pieces.filter (· ≠ "")) target := by
  unfold Disk.target
  constructor
  · intro found
    split at found
    next => cases found
    next clean =>
      split at found
      next => cases found
      next nonempty =>
        split at found
        next => cases found
        next fits =>
          exact ⟨⟨by simpa using clean, by simpa using nonempty, Nat.not_lt.mp fits⟩, follows_of_follow found⟩
  · rintro ⟨⟨clean, nonempty, fits⟩, follows⟩
    rw [if_neg (by simp only [clean]; decide), if_neg (by simp only [nonempty]; decide),
      if_neg (Nat.not_lt.mpr fits)]
    exact follows.follow_eq

theorem target_location (found : disk.target path = .ok target) :
    target.location = landing disk.directory path := by
  have follows := (target_eq_ok.mp found).2
  rw [follows.location_eq (by simp), Path.filter_filter_pieces, landing]

theorem target_named {parent : Location} {name : String} (found : disk.target path = .ok (.entry parent name)) :
    IsEntryName name := by
  obtain ⟨⟨clean, _, _⟩, follows⟩ := target_eq_ok.mp found
  obtain ⟨member, plain, onward, fits⟩ := follows.last_name rfl
  obtain ⟨piece, filled⟩ := List.mem_filter.mp member
  refine ⟨by simp_all, fits, Path.not_mem_of_pieces piece, fun inside => ?_⟩
  exact absurd (Path.mem_of_mem_pieces piece inside) (by simpa using clean)

theorem target_isDirectory (works : disk.tree.at? disk.directory = some .directory)
    (found : disk.target path = .ok target) : disk.tree.at? target.within = some .directory := by
  refine (target_eq_ok.mp found).2.isDirectory ?_
  unfold origin
  split
  · rfl
  · exact works

end Disk

end Following

end Pagewright.Files
