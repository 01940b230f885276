import Pagewright.Proofs.Site.Deposit

/-! A route on two disks. Where they offer a route the same in the places of its documents, and one has at most
more directories on its way, the route has the same result on both and does the same to each location. -/

namespace Pagewright.Site

open Files Expansion
open Markup (Documents)

variable {first second : Disk} {tree other : FileTree} {root : Path} {here location : Location}
variable {names : List String} {route : Route}

section Deposits

/-- What a route can do to what is at a location. -/
inductive Deposits (here : Location) (names : List String) (location : Location) :
    (Option Entry → Option Entry) → Prop where
  | nothing : Deposits here names location fun entry => entry
  | directory (within : location <+: here ++ names) :
      Deposits here names location fun entry => entry.or (some .directory)
  | document (placed : IsDocument here names location) (content : ByteArray) :
      Deposits here names location fun _ => some (.file content)

theorem IsDocument.not_prefix (placed : IsDocument here names location) : ¬ location <+: here ++ names := by
  obtain ⟨name, _, rfl⟩ := placed
  exact fun within => absurd within.length_le (by simp)

variable {effect next : Option Entry → Option Entry}

theorem Deposits.trans (before : Deposits here names location effect) (later : Deposits here names location next) :
    Deposits here names location fun entry => next (effect entry) := by
  cases later with
  | nothing => exact before
  | document placed content => exact .document placed content
  | directory within =>
    cases before with
    | nothing => exact .directory within
    | document placed => exact absurd within placed.not_prefix
    | directory => simpa [Option.or_assoc] using Deposits.directory within

theorem deposits_fill : Deposits here names location (fill (here ++ names) location) := by
  unfold fill
  by_cases within : location <+: here ++ names
  · simp only [if_pos within]
    exact .directory within
  · simp only [if_neg within]
    exact .nothing

theorem deposits_place {name : String} (document : name ∈ [markupName, stylesName]) {content : ByteArray} :
    Deposits here names location (place (here ++ names ++ [name]) content location) := by
  unfold place
  by_cases same : location = here ++ names ++ [name]
  · simp only [if_pos same]
    exact .document ⟨name, document, same⟩ content
  · simp only [if_neg same]
    exact .nothing

end Deposits

section Alike

/-- Where nothing but directories stands below a directory, nothing is in the way. -/
theorem obstacle?_of_vacant
    (vacant : ∀ front, front ≠ [] → front <+: names → ∀ content, tree.at? (here ++ front) ≠ some (.file content)) :
    obstacle? tree here names = none := by
  induction names generalizing here with
  | nil => rfl
  | cons name rest ih =>
    have first := vacant [name] (by simp) (by simp)
    rw [obstacle?]
    split
    next =>
      refine ih fun front nonempty begins content => ?_
      rw [← List.append_cons]
      exact vacant (name :: front) (by simp) (by simpa using begins) content
    next content found => exact absurd found (first content)
    next => rfl

/-- More directories on a way leave in the way what is. -/
theorem obstacle?_congr
    (same : ∀ front, front ≠ [] → front <+: names →
      Change True False (tree.at? (here ++ front)) (other.at? (here ++ front))) :
    obstacle? other here names = obstacle? tree here names := by
  induction names generalizing here with
  | nil => rfl
  | cons name rest ih =>
    have change := same [name] (by simp) (by simp)
    have further (front : List String) (nonempty : front ≠ []) (begins : front <+: rest) :
        Change True False (tree.at? (here ++ [name] ++ front))
          (other.at? (here ++ [name] ++ front)) := by
      rw [← List.append_cons]
      exact same (name :: front) (by simp) (by simpa using begins)
    rw [obstacle?, obstacle?]
    generalize old : tree.at? (here ++ [name]) = before at change
    generalize other.at? (here ++ [name]) = now at change
    cases change with
    | file allowed => exact allowed.elim
    | same =>
      cases before with
      | none => rfl
      | some entry =>
        cases entry with
        | file => rfl
        | directory => exact ih further
    | directory =>
      refine obstacle?_of_vacant fun front nonempty begins content => ?_
      have missing : tree.at? (here ++ [name] ++ front) = none := by
        by_contra present
        have directory := FileTree.isDirectory_of_below nonempty (Option.isSome_iff_ne_none.mpr present)
        rw [old] at directory
        cases directory
      have change := further front nonempty begins
      rw [missing] at change
      generalize other.at? (here ++ [name] ++ front) = now at change
      cases change with
      | same => simp
      | directory => simp
      | file allowed => exact allowed.elim

/-- A second disk that offers a route what the first one does: the same in the places of its documents, and
perhaps more directories on its way. -/
structure Alike (root : Path) (names : List String) (first second : Disk) : Prop where
  directory : second.directory = first.directory
  way : ∀ location, location <+: landing first.directory root ++ names →
    Change True False (first.tree.at? location) (second.tree.at? location)
  document : ∀ location, IsDocument (landing first.directory root) names location →
    second.tree.at? location = first.tree.at? location

namespace Alike

variable (alike : Alike root names first second)
include alike

theorem blocked? (path : Path) :
    blocked? second root path names = Site.blocked? first root path names := by
  unfold Site.blocked?
  have same : obstacle? second.tree (landing first.directory root) names =
      obstacle? first.tree (landing first.directory root) names :=
    obstacle?_congr fun front _ begins => alike.way _ ((List.prefix_append_right_inj _).mpr begins)
  rw [alike.directory, same]

/-- Once the way is made, its end is the same on both disks. -/
theorem fill_end {one two : Disk} (moves : Moves (fill (landing first.directory root ++ names)) first one)
    (also : Moves (fill (landing first.directory root ++ names)) second two) :
    two.tree.at? (landing first.directory root ++ names) = one.tree.at? (landing first.directory root ++ names) ∧
      (one.tree.at? (landing first.directory root ++ names)).isSome = true := by
  rw [moves.at?, also.at?]
  simp only [fill, if_pos List.prefix_rfl]
  have change := alike.way _ List.prefix_rfl
  generalize first.tree.at? (landing first.directory root ++ names) = old at change ⊢
  generalize second.tree.at? (landing first.directory root ++ names) = new at change ⊢
  cases change with
  | same => cases old <;> exact ⟨rfl, rfl⟩
  | directory => exact ⟨rfl, rfl⟩
  | file allowed => exact allowed.elim

end Alike

section Twin

/-- Two disks from which a path is open. -/
structure Twin (root : Path) (first second : Disk) : Prop where
  directory : second.directory = first.directory
  works : first.tree.at? first.directory = some .directory
  also : second.tree.at? second.directory = some .directory
  opens : Opens first root
  open' : Opens second root

theorem Twin.grows {directories files more others : Location → Prop} {one two : Disk} (twin : Twin root first second)
    (grows : Grows directories files first one) (along : Grows more others second two) : Twin root one two where
  directory := by rw [grows.directory, along.directory, twin.directory]
  works := grows.directory ▸ grows.isDirectory twin.works
  also := along.directory ▸ along.isDirectory twin.also
  opens := twin.opens.grows grows
  open' := twin.open'.grows along

/-- A document is written or refused the same where its directory and its place are the same. -/
theorem Twin.write_cases {name : String} (twin : Twin root first second) (lands : landing first.directory root = here)
    (content : ByteArray) (proper : ∀ part ∈ names ++ [name], IsEntryName part)
    (present : (first.tree.at? (here ++ names)).isSome = true)
    (same : second.tree.at? (here ++ names) = first.tree.at? (here ++ names))
    (alike : second.tree.at? (here ++ names ++ [name]) = first.tree.at? (here ++ names ++ [name])) :
    (∃ cause, first.write (pathBelow root (names ++ [name])) content = .error cause ∧
        second.write (pathBelow root (names ++ [name])) content = .error cause) ∨
      ∃ one two, first.write (pathBelow root (names ++ [name])) content = .ok one ∧
        second.write (pathBelow root (names ++ [name])) content = .ok two ∧
        Moves (place (here ++ names ++ [name]) content) first one ∧
        Moves (place (here ++ names ++ [name]) content) second two := by
  subst lands
  have one := Site.write_cases content twin.works twin.opens proper present
  have two := Site.write_cases content twin.also twin.open' proper (by rw [twin.directory, same, present])
  have refused : refused? second root names name = refused? first root names name := by
    unfold refused?
    rw [twin.directory, same, alike]
  rw [refused] at two
  generalize refused? first root names name = refusal at one two
  cases refusal with
  | some cause => exact .inl ⟨cause, one, two⟩
  | none =>
    obtain ⟨marked, written, moves⟩ := one
    obtain ⟨marked', written', moves'⟩ := two
    rw [twin.directory] at moves'
    exact .inr ⟨marked, marked', written, written', moves, moves'⟩

variable {ε α : Type}

/-- The same steps of a route on two disks: their result and their effect are the same. -/
structure Along (here : Location) (names : List String) (first second : Disk) (one two : Except ε α × Disk) :
    Prop where
  result : two.1 = one.1
  effect : ∃ effect, Moves effect first one.2 ∧ Moves effect second two.2 ∧
    ∀ location, Deposits here names location (effect location)

theorem Along.stay {result : Except ε α} : Along here names first second (result, first) (result, second) :=
  ⟨rfl, _, .refl first, .refl second, fun _ => .nothing⟩

theorem Along.later {effect : Effect} {middle between : Disk} {one two : Except ε α × Disk}
    (moves : Moves effect first middle) (also : Moves effect second between)
    (deposits : ∀ location, Deposits here names location (effect location))
    (along : Along here names middle between one two) : Along here names first second one two := by
  obtain ⟨result, next, further, furtherAlso, later⟩ := along
  exact ⟨result, _, moves.trans further, also.trans furtherAlso,
    fun location => (deposits location).trans (later location)⟩

theorem writeDocuments_along (twin : Twin root first second) (lands : landing first.directory root = here)
    (proper : ∀ name ∈ route.names, IsEntryName name)
    (present : (first.tree.at? (here ++ route.names)).isSome = true)
    (same : second.tree.at? (here ++ route.names) = first.tree.at? (here ++ route.names))
    (alike : ∀ location, IsDocument here route.names location → second.tree.at? location = first.tree.at? location)
    (documents : Documents) :
    Along here route.names first second (writeDocuments first (route.output root) documents)
      (writeDocuments second (route.output root) documents) := by
  have markup : markupName ∈ [markupName, stylesName] := by simp
  have styles : stylesName ∈ [markupName, stylesName] := by simp
  unfold writeDocuments
  rw [output_join proper (isEntryName_document _ markup), output_join proper (isEntryName_document _ styles)]
  rcases twin.write_cases lands documents.html.toUTF8 (isEntryName_of_document proper markup) present same
      (alike _ ⟨markupName, markup, rfl⟩) with
    ⟨cause, refused, again⟩ | ⟨one, two, written, again, moves, also⟩
  · rw [refused, again]
    exact .stay
  rw [written, again]
  refine Along.later moves also (fun _ => deposits_place markup) ?_
  have kept (location : Location) (other : location ≠ here ++ route.names ++ [markupName]) :
      one.tree.at? location = first.tree.at? location ∧ two.tree.at? location = second.tree.at? location := by
    rw [moves.at?, also.at?, place, place, if_neg other, if_neg other]
    exact ⟨rfl, rfl⟩
  obtain ⟨parent, parentAlso⟩ := kept (here ++ route.names) (by simp)
  obtain ⟨slot, slotAlso⟩ := kept (here ++ route.names ++ [stylesName]) (by simp [markupName, stylesName])
  have further := twin.grows (write_grows written) (write_grows again)
  have lands : landing one.directory root = here := by rw [moves.directory, lands]
  dsimp only
  rcases further.write_cases lands documents.css.toUTF8 (isEntryName_of_document proper styles)
      (by rw [parent, present]) (by rw [parent, parentAlso, same])
      (by rw [slot, slotAlso, alike _ ⟨stylesName, styles, rfl⟩]) with
    ⟨cause, refused, again⟩ | ⟨last, final, written, again, moves, also⟩
  · rw [refused, again]
    exact .stay
  · rw [written, again]
    exact Along.later moves also (fun _ => deposits_place styles) .stay

/-- A route has the same result on two disks that offer it the same, and the same effect. -/
theorem compileRoute_along (placeholder : Placeholder) (source : Path) (depth : Nat) (twin : Twin root first second)
    (alike : Alike root route.names first second) (proper : ∀ name ∈ route.names, IsEntryName name)
    (page : compilePage placeholder second source depth = compilePage placeholder first source depth) :
    Along (landing first.directory root) route.names first second
      ((compileRoute placeholder source (route.output root) depth).on first)
      ((compileRoute placeholder source (route.output root) depth).on second) := by
  rw [on_compileRoute, on_compileRoute, page]
  cases compilePage placeholder first source depth with
  | error error => exact .stay
  | ok documents =>
    have opened := openOutput_cases twin.works twin.opens proper
    have openedAlso := openOutput_cases twin.also twin.open' proper
    rw [alike.blocked?, twin.directory] at openedAlso
    generalize blocked? first root (route.output root) route.names = blocked at opened openedAlso
    cases blocked with
    | some cause =>
      rw [opened, openedAlso]
      exact .stay
    | none =>
      obtain ⟨one, made, moves⟩ := opened
      obtain ⟨two, again, also⟩ := openedAlso
      rw [made, again]
      refine Along.later moves also (fun _ => deposits_fill) ?_
      obtain ⟨same, present⟩ := alike.fill_end moves also
      have lands : landing one.directory root = landing first.directory root := by rw [moves.directory]
      refine writeDocuments_along (twin.grows moves.grows also.grows) lands proper present same ?_ documents
      intro location placed
      rw [moves.at?, also.at?, fill, fill, if_neg placed.not_prefix, if_neg placed.not_prefix,
        alike.document location placed]

end Twin

end Alike

end Pagewright.Site
