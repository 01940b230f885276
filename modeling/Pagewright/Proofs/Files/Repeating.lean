import Pagewright.Proofs.Files.Differing
import Pagewright.Proofs.Files.Entries
import Pagewright.Proofs.Turns

/-! Steps that are taken again on what they have led to. They only change what is inside one directory, and what they
have made there does not stand in their own way: the second time they come to the same result, and each location is
left as it was or as the first time. -/

namespace Pagewright.Files

variable {ε ε' α β ρ ρ' : Type} {root location : Location} {first second disk after : Disk} {path : Path}

/-- Below a directory. -/
def Inside (root location : Location) : Prop := root <+: location ∧ location ≠ root

instance (root location : Location) : Decidable (Inside root location) := inferInstanceAs (Decidable (_ ∧ _))

/-- A path that does not lead past anything inside a directory. -/
def Avoids (here : Location) (path : Path) (root : Location) : Prop :=
  ∀ location, Passes here path location → ¬ Inside root location

instance (here : Location) (path : Path) (root : Location) : Decidable (Avoids here path root) :=
  decidable_of_iff (∀ front ∈ path.steps.inits, ¬ Inside root (front.foldl advance (origin here path))) <| by
    simp only [Avoids, Passes, List.mem_inits, forall_exists_index, and_imp]
    exact ⟨fun past location front begins same => same ▸ past front begins,
      fun past front begins => past _ front begins rfl⟩

/-- Growth of any kind. -/
abbrev Grown : Disk → Disk → Prop := Grows (fun _ => True) (fun _ => True)

theorem Grows.grown {directories files : Location → Prop} (grows : Grows directories files disk after) :
    Grown disk after := grows.mono (fun _ _ => trivial) fun _ _ => trivial

theorem Grown.isSome (grown : Grown first second) (present : (first.tree.at? location).isSome = true) :
    (second.tree.at? location).isSome = true := by
  obtain ⟨entry, found⟩ := Option.isSome_iff_exists.mp present
  cases entry with
  | directory => rw [grown.isDirectory found]; rfl
  | file content =>
    obtain ⟨changed, there, _⟩ := grown.isFile found
    rw [there]
    rfl

section Outside

/-- Two disks that differ inside one directory at most. -/
structure SameOutside (root : Location) (first second : Disk) : Prop where
  directory : second.directory = first.directory
  at? : ∀ location, ¬ Inside root location → second.tree.at? location = first.tree.at? location

theorem sameOutside_of_grows (grows : Grows (Inside root) (Inside root) disk after) : SameOutside root disk after where
  directory := grows.directory
  at? location outside := by
    have change := grows.change location
    generalize disk.tree.at? location = before at change ⊢
    generalize after.tree.at? location = now at change ⊢
    cases change with
    | same => rfl
    | directory allowed => exact absurd allowed outside
    | file allowed => exact absurd allowed outside

variable (same : SameOutside root first second)
include same

theorem SameOutside.target (past : Avoids first.directory path root) : second.target path = first.target path :=
  target_congr same.directory fun location passes => same.at? location (past location passes)

theorem SameOutside.find (followed : second.target path = first.target path)
    (outside : ¬ Inside root (landing first.directory path)) : second.find path = first.find path :=
  find_congr followed (same.at? _ outside)

end Outside

section Again

/-- What steps come to on two disks: the same result, and each location is the same on both afterwards, or on neither
one has it been touched. -/
structure Again (first second : Disk) (one two : ρ × Disk) : Prop where
  result : two.1 = one.1
  grown : Grown second two.2
  settled : ∀ location, two.2.tree.at? location = one.2.tree.at? location ∨
    (one.2.tree.at? location = first.tree.at? location ∧ two.2.tree.at? location = second.tree.at? location)

/-- Steps that only change what is inside a directory, and that can be taken again once they have been taken. -/
structure Repeats (root : Location) (run : Disk → ρ × Disk) (first : Disk) : Prop where
  grows : Grows (Inside root) (Inside root) first (run first).2
  again : ∀ second, SameOutside root first second → Grown (run first).2 second →
    Again first second (run first) (run second)

theorem Again.stay (result : ρ) : Again first second (result, first) (result, second) :=
  ⟨rfl, .refl second, fun _ => .inr ⟨rfl, rfl⟩⟩

theorem Again.sameOutside {one two : ρ × Disk} (again : Again first second one two)
    (grows : Grows (Inside root) (Inside root) first one.2) (same : SameOutside root first second) :
    SameOutside root one.2 two.2 where
  directory := by rw [again.grown.directory, same.directory, grows.directory]
  at? location outside := by
    rcases again.settled location with settled | ⟨untouched, left⟩
    · exact settled
    · rw [untouched, left, same.at? location outside]

namespace Repeats

theorem stay (result : ρ) : Repeats root (fun disk => (result, disk)) first :=
  ⟨.refl first, fun _ _ _ => .stay result⟩

theorem andThen {run : Disk → ρ × Disk} (begun : Repeats root run first) (next : ρ → Disk → ρ' × Disk)
    (later : Repeats root (next (run first).1) (run first).2) :
    Repeats root (fun disk => next (run disk).1 (run disk).2) first where
  grows := begun.grows.trans later.grows
  again second same grown := by
    have before := begun.again second same (later.grows.grown.trans grown)
    have outside := before.sameOutside begun.grows same
    have after := later.again (run second).2 outside (grown.trans before.grown)
    rw [before.result]
    refine ⟨after.result, before.grown.trans after.grown, fun location => ?_⟩
    rcases after.settled location with settled | ⟨untouched, left⟩
    · exact .inl settled
    · rw [untouched, left]
      exact before.settled location

/-- Steps that are chosen by what lies outside the directory. -/
theorem congr {run other : Disk → ρ × Disk} (begun : Repeats root other first) (here : run first = other first)
    (alike : ∀ second, SameOutside root first second → Grown first second → run second = other second) :
    Repeats root run first where
  grows := here ▸ begun.grows
  again second same grown := by
    rw [here] at grown ⊢
    rw [alike second same (begun.grows.grown.trans grown)]
    exact begun.again second same grown

theorem forget {run : Disk → ρ × Disk} (begun : Repeats root run first) :
    Repeats root (fun disk => ((), (run disk).2)) first :=
  begun.andThen (fun _ disk => ((), disk)) (.stay ())

section Steps

variable {steps : OnDisk ε α}

theorem bind {next : α → OnDisk ε β} (begun : Repeats root steps.on first)
    (later : ∀ value one, steps.on first = (.ok value, one) → Grown first one → Repeats root (next value).on one) :
    Repeats root (steps >>= next).on first := by
  let further (result : Except ε α) (disk : Disk) : Except ε β × Disk :=
    match result with
    | .ok value => (next value).on disk
    | .error cause => (.error cause, disk)
  have whole : (steps >>= next).on = fun disk => further (steps.on disk).1 (steps.on disk).2 := by
    funext disk
    rw [OnDisk.on_bind]
    rcases steps.on disk with ⟨_ | _, _⟩ <;> rfl
  rw [whole]
  refine begun.andThen further ?_
  have grown := begun.grows.grown
  cases ended : steps.on first with
  | mk result one =>
    rw [ended] at grown
    cases result with
    | error cause => exact .stay _
    | ok value => exact later value one ended grown

theorem get {next : Disk → OnDisk ε β} (later : Repeats root (next first).on first)
    (alike : ∀ second, SameOutside root first second → Grown first second → next second = next first) :
    Repeats root (MonadState.get >>= next).on first := by
  have run (disk : Disk) : (MonadState.get >>= next).on disk = (next disk).on disk := by rw [OnDisk.on_bind]; rfl
  exact later.congr (run first) fun second same grown => by rw [run, alike second same grown]

theorem pure (value : α) : Repeats root (pure value : OnDisk ε α).on first := .stay _

theorem withError (f : ε → ε') (begun : Repeats root steps.on first) : Repeats root (steps.withError f).on first :=
  begun.andThen (fun result disk => (result.mapError f, disk)) (.stay _)

theorem look {f : Disk → Except FileError α}
    (alike : ∀ second, SameOutside root first second → Grown first second → f second = f first) :
    Repeats root (Files.look f).on first :=
  (stay (f first)).congr (OnDisk.on_look f first) fun second same grown => by
    rw [OnDisk.on_look, alike second same grown]

theorem mapM {body : α → OnDisk ε β} {items : List α}
    (each : ∀ item ∈ items, ∀ disk, Grown first disk → Repeats root (body item).on disk) :
    Repeats root (items.mapM body).on first := by
  induction items generalizing first with
  | nil => exact .stay _
  | cons item rest ih =>
    rw [List.mapM_cons]
    refine (each item List.mem_cons_self first (.refl first)).bind fun _ one _ grown => ?_
    refine .bind (ih fun item member disk later => ?_) fun _ _ _ _ => .pure _
    exact each item (List.mem_cons_of_mem _ member) disk (grown.trans later)

end Steps

/-- Steps without errors, one after another. -/
theorem run_mapM {body : α → StateM Disk β} {items : List α}
    (each : ∀ item ∈ items, ∀ disk, Grown first disk → Repeats root (body item).run disk) :
    Repeats root (items.mapM body).run first := by
  induction items generalizing first with
  | nil => exact .stay _
  | cons item rest ih =>
    have begun := each item List.mem_cons_self first (.refl first)
    have later : Repeats root (rest.mapM body).run ((body item).run first).2 := ih fun item member disk later =>
      each item (List.mem_cons_of_mem _ member) disk (begun.grows.grown.trans later)
    have whole : ((item :: rest).mapM body).run = fun disk =>
        (((body item).run disk).1 :: ((rest.mapM body).run ((body item).run disk).2).1,
          ((rest.mapM body).run ((body item).run disk).2).2) := by
      funext disk
      exact run_mapM_cons body item rest disk
    rw [whole]
    refine begun.andThen (fun value disk => (value :: ((rest.mapM body).run disk).1, ((rest.mapM body).run disk).2)) ?_
    exact later.andThen (fun values disk => (_ :: values, disk)) (.stay _)

end Repeats

/-- Taken on what they have led to, the steps lead to it again. -/
theorem Repeats.eq {run : Disk → ρ × Disk} (repeats : Repeats root run first) : run (run first).2 = run first := by
  have again := repeats.again (run first).2 (sameOutside_of_grows repeats.grows) (.refl _)
  have trees : (run (run first).2).2.tree = (run first).2.tree := FileTree.ext_at? fun location =>
    (again.settled location).elim id And.right
  have places := again.grown.directory
  refine Prod.ext again.result ?_
  generalize (run (run first).2).2 = last at trees places
  generalize (run first).2 = before at trees places
  cases last
  cases before
  cases trees
  cases places
  rfl

end Again

end Pagewright.Files
