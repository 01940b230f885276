import Pagewright.Proofs.Path
import Pagewright.Watch

/-! What is told of changes to files. A change is told by its kind and by the name that its path ends in, and the
first change of which something is told is sent, whatever came before it and whenever. -/

namespace Pagewright

namespace Path

variable {path : Path} {name ext : String}

section Extension

theorem extension?_of_plain (named : path.fileName? = some name) (plain : '.' ∉ name.toList) :
    path.extension? = none := by
  have whole : (name.toList.reverse ++ []).takeWhile (· ≠ '.') = name.toList.reverse := by
    rw [List.takeWhile_append_of_pos, List.takeWhile_nil, List.append_nil]
    intro c member
    have other : c ≠ '.' := fun same => plain (same ▸ List.mem_reverse.mp member)
    simpa using other
  rw [List.append_nil] at whole
  simp only [extension?, named, Option.bind_eq_bind, Option.bind_some, whole, List.drop_length, List.drop_nil,
    List.isEmpty_nil, if_true]

theorem extension?_of_dotted (named : path.fileName? = some name) {before after : List Char}
    (parted : name.toList = before ++ '.' :: after) (plain : '.' ∉ after) :
    path.extension? = if before.isEmpty then none else some (String.ofList after) := by
  have reversed : name.toList.reverse = after.reverse ++ '.' :: before.reverse := by simp [parted]
  have kept : (after.reverse ++ '.' :: before.reverse).takeWhile (· ≠ '.') = after.reverse := by
    rw [List.takeWhile_append_of_pos, List.takeWhile_cons_of_neg (by simp), List.append_nil]
    intro c member
    have other : c ≠ '.' := fun same => plain (same ▸ List.mem_reverse.mp member)
    simpa using other
  rw [extension?, named]
  simp only [Option.bind_eq_bind, Option.bind_some, reversed, kept, List.drop_left, List.drop_one, List.tail_cons,
    List.isEmpty_reverse, List.reverse_reverse]

/-- An extension is what stands behind the last dot of a name, where that dot does not lead the name. -/
theorem extension?_eq_some : path.extension? = some ext ↔
    ∃ stem, path.fileName? = some (stem ++ "." ++ ext) ∧ stem ≠ "" ∧ '.' ∉ ext.toList := by
  constructor
  · intro found
    obtain ⟨name, named, _⟩ := Option.bind_eq_some_iff.mp found
    by_cases dotted : '.' ∈ name.toList
    · obtain ⟨after, before, parted, plain⟩ := List.eq_append_cons_of_mem (List.mem_reverse.mpr dotted)
      have parted : name.toList = before.reverse ++ '.' :: after.reverse := by
        rw [← List.reverse_reverse name.toList, parted]
        simp
      rw [extension?_of_dotted named parted (by simpa using plain)] at found
      split at found
      next => cases found
      next filled =>
        cases found
        refine ⟨String.ofList before.reverse, ?_, by simpa using filled, by simpa using plain⟩
        rw [named]
        exact congrArg some (String.toList_injective (by simp [parted]))
    · rw [extension?_of_plain named dotted] at found
      cases found
  · rintro ⟨stem, named, filled, plain⟩
    have parted : (stem ++ "." ++ ext).toList = stem.toList ++ '.' :: ext.toList := by simp
    rw [extension?_of_dotted named parted plain, if_neg (by simpa using filled), String.ofList_toList]

end Extension
end Path

namespace Watch

variable {kind : ChangeKind} {path : Path} {event : Event} {notice : Notice} {notices quiet rest : List Notice}

/-- What is told of a change to a path. What is created or removed is always told, and what is modified where the name
that the path ends in is that of a skeleton, or has one of five extensions. -/
inductive Tells : ChangeKind → Path → Event → Prop where
  | created (path : Path) : Tells .create path (.created path)
  | deleted (path : Path) : Tells .remove path (.deleted path)
  | skeleton {path : Path} (ends : path.steps.getLast? = some "skeleton.json") :
      Tells .modify path (.skeletonModified path)
  | asset {path : Path} {stem ext : String} (ends : path.steps.getLast? = some (stem ++ "." ++ ext))
      (filled : stem ≠ "") (shown : ext ∈ ["html", "css", "js", "json", "ico"])
      (other : stem ++ "." ++ ext ≠ "skeleton.json") :
      Tells .modify path (.assetModified path)

theorem isShown_iff : path.extension?.getD "" ∈ shownExtensions ↔
    ∃ stem ext, path.steps.getLast? = some (stem ++ "." ++ ext) ∧ stem ≠ "" ∧ ext ∈ shownExtensions := by
  have proper : ∀ ext ∈ shownExtensions, ext ≠ "" ∧ '.' ∉ ext.toList := by decide
  constructor
  · intro shown
    cases found : path.extension? with
    | none => exact absurd (found ▸ shown) (by decide)
    | some ext =>
      rw [found] at shown
      obtain ⟨stem, named, filled, _⟩ := Path.extension?_eq_some.mp found
      exact ⟨stem, ext, (Path.fileName?_eq_some.mp named).1, filled, shown⟩
  · rintro ⟨stem, ext, ends, filled, shown⟩
    obtain ⟨full, plain⟩ := proper ext shown
    have onward : stem ++ "." ++ ext ≠ ".." := by
      intro same
      have sizes := congrArg String.length same
      simp only [String.length_append] at sizes
      have first : stem.length ≠ 0 := by simpa using filled
      have last : ext.length ≠ 0 := by simpa using full
      have two : "..".length = 2 := rfl
      have one : ".".length = 1 := rfl
      omega
    have named := Path.fileName?_eq_some.mpr ⟨ends, onward⟩
    rw [Path.extension?_eq_some.mpr ⟨stem, named, filled, plain⟩]
    exact shown

theorem ends_skeleton : path.fileName? = some Site.skeletonName ↔ path.steps.getLast? = some "skeleton.json" := by
  rw [Path.fileName?_eq_some, Site.skeletonName, and_iff_left (by decide)]

theorem classify_eq_some : classify kind path = some event ↔ Tells kind path event := by
  constructor
  · intro classified
    cases kind with
    | create =>
      cases classified
      exact .created path
    | remove =>
      cases classified
      exact .deleted path
    | modify =>
      rw [classify] at classified
      split at classified
      next named =>
        cases classified
        exact .skeleton (ends_skeleton.mp named)
      next other =>
        split at classified
        next shown =>
          cases classified
          obtain ⟨stem, ext, ends, filled, shown⟩ := isShown_iff.mp shown
          exact .asset ends filled shown fun same => other (ends_skeleton.mpr (same ▸ ends))
        next => cases classified
    | access | unknown => cases classified
  · intro tells
    cases tells with
    | created | deleted => rfl
    | skeleton ends => rw [classify, if_pos (ends_skeleton.mpr ends)]
    | asset ends filled shown other =>
      have plain : path.fileName? ≠ some Site.skeletonName := fun named =>
        other (Option.some.inj (ends.symm.trans (ends_skeleton.mp named)))
      rw [classify, if_neg plain, if_pos (isShown_iff.mpr ⟨_, _, ends, filled, shown⟩)]

/-- Nothing is told of a change to a path. -/
def Silent (kind : ChangeKind) (path : Path) : Prop := ∀ event, ¬ Tells kind path event

/-- Nothing is told of any path of a notice. -/
def Mute (notice : Notice) : Prop := ∀ path ∈ notice.paths, Silent notice.kind path

/-- The event of the first path of which something is told, notices in order and the paths of each of them in order. -/
inductive First : List Notice → Event → Prop where
  | here {notice : Notice} {before after : List Path} {path : Path} {event : Event}
      (listed : notice.paths = before ++ path :: after) (silent : ∀ earlier ∈ before, Silent notice.kind earlier)
      (tells : Tells notice.kind path event) (rest : List Notice) : First (notice :: rest) event
  | later {notice : Notice} {rest : List Notice} {event : Event} (mute : Mute notice) (first : First rest event) :
      First (notice :: rest) event

theorem classify_eq_none : classify kind path = none ↔ Silent kind path := by
  simp only [Silent, Option.eq_none_iff_forall_ne_some, Ne, classify_eq_some]

/-- The events of one notice. -/
def told (notice : Notice) : List Event := notice.paths.filterMap (classify notice.kind)

theorem told_eq_nil : told notice = [] ↔ Mute notice := by
  simp only [told, List.filterMap_eq_nil_iff, classify_eq_none, Mute]

theorem head?_told : (told notice).head? = some event ↔ ∃ before path after, notice.paths = before ++ path :: after ∧
    (∀ earlier ∈ before, Silent notice.kind earlier) ∧ Tells notice.kind path event := by
  rw [told, List.head?_eq_some_iff]
  simp only [List.filterMap_eq_cons_iff, classify_eq_none, classify_eq_some]
  constructor
  · rintro ⟨_, before, path, after, listed, silent, tells, _⟩
    exact ⟨before, path, after, listed, silent, tells⟩
  · rintro ⟨before, path, after, listed, silent, tells⟩
    exact ⟨_, before, path, after, listed, silent, tells, rfl⟩

/-- As long as nothing has been sent, a notice sends all that is told of its paths. -/
theorem eventsAfter_none_cons : eventsAfter none (notice :: rest) =
    told notice ++ eventsAfter (if (told notice).isEmpty then none else some notice.time) rest := rfl

theorem eventsAfter_none_of_mute (mute : Mute notice) : eventsAfter none (notice :: rest) = eventsAfter none rest := by
  rw [eventsAfter_none_cons, told_eq_nil.mpr mute]
  rfl

/-- What nothing is told of sends nothing and leaves the watcher as it was. -/
theorem events_append_of_mute (mute : ∀ notice ∈ quiet, Mute notice) : events (quiet ++ rest) = events rest := by
  induction quiet with
  | nil => rfl
  | cons notice quiet ih =>
    obtain ⟨first, others⟩ := List.forall_mem_cons.mp mute
    rw [List.cons_append, events, eventsAfter_none_of_mute first]
    exact ih others

theorem head?_events : (events notices).head? = some event ↔ First notices event := by
  induction notices with
  | nil => exact ⟨nofun, nofun⟩
  | cons notice rest ih =>
    rw [events]
    cases found : told notice with
    | nil =>
      have mute := told_eq_nil.mp found
      rw [eventsAfter_none_of_mute mute, ← events, ih]
      refine ⟨.later mute, fun first => ?_⟩
      cases first with
      | here listed silent tells =>
        have member : _ ∈ notice.paths := listed ▸ List.mem_append_right _ List.mem_cons_self
        exact absurd tells (mute _ member _)
      | later _ first => exact first
    | cons sent others =>
      have loud : ¬ Mute notice := fun mute => by simp [told_eq_nil.mpr mute] at found
      rw [eventsAfter_none_cons, found, List.cons_append, List.head?_cons, ← List.head?_cons (l := others), ← found,
        head?_told]
      constructor
      · rintro ⟨before, path, after, listed, silent, tells⟩
        exact .here listed silent tells rest
      · intro first
        cases first with
        | here listed silent tells => exact ⟨_, _, _, listed, silent, tells⟩
        | later mute => exact absurd mute loud

theorem events_eq_nil : events notices = [] ↔ ∀ notice ∈ notices, Mute notice := by
  constructor
  · intro nothing
    induction notices with
    | nil => exact List.forall_mem_nil _
    | cons notice rest ih =>
      rw [events, eventsAfter_none_cons, List.append_eq_nil_iff] at nothing
      obtain ⟨none, later⟩ := nothing
      rw [none] at later
      exact List.forall_mem_cons.mpr ⟨told_eq_nil.mp none, ih later⟩
  · intro mute
    have nothing : events (notices ++ []) = events [] := events_append_of_mute mute
    rwa [List.append_nil] at nothing

/-- The first event that is sent is that of the first path of which something is told, at whatever times the notices
come. What nothing is told of is neither sent nor does it keep later events from being sent. -/
theorem first_change_sent (notices : List Notice) :
    (∀ event, (events notices).head? = some event ↔ First notices event) ∧
    (events notices = [] ↔ ∀ notice ∈ notices, Mute notice) ∧
    (∀ quiet, (∀ notice ∈ quiet, Mute notice) → events (quiet ++ notices) = events notices) ∧
    ∀ kind path event, classify kind path = some event ↔ Tells kind path event :=
  ⟨fun _ => head?_events, events_eq_nil, fun _ => events_append_of_mute, fun _ _ _ => classify_eq_some⟩

theorem first_change_sent_late :
    let ignored : List Notice :=
      [⟨.access, [⟨"build/index.html"⟩], 40⟩, ⟨.modify, [⟨"a/.css"⟩, ⟨"b.css/.."⟩, ⟨"c."⟩], 90⟩]
    let relevant : List Notice :=
      [⟨.modify, [⟨"notes.txt"⟩, ⟨"a.d/x.old.css/"⟩, ⟨"skeleton.json"⟩], 95⟩, ⟨.create, [⟨"b"⟩], 96⟩]
    (∀ notice ∈ ignored, Mute notice) ∧
      events (ignored ++ relevant) = [.assetModified ⟨"a.d/x.old.css/"⟩, .skeletonModified ⟨"skeleton.json"⟩] ∧
      events (ignored ++ relevant) = events relevant ∧
      First (ignored ++ relevant) (.assetModified ⟨"a.d/x.old.css/"⟩) := by
  intro ignored relevant
  have mute : ∀ notice ∈ ignored, Mute notice := by
    have each : ∀ notice ∈ ignored, ∀ path ∈ notice.paths, classify notice.kind path = none := by decide
    exact fun notice member path inside => classify_eq_none.mp (each notice member path inside)
  have sent : events (ignored ++ relevant) =
      [.assetModified ⟨"a.d/x.old.css/"⟩, .skeletonModified ⟨"skeleton.json"⟩] := by decide
  obtain ⟨first, _, _, _⟩ := first_change_sent (ignored ++ relevant)
  obtain ⟨_, _, skipped, _⟩ := first_change_sent relevant
  exact ⟨mute, sent, skipped ignored mute, (first _).mp (by rw [sent]; rfl)⟩

end Watch
end Pagewright
