import Pagewright.Proofs.Editor.Saving
import Pagewright.Proofs.Site.Alike
import Pagewright.Proofs.Site.Reach
import Pagewright.Proofs.Site.Schedule
import Pagewright.Proofs.Turns

/-! Two pages that are saved one after the other. As long as neither of them lies in a directory that is called like
the file of the other one, they can change places: both requests get the same answers, and the files are the same in
the end. -/

namespace Pagewright.Editor

open Files Site
open Json (Value)

variable {disk first second after : Disk} {directory : Path} {here base way location : Location} {name : String}
variable {names steps others : List String} {value : Value} {effect next : Effect}

section Effects

/-- What saving a page does: it makes directories as far as it gets, and writes the file of the page if it gets to
the end. -/
inductive Stores (way : Location) (name : String) : Effect → Prop where
  | directories {stop : Location} (within : stop <+: way) : Stores way name (fill stop)
  | page (content : ByteArray) :
      Stores way name fun location entry => place (way ++ [name]) content location (fill way location entry)

theorem place_fill {file stop : Location} (clear : ¬ file <+: stop) (content : ByteArray) (location : Location)
    (entry : Option Entry) :
    place file content location (fill stop location entry) = fill stop location (place file content location entry) := by
  unfold place
  by_cases here : location = file
  · rw [if_pos here, if_pos here, here, fill, if_neg clear]
  · rw [if_neg here, if_neg here]

theorem fill_fill (stop other : Location) (entry : Option Entry) :
    fill stop location (fill other location entry) = fill other location (fill stop location entry) := by
  unfold fill
  split <;> split <;> simp

theorem place_place {file other : Location} (different : file ≠ other) (content contents : ByteArray)
    (entry : Option Entry) :
    place file content location (place other contents location entry) =
      place other contents location (place file content location entry) := by
  unfold place
  by_cases here : location = file
  · rw [if_pos here, if_neg (here ▸ different), if_pos here]
  · rw [if_neg here, if_neg here]

/-- What two pages do to a location does not depend on their order. -/
theorem Stores.comm {there : Location} (stores : Stores way name effect) (also : Stores there name next)
    (apart : ¬ way ++ [name] <+: there) (apart' : ¬ there ++ [name] <+: way) (different : way ≠ there)
    (entry : Option Entry) : next location (effect location entry) = effect location (next location entry) := by
  have files : way ++ [name] ≠ there ++ [name] := fun same => different (List.append_cancel_right same)
  cases stores with
  | directories within =>
    cases also with
    | directories => exact fill_fill _ _ entry
    | page content =>
      have clear := fun onward => apart' (List.IsPrefix.trans onward within)
      dsimp only
      rw [fill_fill, place_fill clear]
  | page content =>
    cases also with
    | directories within =>
      have clear := fun onward => apart (List.IsPrefix.trans onward within)
      dsimp only
      rw [fill_fill, place_fill clear]
    | page contents =>
      dsimp only
      rw [← place_fill apart, ← place_fill apart', fill_fill, place_place files]

end Effects

section Saving

theorem run_saveValue (directory : Path) (name : String) (value : Value) (disk : Disk) :
    (Reply.ofSteps (saveValue directory name value)).run disk =
      match (makeDirectories directory).on disk with
      | (.error cause, after) => (.failure (.file cause), after)
      | (.ok _, made) =>
        match made.write (directory.join ⟨name⟩) (value.print .indented).toUTF8 with
        | .error cause => (.failure (.file cause), made)
        | .ok after => (.success, after) := by
  rw [run_ofSteps, saveValue]
  simp only [OnDisk.on_bind, OnDisk.on_withError, on_writeText]
  rcases (makeDirectories directory).on disk with ⟨_ | _, made⟩
  · rfl
  · dsimp only [Except.mapError]
    cases made.write (directory.join ⟨name⟩) (value.print .indented).toUTF8 <;> rfl

/-- Growth on the way to a page and in the place of its file. -/
abbrev PageGrows (way : Location) (name : String) : Disk → Disk → Prop := Grows (· <+: way) (· = way ++ [name])

theorem pageGrows_of_reach (moves : Moves (fill (reach disk.tree base names).1) disk after) :
    PageGrows (base ++ names) name disk after :=
  moves.grows.mono (fun _ within => within.trans (reach_begins _ _ _)) fun _ => False.elim

/-- Two pages of one name, with directories that differ: neither of them lies in the place of the other one, or below
it. -/
structure Detached (way there : Location) (name : String) : Prop where
  apart : ¬ way ++ [name] <+: there
  apart' : ¬ there ++ [name] <+: way
  different : way ≠ there

theorem Detached.symm {there : Location} (detached : Detached way there name) : Detached there way name :=
  ⟨detached.apart', detached.apart, Ne.symm detached.different⟩

theorem Detached.below {there : Location} (detached : Detached way there name) (base : Location) :
    Detached (base ++ way) (base ++ there) name := by
  refine ⟨?_, ?_, fun same => detached.different (List.append_cancel_left same)⟩
  · rw [List.append_assoc, List.prefix_append_right_inj]
    exact detached.apart
  · rw [List.append_assoc, List.prefix_append_right_inj]
    exact detached.apart'

section Two

variable {there : Location} (detached : Detached way there name) (grows : PageGrows there name first second)
include detached grows

theorem Detached.change (within : location <+: way) :
    Change True False (first.tree.at? location) (second.tree.at? location) :=
  (grows.change location).mono (fun _ => trivial) fun same => detached.apart' (same ▸ within)

theorem Detached.slot : second.tree.at? (way ++ [name]) = first.tree.at? (way ++ [name]) := by
  have change := grows.change (way ++ [name])
  generalize first.tree.at? (way ++ [name]) = before at change ⊢
  generalize second.tree.at? (way ++ [name]) = now at change ⊢
  cases change with
  | same => rfl
  | directory allowed => exact absurd allowed detached.apart
  | file same => exact absurd (List.append_cancel_right same) detached.different

end Two

section Twice

variable {one two : Disk}

theorem twin_of_makeDirectories (works : first.tree.at? first.directory = some .directory)
    (also : second.tree.at? second.directory = some .directory) (same : second.directory = first.directory)
    (made : (makeDirectories directory).on first = (.ok ⟨⟩, one))
    (again : (makeDirectories directory).on second = (.ok ⟨⟩, two)) : Twin directory one two := by
  have grows := makeDirectories_grows directory first
  have along := makeDirectories_grows directory second
  rw [made] at grows
  rw [again] at along
  exact {
    directory := by rw [along.directory, grows.directory, same]
    works := grows.directory ▸ grows.isDirectory works
    also := along.directory ▸ along.isDirectory also
    opens := opens_of_makeDirectories works made
    open' := opens_of_makeDirectories also again }

/-- A page is written or refused the same where the directories are there and its place is the same. -/
theorem write_page (twin : Twin directory one two) (lands : landing one.directory directory = way)
    (named : IsEntryName name) (slot : two.tree.at? (way ++ [name]) = one.tree.at? (way ++ [name]))
    (content : ByteArray) :
    (∃ cause, one.write (directory.join ⟨name⟩) content = .error cause ∧
        two.write (directory.join ⟨name⟩) content = .error cause) ∨
      ∃ last final, one.write (directory.join ⟨name⟩) content = .ok last ∧
        two.write (directory.join ⟨name⟩) content = .ok final ∧
        Moves (place (way ++ [name]) content) one last ∧ Moves (place (way ++ [name]) content) two final ∧
        PageGrows way name one last := by
  have there := (twin.opens.follows twin.works).2.1
  have also := (twin.open'.follows twin.also).2.1
  rw [twin.directory] at also
  rw [lands] at there also
  have proper : ∀ part ∈ [] ++ [name], IsEntryName part := by simpa using named
  have cases := twin.write_cases lands content proper
  simp only [List.append_nil, List.nil_append, pathBelow_cons, pathBelow_nil] at cases
  refine (cases (by rw [there]; rfl) (by rw [there, also]) slot).imp_right ?_
  rintro ⟨last, final, written, again, moves, moves'⟩
  refine ⟨last, final, written, again, moves, moves', ?_⟩
  have page : landing one.directory (directory.join ⟨name⟩) = way ++ [name] := by
    have single : ∀ part ∈ [name], IsEntryName part := by simpa using named
    rw [← lands, ← landing_pathBelow single, pathBelow_cons, pathBelow_nil]
  exact (write_grows written).mono (fun _ => False.elim) fun _ arrives => arrives.trans page

end Twice

/-- Saving a page comes to the same before and after another one: the same reply, and the same effect. -/
theorem saveValue_both (works : first.tree.at? first.directory = some .directory)
    (descends : Descends first directory base names) (undotted : names ≠ [] → directory.Undotted)
    (named : IsEntryName name) {there : Location} (detached : Detached (base ++ names) there name)
    (grows : PageGrows there name first second) :
    ∃ reply effect one two, (Reply.ofSteps (saveValue directory name value)).run first = (reply, one) ∧
      (Reply.ofSteps (saveValue directory name value)).run second = (reply, two) ∧
      Stores (base ++ names) name effect ∧ Moves effect first one ∧ Moves effect second two ∧
      PageGrows (base ++ names) name first one := by
  rw [run_saveValue, run_saveValue]
  have start := descends.directory
  cases readable : unreadable? directory with
  | some cause =>
    have still (disk : Disk) : Moves (fill []) disk disk := .fill_of_present rfl
    rw [on_makeDirectories_of_unreadable readable, on_makeDirectories_of_unreadable readable]
    exact ⟨_, _, first, second, rfl, rfl, .directories List.nil_prefix, still first, still second, .refl first⟩
  | none =>
    have also := descends.grows grows
    obtain ⟨one, made, moves⟩ := on_makeDirectories_reach descends undotted readable
    obtain ⟨two, again, moves'⟩ := on_makeDirectories_reach also undotted readable
    have same : reach second.tree base names = reach first.tree base names :=
      reach_congr fun front _ begins => detached.change grows ((List.prefix_append_right_inj _).mpr begins)
    have growth : PageGrows (base ++ names) name first one := pageGrows_of_reach moves
    have within := reach_begins first.tree base names
    rw [same] at again moves'
    rw [made, again]
    rcases reached : reach first.tree base names with ⟨stop, _ | cause⟩
    case some =>
      rw [reached] at moves moves' within
      exact ⟨_, _, one, two, rfl, rfl, .directories within, moves, moves', growth⟩
    have arrived : stop = base ++ names := by simpa [reached] using reach_end (congrArg Prod.snd reached)
    subst arrived
    rw [reached] at made again moves moves'
    have works' := grows.directory ▸ grows.isDirectory works
    have twin : Twin directory one two := twin_of_makeDirectories works works' grows.directory made again
    have lands : landing one.directory directory = base ++ names := by rw [moves.directory, descends.landing_eq]
    have beyond : ¬ base ++ names ++ [name] <+: base ++ names := fun within => absurd within.length_le (by simp)
    have slot : two.tree.at? (base ++ names ++ [name]) = one.tree.at? (base ++ names ++ [name]) := by
      rw [moves.at?, moves'.at?, fill, fill, if_neg beyond, if_neg beyond, detached.slot grows]
    rcases write_page twin lands named slot (value.print .indented).toUTF8 with
      ⟨cause, refused, refused'⟩ | ⟨last, final, written, written', wrote, wrote', further⟩
    · simp only [ended, refused, refused']
      exact ⟨_, _, one, two, rfl, rfl, .directories List.prefix_rfl, moves, moves', growth⟩
    · simp only [ended, written, written']
      exact ⟨_, _, last, final, rfl, rfl, .page _, moves.trans wrote, moves'.trans wrote', growth.trans further⟩

end Saving

section Requests

variable {config : ServerConfig} {draft : Bool} {one two request : Request} {subPath other : String} {path : Path}

/-- A request to save a page under a sub path that is taken. The directory of the page is there, or its path does not
end in a dot. -/
structure SavesPage (config : ServerConfig) (draft : Bool) (disk : Disk) (request : Request) (subPath : String) :
    Prop where
  posted : request.method = "POST"
  addressed : ∃ tail, SavesAt draft tail (pathOfTarget request.target) ∧ percentDecode tail = some subPath
  taken : ∃ directory, resolveSubPath (config.base draft) subPath = some directory ∧
    (disk.isDirectory directory = true ∨ directory.Undotted)

theorem saveSkeleton_of_resolve {base : Path} (resolved : resolveSubPath base subPath = some directory) (value : Value) :
    saveSkeleton base subPath value = Reply.ofSteps (saveValue directory skeletonName value) := by
  rw [saveSkeleton, resolved]

/-- A request to save is refused without a look at the files, or is the saving of a value. -/
theorem handle_saves {tail : String} (posted : request.method = "POST")
    (addressed : SavesAt draft tail (pathOfTarget request.target)) (decoded : percentDecode tail = some subPath)
    (resolved : resolveSubPath (config.base draft) subPath = some directory) :
    (∃ reply, handle config request = pure reply) ∨
      ∃ value, handle config request = Reply.ofSteps (saveValue directory skeletonName value) := by
  have saved (found : Option String) (same : found.getD "" = tail) :
      (∃ reply, save config draft found request = pure reply) ∨
        ∃ value, save config draft found request = Reply.ofSteps (saveValue directory skeletonName value) := by
    rw [save, same, decoded]
    dsimp only
    cases bodyValue request with
    | error reply => exact .inl ⟨reply, rfl⟩
    | ok value => exact .inr ⟨value, saveSkeleton_of_resolve resolved value⟩
  rcases addressed with ⟨alone, rfl⟩ | below
  · have served : handle config request = save config draft none request := by
      rw [handle, alone, endpointOf_saveAddress, posted]
      rfl
    rw [served]
    exact saved none rfl
  · by_cases empty : tail = ""
    · refine .inl ⟨{ status := 405 }, ?_⟩
      rw [handle, below, endpointOf_saveAddress_slash, if_pos empty, posted]
      rfl
    · have served : handle config request = save config draft (some tail) request := by
        rw [handle, below, endpointOf_saveAddress_slash, if_neg empty, posted]
        rfl
      rw [served]
      exact saved (some tail) rfl

/-- The place of a page, and the way to it from a directory that is there. -/
theorem descends_of_resolve (works : disk.tree.at? disk.directory = some .directory)
    (grounded : Grounded disk (config.base draft))
    (resolved : resolveSubPath (config.base draft) subPath = some directory)
    (ending : disk.isDirectory directory = true ∨ directory.Undotted) :
    ∃ base names, Descends disk directory base names ∧ (names ≠ [] → directory.Undotted) ∧
      base ++ names = landing disk.directory (config.base draft) ++ Path.steps ⟨subPath⟩ := by
  have arrives := landing_of_resolve resolved disk.directory
  rcases ending with there | undotted
  · exact ⟨_, [], descends_of_isDirectory works there, absurd rfl, by rw [List.append_nil, arrives]⟩
  · obtain ⟨base, names, descends⟩ := grounded
    have relative := relative_of_resolve resolved
    obtain ⟨⟨_, onward⟩, rfl⟩ := resolveSubPath_eq_some.mp resolved
    have joined := descends.join relative onward
    exact ⟨base, _, joined, fun _ => undotted, by rw [← arrives, joined.landing_eq]⟩

/-- What a request to save a page comes to on a disk and after another page has been saved. -/
theorem SavesPage.both (saves : SavesPage config draft first request subPath)
    (works : first.tree.at? first.directory = some .directory) (grounded : Grounded first (config.base draft))
    {there : Location}
    (detached : Detached (landing first.directory (config.base draft) ++ Path.steps ⟨subPath⟩) there skeletonName)
    (grows : PageGrows there skeletonName first second) :
    (∃ reply, handle config request = pure reply) ∨
      ∃ reply effect one two, (handle config request).run first = (reply, one) ∧
        (handle config request).run second = (reply, two) ∧
        Stores (landing first.directory (config.base draft) ++ Path.steps ⟨subPath⟩) skeletonName effect ∧
        Moves effect first one ∧ Moves effect second two ∧
        PageGrows (landing first.directory (config.base draft) ++ Path.steps ⟨subPath⟩) skeletonName first one := by
  obtain ⟨tail, addressed, decoded⟩ := saves.addressed
  obtain ⟨directory, resolved, ending⟩ := saves.taken
  refine (handle_saves saves.posted addressed decoded resolved).imp_right ?_
  rintro ⟨value, same⟩
  obtain ⟨base, names, descends, undotted, arrives⟩ := descends_of_resolve works grounded resolved ending
  rw [← arrives] at detached ⊢
  rw [same]
  exact saveValue_both works descends undotted (by decide) detached grows

theorem swaps_saves (works : disk.tree.at? disk.directory = some .directory)
    (grounded : Grounded disk (config.base draft)) (saves : SavesPage config draft disk one subPath)
    (also : SavesPage config draft disk two other)
    (detached : Detached (landing disk.directory (config.base draft) ++ Path.steps ⟨subPath⟩)
      (landing disk.directory (config.base draft) ++ Path.steps ⟨other⟩) skeletonName) :
    Swaps (handle config one) (handle config two) disk := by
  have still : ∀ {way}, PageGrows way skeletonName disk disk := .refl disk
  rcases saves.both works grounded detached still with ⟨reply, same⟩ | ⟨_, _, alone, _, run, _, _, _, _, growth⟩
  · rw [same]
    exact .pure_left _ _ _
  rcases also.both works grounded detached.symm still with
    ⟨reply, same⟩ | ⟨_, _, alone', _, run', _, _, _, _, growth'⟩
  · rw [same]
    exact .pure_right _ _ _
  have after : alone = ((handle config one).run disk).2 := by rw [run]
  have after' : alone' = ((handle config two).run disk).2 := by rw [run']
  rw [after] at growth
  rw [after'] at growth'
  rcases saves.both works grounded detached growth' with
    ⟨reply, same⟩ | ⟨reply, effect, first, last, took, took', stores, moves, moves', _⟩
  · rw [same]
    exact .pure_left _ _ _
  rcases also.both works grounded detached.symm growth with
    ⟨reply, same⟩ | ⟨reply', next, second, final, went, went', stores', moved, moved', _⟩
  · rw [same]
    exact .pure_right _ _ _
  refine ⟨by rw [took, took'], ?_⟩
  rw [took', went']
  rw [took] at moved'
  rw [went] at moves'
  refine (moves.trans moved').eq (moved.trans moves') fun location entry => ?_
  exact (stores.comm stores' detached.apart detached.apart' detached.different entry).symm

/-- Two requests to save pages of different names can change places, unless a page lies in a directory that is called
like the file of the other one: both get the same replies, and the files are the same in the end. -/
theorem saves_exchange (works : disk.tree.at? disk.directory = some .directory)
    (grounded : Grounded disk (config.base draft)) (saves : SavesPage config draft disk one subPath)
    (also : SavesPage config draft disk two other)
    (detached : Detached (Path.steps ⟨subPath⟩) (Path.steps ⟨other⟩) skeletonName) :
    (do let reply ← handle config one; let next ← handle config two; return (reply, next)).run disk =
      (do let next ← handle config two; let reply ← handle config one; return (reply, next)).run disk :=
  have apart := detached.below (landing disk.directory (config.base draft))
  (swaps_saves works grounded saves also apart).run_eq (swaps_saves works grounded also saves apart.symm)

/-- A request to save a list of one number. -/
def listSave (target : String) : Request := { method := "POST", target, body := some "[1]" }

theorem saves_exchange_nested :
    ((do let reply ← handle {} (listSave "/save-skeleton/a"); let next ← handle {} nestedSave
         return (reply.status, next.status)).run emptySite).1 = (200, 200) ∧
      (do let reply ← handle {} (listSave "/save-skeleton/a"); let next ← handle {} nestedSave
          return (reply, next)).run emptySite =
        (do let next ← handle {} nestedSave; let reply ← handle {} (listSave "/save-skeleton/a")
            return (reply, next)).run emptySite := by
  have works : emptySite.tree.at? emptySite.directory = some .directory := by decide +kernel
  have grounded : Grounded emptySite (ServerConfig.base {} false) :=
    ⟨_, _, descends_of_plain works (by decide)⟩
  have saves : SavesPage {} false emptySite (listSave "/save-skeleton/a") "a" :=
    ⟨rfl, ⟨"a", .inr (by decide), by decide +kernel⟩, ⟨"routes/a"⟩, by decide, .inr (by decide)⟩
  have also : SavesPage {} false emptySite nestedSave "a//./b" :=
    ⟨rfl, ⟨"a%2F%2F./b", .inr (by decide), by decide +kernel⟩, ⟨"routes/a//./b"⟩, by decide, .inr (by decide)⟩
  exact ⟨by decide +kernel, saves_exchange works grounded saves also (by constructor <;> decide)⟩

/-- What the files answered to a request that failed. -/
def Reply.cause? : Reply → Option FileError
  | { content := .failure (.file cause), .. } => some cause
  | _ => none

/-- A site with a file in the place of its routes. -/
def occupiedSite : Disk := { emptySite with tree := emptySite.tree.put ["site"] "routes" (.file .empty) }

/-- Saving to different sub paths that are all taken, in both orders: a page in the place of a directory of another
one, a page whose directory ends in a dot and is only made for another one, and pages of a site whose routes lie behind
a directory that is only made for the first of them. -/
theorem order_matters_for_replies :
    (∀ subPath ∈ ["", "skeleton.json", "a/.", "a/b"], (resolveSubPath ⟨"routes"⟩ subPath).isSome = true) ∧
      Path.steps ⟨""⟩ ≠ Path.steps ⟨"skeleton.json"⟩ ∧ Path.steps ⟨"a/."⟩ ≠ Path.steps ⟨"a/b"⟩ ∧
      ((do let reply ← handle {} (listSave "/save-skeleton")
           let next ← handle {} (listSave "/save-skeleton/skeleton.json")
           return (reply.cause?, next.cause?)).run emptySite).1 = (none, some .alreadyExists) ∧
      ((do let next ← handle {} (listSave "/save-skeleton/skeleton.json")
           let reply ← handle {} (listSave "/save-skeleton")
           return (reply.cause?, next.cause?)).run emptySite).1 = (some .isDirectory, none) ∧
      ((do let reply ← handle {} (listSave "/save-skeleton/a/.")
           let next ← handle {} (listSave "/save-skeleton/a/b")
           return (reply.cause?, next.cause?)).run emptySite).1 = (some .notFound, none) ∧
      ((do let next ← handle {} (listSave "/save-skeleton/a/b")
           let reply ← handle {} (listSave "/save-skeleton/a/.")
           return (reply.cause?, next.cause?)).run emptySite).1 = (none, none) ∧
      ((do let reply ← handle { routes := ⟨"new/../routes"⟩ } (listSave "/save-skeleton/a")
           let next ← handle { routes := ⟨"new/../routes"⟩ } (listSave "/save-skeleton/b")
           return (reply.cause?, next.cause?)).run occupiedSite).1 = (some .alreadyExists, some .notDirectory) ∧
      ((do let next ← handle { routes := ⟨"new/../routes"⟩ } (listSave "/save-skeleton/b")
           let reply ← handle { routes := ⟨"new/../routes"⟩ } (listSave "/save-skeleton/a")
           return (reply.cause?, next.cause?)).run occupiedSite).1 = (some .notDirectory, some .alreadyExists) := by
  refine ⟨by decide, by decide, by decide, ?_, ?_, ?_, ?_, ?_, ?_⟩
  all_goals decide +kernel

end Requests

end Pagewright.Editor
