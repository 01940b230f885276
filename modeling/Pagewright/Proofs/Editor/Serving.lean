import Mathlib
import Pagewright.Proofs.Editor.Destination
import Pagewright.Proofs.Json.Roundtrip

/-! Requests one after another. What was last saved to a destination stays there, whatever else is saved or
opened, until a request saves to the same destination or a build takes place. -/

namespace Pagewright.Editor

open Files
open Json (Document Value)

/-- Handles requests one after another, and notes each of them with its reply. -/
def serve (config : ServerConfig) : List Request → StateM Disk (List (Request × Reply))
  | [] => return []
  | request :: rest => do
    let reply ← handle config request
    return (request, reply) :: (← serve config rest)

theorem run_serve_cons (config : ServerConfig) (request : Request) (rest : List Request) (disk : Disk) :
    (serve config (request :: rest)).run disk =
      let first := (handle config request).run disk
      let others := (serve config rest).run first.2
      ((request, first.1) :: others.1, others.2) := by
  rw [serve]
  simp only [StateT.run_bind, StateT.run_pure]
  rfl

/-- The last request of a kind that succeeded. -/
def Latest (kind : Request → Prop) (log : List (Request × Reply)) (request : Request) : Prop :=
  ∃ earlier reply later, log = earlier ++ (request, reply) :: later ∧ (kind request ∧ reply.status = 200) ∧
    ∀ entry ∈ later, ¬ (kind entry.1 ∧ entry.2.status = 200)

section Log

variable {kind other : Request → Prop} {log : List (Request × Reply)} {entry : Request × Reply} {request : Request}

theorem not_latest_nil : ¬ Latest kind [] request := by
  rintro ⟨earlier, reply, later, same, _⟩
  exact List.append_ne_nil_of_right_ne_nil _ (List.cons_ne_nil _ _) same.symm

theorem Latest.of_append (latest : Latest kind (log ++ [entry]) request) :
    (kind entry.1 ∧ entry.2.status = 200) ∧ request = entry.1 ∨
      ¬ (kind entry.1 ∧ entry.2.status = 200) ∧ Latest kind log request := by
  obtain ⟨earlier, reply, later, same, succeeds, since⟩ := latest
  rcases List.eq_nil_or_concat' later with rfl | ⟨later, last, rfl⟩
  · cases (List.append_inj' same rfl).2
    exact .inl ⟨succeeds, rfl⟩
  · rw [← List.cons_append, ← List.append_assoc] at same
    obtain ⟨rfl, ended⟩ := List.append_inj' same rfl
    cases ended
    exact .inr ⟨since entry (by simp), earlier, reply, later, rfl, succeeds,
      fun entry member => since entry (List.mem_append_left _ member)⟩

theorem Latest.append (latest : Latest kind log request) (entry : Request × Reply) :
    ∃ request, Latest kind (log ++ [entry]) request := by
  obtain ⟨earlier, reply, later, rfl, succeeds, since⟩ := latest
  by_cases again : kind entry.1 ∧ entry.2.status = 200
  · exact ⟨entry.1, _, entry.2, [], rfl, again, by simp⟩
  · refine ⟨request, earlier, reply, later ++ [entry], by simp, succeeds, ?_⟩
    intro late member
    rcases List.mem_append.mp member with inside | last
    · exact since late inside
    · cases List.mem_singleton.mp last
      exact again

/-- Once a request of a kind has succeeded, one of them is the last. -/
theorem exists_latest (succeeded : ∃ entry ∈ log, kind entry.1 ∧ entry.2.status = 200) :
    ∃ request, Latest kind log request := by
  induction log using List.reverseRecOn with
  | nil =>
    obtain ⟨_, member, _⟩ := succeeded
    cases member
  | append_singleton log entry ih =>
    obtain ⟨found, member, succeeds⟩ := succeeded
    rcases List.mem_append.mp member with inside | last
    · obtain ⟨request, latest⟩ := ih ⟨found, inside, succeeds⟩
      exact latest.append entry
    · rw [List.mem_singleton.mp last] at succeeds
      exact ⟨entry.1, log, entry.2, [], rfl, succeeds, by simp⟩

theorem Latest.congr (same : ∀ entry ∈ log, entry.2.status = 200 → (kind entry.1 ↔ other entry.1))
    (latest : Latest kind log request) : Latest other log request := by
  obtain ⟨earlier, reply, later, rfl, succeeds, since⟩ := latest
  refine ⟨earlier, reply, later, rfl, ⟨(same (request, reply) (by simp) succeeds.2).mp succeeds.1, succeeds.2⟩, ?_⟩
  rintro entry member ⟨asked, well⟩
  exact since entry member ⟨(same entry (by simp [member]) well).mpr asked, well⟩

theorem Latest.mem (latest : Latest kind log request) : request ∈ log.map Prod.fst := by
  obtain ⟨earlier, reply, later, rfl, _⟩ := latest
  simp

end Log

section Kept

variable {config : ServerConfig} {disk after : Disk} {destination : Destination} {value : Value}

/-- A value stands at its destination, and is found there. -/
structure Stored (config : ServerConfig) (disk : Disk) (destination : Destination) (value : Value) : Prop where
  file : disk.tree.at? (destination.file config disk.directory) = some (.file (value.print .indented).toUTF8)
  found : ∀ path, destination.readAt? config = some path →
    disk.find path = .ok (destination.file config disk.directory, .file (value.print .indented).toUTF8)

theorem Stored.grows {directories files : Location → Prop} (stored : Stored config disk destination value)
    (grows : Grows directories files disk after) (other : ¬ files (destination.file config disk.directory)) :
    Stored config after destination value := by
  constructor
  · obtain ⟨content, there, same | changed⟩ := grows.isFile stored.file
    · rw [grows.directory, there, same]
    · exact absurd changed other
  · intro path asked
    obtain ⟨content, there, same | changed⟩ := grows.find (stored.found path asked)
    · rw [grows.directory, there, same]
    · exact absurd changed other

/-- The last value that was saved to each destination is stored there. -/
structure Keeps (config : ServerConfig) (here : Location) (log : List (Request × Reply)) (disk : Disk) : Prop where
  directory : disk.directory = here
  works : disk.tree.at? here = some .directory
  stored : ∀ destination request, Latest (·.destination? = some destination) log request →
    ∃ value, bodyValue request = .ok value ∧ Stored config disk destination value

variable {here : Location} {log : List (Request × Reply)}

/-- Requests of a kind that save to one destination: what the last of them saved is stored there, and is
read again as the same value. -/
theorem Keeps.exists_saved (keeps : Keeps config here log disk) (kind : Request → Prop)
    (readable : ∀ entry ∈ log, ∀ value, bodyValue entry.1 = .ok value →
      Value.ofText (value.print .indented) = .ok value)
    (aims : ∀ entry ∈ log, entry.2.status = 200 → (kind entry.1 ↔ entry.1.destination? = some destination))
    (succeeded : ∃ entry ∈ log, kind entry.1 ∧ entry.2.status = 200) :
    ∃ saved value, Latest kind log saved ∧ bodyValue saved = .ok value ∧
      Value.ofText (value.print .indented) = .ok value ∧ Stored config disk destination value := by
  obtain ⟨saved, latest⟩ := exists_latest succeeded
  obtain ⟨value, given, stored⟩ := keeps.stored destination saved (latest.congr aims)
  obtain ⟨entry, member, rfl⟩ := List.mem_map.mp latest.mem
  exact ⟨entry.1, value, latest, given, readable entry member value given, stored⟩

variable (only : OnlyOpens config)
  (apart : ¬ landing here config.routes <+: landing here config.drafts ∧
    ¬ landing here config.drafts <+: landing here config.routes)
include only apart

theorem Keeps.step (keeps : Keeps config here log disk) {request : Request} (other : ¬ request.Builds) :
    Keeps config here (log ++ [(request, ((handle config request).run disk).1)])
      ((handle config request).run disk).2 := by
  have grows := handle_grows only disk other
  have works : disk.tree.at? disk.directory = some .directory := keeps.directory ▸ keeps.works
  refine ⟨grows.directory.trans keeps.directory, grows.isDirectory keeps.works, ?_⟩
  intro destination saved latest
  rcases latest.of_append with ⟨⟨aimed, succeeds⟩, rfl⟩ | ⟨different, before⟩
  · obtain ⟨value, given, file, found⟩ := handle_stores works aimed succeeds
    rw [← grows.directory] at file found
    exact ⟨value, given, file, found⟩
  · obtain ⟨value, given, stored⟩ := keeps.stored destination saved before
    refine ⟨value, given, stored.grows grows ?_⟩
    rintro ⟨succeeds, aim, aimed, same⟩
    cases Destination.file_inj (keeps.directory ▸ apart) same
    exact different ⟨aimed, succeeds⟩

theorem Keeps.serve {requests : List Request} (unbuilt : ∀ request ∈ requests, ¬ request.Builds)
    (keeps : Keeps config here log disk) :
    Keeps config here (log ++ ((serve config requests).run disk).1) ((serve config requests).run disk).2 := by
  induction requests generalizing log disk with
  | nil =>
    change Keeps config here (log ++ []) disk
    rwa [List.append_nil]
  | cons request rest ih =>
    obtain ⟨first, others⟩ := List.forall_mem_cons.mp unbuilt
    have last := ih others (keeps.step only apart first)
    rw [List.append_assoc] at last
    rwa [run_serve_cons]

end Kept

section Addresses

variable {config : ServerConfig} {disk : Disk} {request : Request}

/-- A request by its method and path. -/
def Request.Asks (request : Request) (method path : String) : Prop :=
  request.method = method ∧ pathOfTarget request.target = path

instance (request : Request) (method path : String) : Decidable (request.Asks method path) :=
  inferInstanceAs (Decidable (_ ∧ _))

theorem decodeBytes_ne_nil {bytes : List UInt8} (nonempty : bytes ≠ []) : decodeBytes bytes ≠ [] := by
  unfold decodeBytes
  split
  · split <;> nofun
  · nofun
  · exact absurd rfl nonempty

theorem length_toList_loop (bytes : ByteArray) (position : Nat) (known : List UInt8) :
    (ByteArray.toList.loop bytes position known).length = known.length + (bytes.size - position) := by
  induction position, known using ByteArray.toList.loop.induct bytes with
  | case1 position known inside ih =>
    rw [ByteArray.toList.loop, if_pos inside, ih, List.length_cons]
    omega
  | case2 position known outside =>
    rw [ByteArray.toList.loop, if_neg outside, List.length_reverse]
    omega

theorem eq_empty_of_percentDecode {text : String} (decoded : percentDecode text = some "") : text = "" := by
  have bytes : decodeBytes text.toUTF8.toList = [] := by
    unfold percentDecode String.fromUTF8? at decoded
    split at decoded
    next valid =>
      have same := congrArg String.toByteArray (Option.some.inj decoded)
      exact congrArg (fun bytes => bytes.data.toList) (same.trans String.toByteArray_empty)
    next => cases decoded
  have nothing : text.toUTF8.toList = [] := by
    by_contra nonempty
    exact decodeBytes_ne_nil nonempty bytes
  have size : text.toUTF8.size = 0 := by
    have length := length_toList_loop text.toUTF8 0 []
    rw [show ByteArray.toList.loop text.toUTF8 0 [] = text.toUTF8.toList from rfl, nothing] at length
    simpa using length.symm
  exact String.toByteArray_eq_empty_iff.mp (ByteArray.size_eq_zero_iff.mp size)

/-- The page of the base itself is saved by requests without a sub path. -/
theorem destination?_root (succeeds : ((handle config request).run disk).1.status = 200) :
    request.destination? = some (.page false []) ↔ request.Asks "POST" "/save-skeleton" := by
  constructor
  · intro aimed
    unfold Request.destination? at aimed
    split at aimed
    next posted =>
      split at aimed
      next draft subPath endpoint =>
        obtain ⟨decoded, found, same⟩ := Option.map_eq_some_iff.mp aimed
        obtain ⟨rfl, still⟩ := Destination.page.inj same
        rw [handle_of_method (by rw [endpoint]; exact posted), endpoint] at succeeds
        rcases save_cases config false subPath request disk with ⟨reply, refused, failed⟩ | taken
        · rw [serveEndpoint, refused] at succeeds
          exact absurd succeeds failed
        · obtain ⟨again, _, _, decodes, _, resolved, _⟩ := taken
          cases found.symm.trans decodes
          cases eq_empty_of_resolve resolved still
          cases subPath with
          | none => exact ⟨posted, endpointOf_eq_root endpoint⟩
          | some tail => exact absurd (eq_empty_of_percentDecode found) (tail_ne_empty endpoint)
      next => cases aimed
      next => cases aimed
    next => cases aimed
  · rintro ⟨posted, path⟩
    rw [Request.destination?, if_pos posted, path]
    decide +kernel

theorem destination?_settings :
    request.destination? = some .settings ↔ request.Asks "POST" "/api/create-initial-settings" := by
  constructor
  · intro aimed
    unfold Request.destination? at aimed
    split at aimed
    next posted =>
      split at aimed
      next => simp at aimed
      next endpoint => exact ⟨posted, endpointOf_eq_settings endpoint⟩
      next => cases aimed
    next => cases aimed
  · rintro ⟨posted, path⟩
    rw [Request.destination?, if_pos posted, path]
    rfl

end Addresses

section Replies

variable {config : ServerConfig} {disk : Disk} {request : Request} {value : Value}

theorem readValue_of_stored {path : Path} {location : Location}
    (found : disk.find path = .ok (location, .file (value.print .indented).toUTF8))
    (again : Value.ofText (value.print .indented) = .ok value) : readValue disk path = .ofValue value := by
  rw [readValue, readText_of_find found]
  simp only [again]

theorem handle_skeleton (asked : request.Asks "GET" "/api/skeleton") :
    (handle config request).run disk = (readValue disk (config.routes.join ⟨Site.skeletonName⟩), disk) := by
  obtain ⟨get, path⟩ := asked
  have endpoint : endpointOf (pathOfTarget request.target) = .skeleton := by
    rw [path]
    rfl
  rw [handle_of_method (by rw [endpoint]; exact get), endpoint]
  rfl

theorem handle_initialSettings (asked : request.Asks "GET" "/api/initial-settings") :
    (handle config request).run disk = (initialSettings disk config.settings, disk) := by
  obtain ⟨get, path⟩ := asked
  have endpoint : endpointOf (pathOfTarget request.target) = .initialSettings := by
    rw [path]
    rfl
  rw [handle_of_method (by rw [endpoint]; exact get), endpoint]
  rfl

/-- The log of a run holds its requests, each with the reply it got on the disk as it then was. -/
theorem mem_serve {requests : List Request} {entry : Request × Reply}
    (member : entry ∈ ((serve config requests).run disk).1) :
    entry.1 ∈ requests ∧ ∃ middle, entry.2 = ((handle config entry.1).run middle).1 := by
  induction requests generalizing disk with
  | nil => cases member
  | cons request rest ih =>
    rw [run_serve_cons] at member
    rcases List.mem_cons.mp member with rfl | later
    · exact ⟨List.mem_cons_self, disk, rfl⟩
    · obtain ⟨inside, replied⟩ := ih later
      exact ⟨List.mem_cons_of_mem _ inside, replied⟩

theorem exists_body_of_bodyValue (given : bodyValue request = .ok value) :
    ∃ text ∈ request.body, Value.ofText text = .ok value := by
  unfold bodyValue at given
  split at given
  next => cases given
  next text body =>
    refine ⟨text, body, ?_⟩
    cases read : Value.ofText text with
    | error fault => simp [read, Except.mapError] at given
    | ok found =>
      rw [read] at given
      cases given
      rfl

end Replies

/-- As long as nothing is built, and folders are opened without changing files, what is saved is read back. Once
the page of the routes directory has been saved, it is given with the value that was saved last, and so are the
settings; and the file of every page that was saved holds what was last saved to the same steps below the same
base. This holds after any requests, so it holds for every one of them that comes later. -/
theorem saves_read_back {config : ServerConfig} {disk after : Disk} {requests : List Request}
    {log : List (Request × Reply)} (only : OnlyOpens config)
    (works : disk.tree.at? disk.directory = some .directory)
    (apart : ¬ landing disk.directory config.routes <+: landing disk.directory config.drafts ∧
      ¬ landing disk.directory config.drafts <+: landing disk.directory config.routes)
    (unbuilt : ∀ request ∈ requests, ¬ request.Builds)
    (whole : ∀ request ∈ requests, ∀ text ∈ request.body, (Document.ofText text).root.WholeNumbers)
    (served : (serve config requests).run disk = (log, after)) :
    ((∃ entry ∈ log, entry.1.Asks "POST" "/save-skeleton" ∧ entry.2.status = 200) →
      ∃ saved value, Latest (·.Asks "POST" "/save-skeleton") log saved ∧ bodyValue saved = .ok value ∧
        ∀ request, request.Asks "GET" "/api/skeleton" →
          (handle config request).run after = (.ofValue value, after)) ∧
    ((∃ entry ∈ log, entry.1.Asks "POST" "/api/create-initial-settings" ∧ entry.2.status = 200) →
      ∃ saved value, Latest (·.Asks "POST" "/api/create-initial-settings") log saved ∧
        bodyValue saved = .ok value ∧
        ∀ request, request.Asks "GET" "/api/initial-settings" →
          (handle config request).run after = (.ofValue value, after)) ∧
    ∀ draft steps saved, Latest (·.destination? = some (.page draft steps)) log saved →
      ∃ value, bodyValue saved = .ok value ∧
        after.tree.at? (landing disk.directory (config.base draft) ++ steps ++ [Site.skeletonName]) =
          some (.file (value.print .indented).toUTF8) := by
  have start : Keeps config disk.directory [] disk := ⟨rfl, works, fun _ _ latest => absurd latest not_latest_nil⟩
  have keeps : Keeps config disk.directory log after := by
    have kept := start.serve only apart unbuilt
    rwa [served, List.nil_append] at kept
  have members := fun entry => @mem_serve config disk requests entry
  rw [served] at members
  have readable : ∀ entry ∈ log, ∀ value, bodyValue entry.1 = .ok value →
      Value.ofText (value.print .indented) = .ok value := by
    intro entry member value given
    obtain ⟨text, body, read⟩ := exists_body_of_bodyValue given
    exact Value.ofText_print read (whole _ (members entry member).1 text body)
  refine ⟨fun succeeded => ?_, fun succeeded => ?_, ?_⟩
  · have aims : ∀ entry ∈ log, entry.2.status = 200 →
        (entry.1.Asks "POST" "/save-skeleton" ↔ entry.1.destination? = some (.page false [])) := by
      intro entry member succeeds
      obtain ⟨_, middle, replied⟩ := members entry member
      exact (destination?_root (replied ▸ succeeds)).symm
    obtain ⟨saved, value, latest, given, again, stored⟩ :=
      keeps.exists_saved (·.Asks "POST" "/save-skeleton") readable aims succeeded
    refine ⟨saved, value, latest, given, fun request asked => ?_⟩
    rw [handle_skeleton asked, readValue_of_stored (stored.found _ rfl) again]
  · obtain ⟨saved, value, latest, given, again, stored⟩ :=
      keeps.exists_saved (·.Asks "POST" "/api/create-initial-settings") readable
        (fun _ _ _ => destination?_settings.symm) succeeded
    refine ⟨saved, value, latest, given, fun request asked => ?_⟩
    have found := stored.found _ rfl
    rw [handle_initialSettings asked, initialSettings, Disk.isFile, found, readValue_of_stored found again]
    rfl
  · intro draft steps saved latest
    obtain ⟨value, given, stored⟩ := keeps.stored _ saved latest
    exact ⟨value, given, keeps.directory ▸ stored.file⟩

/-- The page of the routes directory is saved twice, and in between a draft, a page that leads outside, and two
folders are opened. -/
def savedTwice : List Request := [
  { method := "POST", target := "/save-skeleton", body := some "[]" },
  { method := "POST", target := "/save-skeleton-temp/a", body := some "[true]" },
  { method := "GET", target := "/api/open-folder/static" },
  { method := "POST", target := "/save-skeleton", body := some "[7]" },
  { method := "HEAD", target := "/api/open-folder/routes" },
  { method := "POST", target := "/save-skeleton/..", body := some "[]" }]

/-- A desktop that opens whatever it is asked to. -/
def withDesktop : ServerConfig := { around := { opens := fun _ => return true } }

theorem saves_read_back_twice :
    ∃ log after, (serve withDesktop savedTwice).run emptySite = (log, after) ∧
      after.tree.at? ["site", "routes", "skeleton.json"] = some (.file "[\n  7\n]".toUTF8) ∧
      ∃ saved value, Latest (·.Asks "POST" "/save-skeleton") log saved ∧ bodyValue saved = .ok value ∧
        ∀ request, request.Asks "GET" "/api/skeleton" →
          (handle withDesktop request).run after = (.ofValue value, after) := by
  have works : emptySite.tree.at? emptySite.directory = some .directory := by decide +kernel
  have apart : ¬ landing emptySite.directory withDesktop.routes <+: landing emptySite.directory withDesktop.drafts ∧
      ¬ landing emptySite.directory withDesktop.drafts <+: landing emptySite.directory withDesktop.routes := by
    decide +kernel
  have unbuilt : ∀ request ∈ savedTwice, ¬ request.Builds := by decide +kernel
  have whole : ∀ request ∈ savedTwice, ∀ text ∈ request.body, (Document.ofText text).root.WholeNumbers := by
    decide +kernel
  obtain ⟨stored, answered⟩ :
      ((serve withDesktop savedTwice).run emptySite).2.tree.at? ["site", "routes", "skeleton.json"] =
        some (.file "[\n  7\n]".toUTF8) ∧
      ∃ entry ∈ ((serve withDesktop savedTwice).run emptySite).1,
        entry.1.Asks "POST" "/save-skeleton" ∧ entry.2.status = 200 := by
    decide +kernel
  rcases served : (serve withDesktop savedTwice).run emptySite with ⟨log, after⟩
  rw [served] at stored answered
  exact ⟨log, after, rfl, stored, (saves_read_back (fun _ _ => rfl) works apart unbuilt whole served).1 answered⟩

/-- A server that builds with a script instead, `echo 7 > routes/skeleton.json`. -/
def scripted : ServerConfig where
  builder := some ⟨"/bin/sh"⟩
  around := { starts := fun _ _ => do
    match ← (writeText ⟨"routes/skeleton.json"⟩ "7\n").run with
    | .error _ => return .ok { code := 2 }
    | .ok _ => return .ok { code := 0 } }

def rootSave : Request := { method := "POST", target := "/save-skeleton", body := some "[]" }

/-- A request for the head of a build's reply. It builds as well. -/
def headOfBuild : Request := { method := "HEAD", target := "/api/build" }

/-- A build that only the head of its reply is asked of replaces what was saved before it. -/
theorem head_replaces_saved :
    (∀ request ∈ [rootSave, headOfBuild], ¬ request.Asks "GET" "/api/build") ∧
      ([scripted.routes, scripted.drafts, scripted.settings, scripted.static, scripted.output].map
        (landing emptySite.directory)).Pairwise (fun one other => ¬ one <+: other ∧ ¬ other <+: one) ∧
      (∀ request ∈ [rootSave, headOfBuild], ∀ text ∈ request.body, (Document.ofText text).root.WholeNumbers) ∧
      ∃ log after, (serve scripted [rootSave, headOfBuild]).run emptySite = (log, after) ∧
        (∀ entry ∈ log, entry.2.status = 200) ∧ Latest (·.Asks "POST" "/save-skeleton") log rootSave ∧
        bodyValue rootSave = .ok (.array []) ∧
        ∀ request, request.Asks "GET" "/api/skeleton" →
          (handle scripted request).run after = (.ofValue (.number (.integer 7)), after) := by
  obtain ⟨replaced, answered⟩ :
      ((serve scripted [rootSave, headOfBuild]).run emptySite).2.readText
        (scripted.routes.join ⟨Site.skeletonName⟩) = .ok "7\n" ∧
      ((serve scripted [rootSave, headOfBuild]).run emptySite).1.map (·.2.status) = [200, 200] := by decide +kernel
  rcases first : (handle scripted rootSave).run emptySite with ⟨reply, saved⟩
  rcases second : (handle scripted headOfBuild).run saved with ⟨answer, built⟩
  have served : (serve scripted [rootSave, headOfBuild]).run emptySite =
      ([(rootSave, reply), (headOfBuild, answer)], built) := by
    rw [run_serve_cons, first]
    dsimp only
    rw [run_serve_cons, second]
    rfl
  rw [served] at replaced answered
  obtain ⟨succeeds, rest⟩ := List.cons.inj answered
  have latest : Latest (·.Asks "POST" "/save-skeleton") [(rootSave, reply), (headOfBuild, answer)] rootSave :=
    ⟨[], reply, [(headOfBuild, answer)], rfl, ⟨by decide +kernel, succeeds⟩, fun entry member asks => by
      rw [List.mem_singleton.mp member] at asks
      exact absurd asks.1 (show ¬ headOfBuild.Asks "POST" "/save-skeleton" by decide +kernel)⟩
  have statuses : ∀ entry ∈ [(rootSave, reply), (headOfBuild, answer)], entry.2.status = 200 := by
    simpa using ⟨succeeds, (List.cons.inj rest).1⟩
  refine ⟨by decide +kernel, by decide +kernel, by decide +kernel, _, built, served, statuses, latest, by cbv, ?_⟩
  intro request asked
  rw [handle_skeleton asked, readValue, replaced]
  have read : Value.ofText "7\n" = .ok (.number (.integer 7)) := by cbv
  simp only [read]

end Pagewright.Editor
