import Mathlib.Data.List.Forall2
import Pagewright.Proofs.Json.Faulty

/-! Two ways of reading the same data. A decoder carries over from the one to the other when it
gives the same value the second way wherever it gives one the first way. Every way of putting
decoders together keeps this, so of two ways it only has to be shown that they agree on leaves,
on the items of an array and on the members of an object. -/

namespace Pagewright.Json

variable {α σ τ : Type}

/-- Which reading, under which access, stands for which other one. -/
abbrev Correspondence := Access → Reading → Access → Reading → Prop

variable {related : Correspondence}

def Carries (related : Correspondence) (decoder : Decoder α) : Prop :=
  ∀ access before other after value, related access before other after →
    decoder access before = .ok value → decoder other after = .ok value

def RecordField.Carries (related : Correspondence) (field : RecordField σ) : Prop :=
  ∀ access before other after change, related access before other after →
    field.read access before = .ok change → field.read other after = .ok change

/-- Members that give a record and a table whatever other members give them. -/
structure MembersCarry (related : Correspondence) (access : Access)
    (members : List (Option String × Reading)) (other : Access)
    (after : List (Option String × Reading)) : Prop where
  record : ∀ {σ : Type} (fields : List (RecordField σ)) (others : Others) (seen : List String)
    (start : σ) (result : List String × σ), (∀ field ∈ fields, field.Carries related) →
      readMembers fields others access seen start members = .ok result →
        readMembers fields others other seen start after = .ok result
  keyed : ∀ {α : Type} (decoder : Decoder α) (known table : Keyed String α), Carries related decoder →
    Decoder.eachEntry decoder access known members = .ok table →
      Decoder.eachEntry decoder other known after = .ok table

/-- What corresponds to a reading, by its shape. The members of an object correspond as they are
read, and also when they are looked at after the object has been read whole. -/
inductive Shape (related : Correspondence) : Access → Reading → Access → Reading → Prop where
  | null {access other : Access} : Shape related access .null other .null
  | bool {access other : Access} (value : Bool) : Shape related access (.bool value) other (.bool value)
  | number {access other : Access} {literal written : Literal}
      (same : decodeNumber literal = decodeNumber written) :
      Shape related access (.number literal) other (.number written)
  | string {access other : Access} (text : Option String) :
      Shape related access (.string text) other (.string text)
  | array {access other : Access} {items after : List Reading}
      (inner : ∀ below, access.enter = .ok below → ∃ within, other.enter = .ok within ∧
        List.Forall₂ (fun item changed => related below item within changed) items after) :
      Shape related access (.array items none) other (.array after none)
  | object {access other : Access} {members after : List (Option String × Reading)}
      (inner : ∀ below, access.enter = .ok below → ∃ within, other.enter = .ok within ∧
        MembersCarry related below members within after)
      (picked : MembersCarry related .memory members .memory after) :
      Shape related access (.object members none) other (.object after none)

/-- A correspondence along which decoders carry over. -/
structure Conveys (related : Correspondence) : Prop where
  shape : ∀ {access before other after}, related access before other after →
    Shape related access before other after
  whole : ∀ {access before other after}, related access before other after →
    other.whole after = .ok ⟨⟩

section Decoders

variable (conveys : Conveys related)
include conveys

theorem Conveys.string : Carries related Decoder.string := by
  intro access before other after value corresponds found
  cases conveys.shape corresponds with
  | string text => cases text <;> exact found
  | _ => cases found

theorem Conveys.optional {decoder : Decoder α} (carries : Carries related decoder) :
    Carries related (Decoder.optional decoder) := by
  intro access before other after value corresponds found
  have again := fun found => carries access before other after found corresponds
  cases conveys.shape corresponds with
  | null => exact found
  | _ =>
    obtain ⟨read, decoded, rfl⟩ := map_eq_ok.mp found
    exact map_eq_ok.mpr ⟨read, again read decoded, rfl⟩

omit conveys in
theorem Carries.each {decoder : Decoder α} (carries : Carries related decoder) {access other : Access}
    {items after : List Reading} {values : List α}
    (correspond : List.Forall₂ (fun item changed => related access item other changed) items after)
    (found : Decoder.each decoder access items = .ok values) :
    Decoder.each decoder other after = .ok values := by
  induction correspond generalizing values with
  | nil => exact found
  | cons first _ ih =>
    simp only [Decoder.each, bind_eq_ok] at found ⊢
    obtain ⟨value, head, rest, tail, same⟩ := found
    exact ⟨value, carries _ _ _ _ _ first head, rest, ih tail, same⟩

theorem Conveys.list {decoder : Decoder α} (carries : Carries related decoder) :
    Carries related (Decoder.list decoder) := by
  intro access before other after values corresponds found
  cases conveys.shape corresponds with
  | array inner =>
    simp only [Decoder.list, bind_eq_ok] at found ⊢
    obtain ⟨below, entered, read, decoded, ended⟩ := found
    obtain ⟨within, opened, correspond⟩ := inner below entered
    exact ⟨within, opened, read, carries.each correspond decoded, ended⟩
  | _ => cases found

theorem Conveys.keyed {decoder : Decoder α} (carries : Carries related decoder) :
    Carries related (Decoder.keyed decoder) := by
  intro access before other after table corresponds found
  cases conveys.shape corresponds with
  | object inner =>
    simp only [Decoder.keyed, bind_eq_ok] at found ⊢
    obtain ⟨below, entered, read, decoded, ended⟩ := found
    obtain ⟨within, opened, carry⟩ := inner below entered
    exact ⟨within, opened, read, carry.keyed _ _ _ carries decoded, ended⟩
  | _ => cases found

omit conveys in
theorem Carries.of {decoder : Decoder α} (carries : Carries related decoder) (name : String)
    (write : α → σ → σ) : (RecordField.of name decoder write).Carries related := by
  intro access before other after change corresponds found
  obtain ⟨value, decoded, rfl⟩ := map_eq_ok.mp found
  exact map_eq_ok.mpr ⟨value, carries _ _ _ _ _ corresponds decoded, rfl⟩

omit conveys in
theorem readItems_carries {fields : List (RecordField σ)} (carries : ∀ field ∈ fields, field.Carries related)
    {access other : Access} {seen : List String} {start : σ} {result : List String × σ}
    {items after : List Reading}
    (correspond : List.Forall₂ (fun item changed => related access item other changed) items after)
    (found : readItems access seen start fields items = .ok result) :
    readItems other seen start fields after = .ok result := by
  induction correspond generalizing fields seen start with
  | nil => cases fields <;> exact found
  | cons first _ ih =>
    cases fields with
    | nil => cases found
    | cons field fields =>
      obtain ⟨here, others⟩ := List.forall_mem_cons.mp carries
      simp only [readItems, bind_eq_ok] at found ⊢
      obtain ⟨change, head, tail⟩ := found
      exact ⟨change, here _ _ _ _ _ first head, ih others tail⟩

theorem Conveys.record {fields : List (RecordField σ)} (carries : ∀ field ∈ fields, field.Carries related)
    (start : σ) (required : List String) : Carries related (Decoder.record fields start required) := by
  intro access before other after value corresponds found
  cases conveys.shape corresponds with
  | array inner =>
    simp only [Decoder.record, bind_eq_ok] at found ⊢
    obtain ⟨below, entered, result, read, ended⟩ := found
    obtain ⟨within, opened, correspond⟩ := inner below entered
    exact ⟨within, opened, result, readItems_carries carries correspond read, ended⟩
  | object inner =>
    simp only [Decoder.record, bind_eq_ok] at found ⊢
    obtain ⟨below, entered, result, read, ended⟩ := found
    obtain ⟨within, opened, carry⟩ := inner below entered
    exact ⟨within, opened, result, carry.record _ _ _ _ _ carries read, ended⟩
  | _ => cases found

theorem Conveys.joined {own : List (RecordField σ)} (carries : ∀ field ∈ own, field.Carries related)
    {shared : List (RecordField τ)} (others : ∀ field ∈ shared, field.Carries related) (start : σ)
    (required : List String) (sharedStart : τ) :
    Carries related (Decoder.joined own start required shared sharedStart) := by
  intro access before other after value corresponds found
  cases conveys.shape corresponds with
  | object inner picked =>
    simp only [Decoder.joined, bind_eq_ok] at found ⊢
    obtain ⟨below, entered, result, read, _, ended, _, complete, last, joined, same⟩ := found
    obtain ⟨within, opened, carry⟩ := inner below entered
    exact ⟨within, opened, result, carry.record _ _ _ _ _ carries read, ⟨⟩, ended, ⟨⟩, complete,
      last, picked.record _ _ _ _ _ others joined, same⟩
  | _ => cases found

end Decoders

theorem readMembers_carries {fields : List (RecordField σ)} (carries : ∀ field ∈ fields, field.Carries related)
    {others passing : Others} {access other : Access} {seen : List String} {start : σ}
    {result : List String × σ} {members : List (Option String × Reading)}
    (passed : ∀ member ∈ members, passing.pass other member.2 = .ok ⟨⟩)
    (correspond : ∀ name value, (some name, value) ∈ members → (fields.find? (·.name = name)).isSome →
      related access value other value)
    (read : readMembers fields others access seen start members = .ok result) :
    readMembers fields passing other seen start members = .ok result := by
  induction members generalizing seen start with
  | nil => exact read
  | cons member rest ih =>
    obtain ⟨key, value⟩ := member
    obtain ⟨first, later⟩ := List.forall_mem_cons.mp passed
    have again := fun {seen start} => @ih seen start later
      fun name value inside => correspond name value (List.mem_cons_of_mem _ inside)
    obtain ⟨name, rfl, ⟨unknown, _, tail⟩ | ⟨field, change, asked, unseen, head, tail⟩⟩ :=
      readMembers_cons_eq_ok.mp read
    · exact readMembers_cons_eq_ok.mpr ⟨name, rfl, .inl ⟨unknown, first, again tail⟩⟩
    · have corresponds := correspond name value List.mem_cons_self (by simp [asked])
      have changes := carries field (List.mem_of_find?_eq_some asked) _ _ _ _ _ corresponds head
      exact readMembers_cons_eq_ok.mpr ⟨name, rfl, .inr ⟨field, change, asked, unseen, changes, again tail⟩⟩

section Buffers

mutual

/-- A text without faults can be passed over. -/
theorem skip_of_sound (reading : Reading) (sound : ¬ Faulty reading) : reading.skip = .ok ⟨⟩ := by
  match reading with
  | .null | .bool _ | .number _ | .string _ => rfl
  | .broken place => exact absurd (.broken place) sound
  | .array items (some place) => exact absurd (.arrayEnd items place) sound
  | .object members (some place) => exact absurd (.objectEnd members place) sound
  | .array items none =>
    exact skip_array_eq_ok.mpr
      ⟨skipItems_of_sound items fun item member faulty => sound (.item none member faulty), rfl⟩
  | .object members none =>
    exact skip_object_eq_ok.mpr
      ⟨skipMembers_of_sound members fun member inside faulty => sound (.member none inside faulty), rfl⟩

theorem skipItems_of_sound (items : List Reading) (sound : ∀ item ∈ items, ¬ Faulty item) :
    Reading.skipItems items = .ok ⟨⟩ := by
  match items with
  | [] => rfl
  | item :: rest =>
    obtain ⟨first, others⟩ := List.forall_mem_cons.mp sound
    rw [Reading.skipItems, skip_of_sound item first]
    exact skipItems_of_sound rest others

theorem skipMembers_of_sound (members : List (Option String × Reading))
    (sound : ∀ member ∈ members, ¬ Faulty member.2) : Reading.skipMembers members = .ok ⟨⟩ := by
  match members with
  | [] => rfl
  | (_, value) :: rest =>
    obtain ⟨first, others⟩ := List.forall_mem_cons.mp sound
    rw [Reading.skipMembers, skip_of_sound value first]
    exact skipMembers_of_sound rest others

end

theorem whole_of_value {room : Nat} {reading : Reading} {value : Value} (found : reading.value room = .ok value) :
    Access.whole reading (.stream room) = .ok ⟨⟩ :=
  bind_eq_ok.mpr ⟨value, found, rfl⟩

/-- The ways in which something is looked at that can be read whole with so much room. -/
def Access.Within (room : Nat) (access : Access) : Prop := access = .memory ∨ access = .stream room

theorem Access.Within.enter {room : Nat} {access : Access} (within : access.Within room) (space : room ≠ 0) :
    ∃ below, access.enter = .ok below ∧ below.Within (room - 1) := by
  obtain ⟨room, rfl⟩ := Nat.exists_eq_succ_of_ne_zero space
  rcases within with rfl | rfl
  · exact ⟨.memory, rfl, .inl rfl⟩
  · exact ⟨.stream room, rfl, .inr rfl⟩

theorem pass_of_value {room : Nat} {access : Access} (within : access.Within room) {reading : Reading}
    {value : Value} (found : reading.value room = .ok value) (others : Others) :
    others.pass access reading = .ok ⟨⟩ := by
  rcases within with rfl | rfl
  · cases others <;> rfl
  · cases others with
    | skipped => exact skip_of_sound _ (not_faulty_of_value found)
    | readWhole => exact whole_of_value found

/-- What has been read whole, as it is looked at afterwards and as it would have been read when it
came. -/
def Buffered : Correspondence := fun access before other after =>
  after = before ∧ access = .memory ∧ ∃ room value, before.value room = .ok value ∧ other.Within room

theorem Buffered.pass {access other : Access} {before after : Reading}
    (buffered : Buffered access before other after) (others : Others) :
    others.pass other after = .ok ⟨⟩ := by
  obtain ⟨rfl, _, room, value, found, within⟩ := buffered
  exact pass_of_value within found others

theorem eachEntry_carries {decoder : Decoder α} (carries : Carries related decoder) {access other : Access}
    {known table : Keyed String α} {members : List (Option String × Reading)}
    (correspond : ∀ member ∈ members, related access member.2 other member.2)
    (read : Decoder.eachEntry decoder access known members = .ok table) :
    Decoder.eachEntry decoder other known members = .ok table := by
  induction members generalizing known with
  | nil => exact read
  | cons member rest ih =>
    obtain ⟨first, later⟩ := List.forall_mem_cons.mp correspond
    simp only [Decoder.eachEntry, bind_eq_ok] at read ⊢
    obtain ⟨name, decoded, value, head, tail⟩ := read
    exact ⟨name, decoded, value, carries _ _ _ _ _ first head, ih later tail⟩

theorem Buffered.members {other : Access} {members : List (Option String × Reading)}
    (buffered : ∀ member ∈ members, Buffered .memory member.2 other member.2) :
    MembersCarry Buffered .memory members other members where
  record _ others _ _ _ carries read :=
    readMembers_carries carries (fun member inside => (buffered member inside).pass others)
      (fun _ _ inside _ => buffered _ inside) read
  keyed _ _ _ carries read := eachEntry_carries carries buffered read

theorem conveys_buffered : Conveys Buffered where
  whole buffered := buffered.pass .readWhole
  shape := by
    rintro _ _ other reading ⟨rfl, rfl, room, value, found, within⟩
    cases reading with
    | null => exact .null
    | bool value => exact .bool value
    | number literal => exact .number rfl
    | string text => exact .string text
    | broken place => cases found
    | array items ending =>
      obtain ⟨space, rfl, values, each, _⟩ := value_array_eq_ok.mp found
      refine .array fun below entered => ?_
      cases entered
      obtain ⟨inner, opened, inside⟩ := within.enter space
      refine ⟨inner, opened, List.forall₂_same.mpr fun item member => ?_⟩
      obtain ⟨value, decoded⟩ := value_of_items each member
      exact ⟨rfl, rfl, room - 1, value, decoded, inside⟩
    | object members ending =>
      obtain ⟨space, rfl, values, each, _⟩ := value_object_eq_ok.mp found
      have buffered : ∀ inner : Access, inner.Within (room - 1) →
          ∀ member ∈ members, Buffered .memory member.2 inner member.2 := by
        intro inner inside member present
        obtain ⟨value, decoded⟩ := value_of_members each present
        exact ⟨rfl, rfl, room - 1, value, decoded, inside⟩
      refine .object (fun below entered => ?_) (Buffered.members (buffered .memory (.inl rfl)))
      cases entered
      obtain ⟨inner, opened, inside⟩ := within.enter space
      exact ⟨inner, opened, Buffered.members (buffered inner inside)⟩

/-- What no field of the first record asks for has been read whole once its members are read. -/
theorem value_of_readWhole {fields : List (RecordField σ)} {room : Nat} {seen : List String} {start : σ}
    {result : List String × σ} {members : List (Option String × Reading)}
    (read : readMembers fields .readWhole (.stream room) seen start members = .ok result)
    {name : String} {value : Reading} (member : (some name, value) ∈ members)
    (other : fields.find? (·.name = name) = none) : ∃ found, value.value room = .ok found := by
  induction members generalizing seen start with
  | nil => cases member
  | cons first rest ih =>
    obtain ⟨key, reading⟩ := first
    obtain ⟨text, rfl, ⟨_, passed, tail⟩ | ⟨field, change, asked, _, _, tail⟩⟩ := readMembers_cons_eq_ok.mp read
    · rcases List.mem_cons.mp member with same | later
      · cases same
        obtain ⟨found, whole, _⟩ := bind_eq_ok.mp passed
        exact ⟨found, whole⟩
      · exact ih tail later
    · rcases List.mem_cons.mp member with same | later
      · cases same
        cases other.symm.trans asked
      · exact ih tail later

/-- The second of two records in one object is the record that is read when the first one is not
asked for. -/
theorem record_of_joined {own : List (RecordField σ)} {shared : List (RecordField τ)}
    (strict : ∀ field ∈ own, field.Strict) (carries : ∀ field ∈ shared, field.Carries Buffered)
    (apart : ∀ field ∈ shared, own.find? (·.name = field.name) = none)
    {start : σ} {required : List String} {sharedStart : τ} {room : Nat} {reading : Reading} {pair : σ × τ}
    (found : Decoder.joined own start required shared sharedStart (.stream room) reading = .ok pair) :
    Decoder.record shared sharedStart [] (.stream room) reading = .ok pair.2 := by
  cases reading with
  | object members ending =>
    simp only [Decoder.joined, bind_eq_ok, pure, Except.pure, Except.ok.injEq] at found
    obtain ⟨below, entered, _, read, _, ended, _, _, result, joined, rfl⟩ := found
    obtain ⟨room, rfl⟩ := enter_eq_ok entered
    have sound := not_faulty_of_readMembers strict read
    have again : readMembers shared .skipped (.stream room) [] sharedStart members = .ok result := by
      refine readMembers_carries carries (fun member inside => skip_of_sound _ (sound member inside)) ?_ joined
      intro name value inside asked
      obtain ⟨field, known⟩ := Option.isSome_iff_exists.mp asked
      have named : field.name = name := by simpa using List.find?_some known
      have other := apart field (List.mem_of_find?_eq_some known)
      obtain ⟨found, whole⟩ := value_of_readWhole read inside (named ▸ other)
      exact ⟨rfl, rfl, room, found, whole, .inr rfl⟩
    simp only [Decoder.record, bind_eq_ok]
    exact ⟨_, entered, result, again, ⟨⟩, ended, ⟨⟩, rfl, rfl⟩
  | _ => cases found

end Buffers

end Pagewright.Json
