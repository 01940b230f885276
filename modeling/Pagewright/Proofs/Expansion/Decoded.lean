import Mathlib.Data.List.Nodup
import Pagewright.Proofs.Expansion.Copy
import Pagewright.Proofs.Expansion.Reading

/-! Decoding a document after index tokens have been replaced in its text. A decoder follows a
change when it turns what it read before into what that becomes. Every way of putting decoders
together keeps this, so it only has to be shown of the leaves and of the names of fields. -/

namespace Pagewright.Expansion

open Json

variable {index : Int} {α β σ τ : Type}

mutual

theorem Becomes.value {before after : Reading} (becomes : Becomes index before after) {room : Nat}
    {value : Value} (found : before.value room = .ok value) :
    ∃ changed, after.value room = .ok changed := by
  match becomes with
  | .null => exact ⟨value, found⟩
  | .bool _ => exact ⟨value, found⟩
  | .number _ => exact ⟨value, found⟩
  | .string _ => exact ⟨_, rfl⟩
  | .array each =>
    obtain ⟨room, _, _, read, _⟩ := value_array_eq_ok.mp found
    obtain ⟨values, decoded⟩ := each.items read
    exact ⟨_, value_array_eq_ok.mpr ⟨room, rfl, values, decoded, rfl⟩⟩
  | .object each =>
    obtain ⟨room, _, _, read, _⟩ := value_object_eq_ok.mp found
    obtain ⟨values, decoded⟩ := each.members [] read
    exact ⟨_, value_object_eq_ok.mpr ⟨room, rfl, values, decoded, rfl⟩⟩
termination_by structural becomes

theorem ItemsBecome.items {items others : List Reading} (each : ItemsBecome index items others)
    {room : Nat} {values : List Value} (found : Reading.items room items = .ok values) :
    ∃ changed, Reading.items room others = .ok changed := by
  match each with
  | .nil => exact ⟨[], rfl⟩
  | .cons first later =>
    simp only [Reading.items, bind_eq_ok] at found
    obtain ⟨_, head, _, tail, _⟩ := found
    obtain ⟨value, decoded⟩ := first.value head
    obtain ⟨values, remaining⟩ := later.items tail
    exact ⟨value :: values, by simp [Reading.items, decoded, remaining, bind, Except.bind, pure, Except.pure]⟩
termination_by structural each

theorem MembersBecome.members {members others : List (Option String × Reading)}
    (each : MembersBecome index members others) {room : Nat} {known found : List (String × Value)}
    (known' : List (String × Value)) (read : Reading.members room known members = .ok found) :
    ∃ changed, Reading.members room known' others = .ok changed := by
  match each with
  | .nil => exact ⟨known', rfl⟩
  | @MembersBecome.cons _ _ name _ _ _ _ _ first later =>
    simp only [Reading.members, bind_eq_ok] at read
    obtain ⟨_, _, _, head, tail⟩ := read
    obtain ⟨value, decoded⟩ := first.value head
    obtain ⟨changed, remaining⟩ := later.members (insertEntry name value known') tail
    exact ⟨changed, by simp [Reading.members, decodeString, decoded, remaining, bind, Except.bind]⟩
termination_by structural each

end

mutual

theorem Becomes.skip {before after : Reading} (becomes : Becomes index before after) :
    after.skip = .ok ⟨⟩ := by
  match becomes with
  | .null | .bool _ | .number _ | .string _ => rfl
  | .array each => exact skip_array_eq_ok.mpr ⟨each.skip, rfl⟩
  | .object each => exact skip_object_eq_ok.mpr ⟨each.skip, rfl⟩
termination_by structural becomes

theorem ItemsBecome.skip {items others : List Reading} (each : ItemsBecome index items others) :
    Reading.skipItems others = .ok ⟨⟩ := by
  match each with
  | .nil => rfl
  | .cons first later =>
    rw [Reading.skipItems, first.skip, bind_eq_ok]
    exact ⟨⟨⟩, rfl, later.skip⟩
termination_by structural each

theorem MembersBecome.skip {members others : List (Option String × Reading)}
    (each : MembersBecome index members others) : Reading.skipMembers others = .ok ⟨⟩ := by
  match each with
  | .nil => rfl
  | .cons _ first later =>
    rw [Reading.skipMembers, first.skip, bind_eq_ok]
    exact ⟨⟨⟩, rfl, later.skip⟩
termination_by structural each

end

theorem Becomes.whole {before after : Reading} (becomes : Becomes index before after)
    {access : Access} (found : access.whole before = .ok ⟨⟩) : access.whole after = .ok ⟨⟩ := by
  cases access with
  | memory => rfl
  | stream room =>
    simp only [Access.whole, bind_eq_ok] at found ⊢
    obtain ⟨_, read, _⟩ := found
    obtain ⟨value, decoded⟩ := becomes.value read
    exact ⟨value, decoded, rfl⟩

theorem Becomes.pass {before after : Reading} (becomes : Becomes index before after)
    {access : Access} {others : Others} (passed : others.pass access before = .ok ⟨⟩) :
    others.pass access after = .ok ⟨⟩ := by
  cases others with
  | readWhole => exact becomes.whole passed
  | skipped =>
    cases access with
    | memory => rfl
    | stream room => exact becomes.skip

/-- Where a fitting reading is decoded before, it is decoded after, to the changed value. -/
def Follows (index : Int) (fits : Reading → Prop) (decoder : Decoder α)
    (change : α → Except ExpansionError α) : Prop :=
  ∀ access before after value, fits before → Becomes index before after →
    decoder access before = .ok value →
      ∃ changed, decoder access after = .ok changed ∧ change value = .ok changed

theorem follows_string (fits : Reading → Prop) :
    Follows index fits Decoder.string (substitute .standard index) := by
  intro access before after value _ becomes found
  cases becomes with
  | string replaced =>
    cases found
    exact ⟨_, rfl, replaced⟩
  | _ => cases found

theorem Follows.optional {fits : Reading → Prop} {decoder : Decoder α}
    {change : α → Except ExpansionError α} (follows : Follows index fits decoder change) :
    Follows index fits (Decoder.optional decoder) (mapOption change) := by
  intro access before after value fit becomes found
  have lift : ∀ {value}, some <$> decoder access before = .ok value →
      ∃ changed, some <$> decoder access after = .ok changed ∧ mapOption change value = .ok changed := by
    intro value found
    obtain ⟨read, decoded, rfl⟩ := map_eq_ok.mp found
    obtain ⟨changed, again, same⟩ := follows _ _ _ _ fit becomes decoded
    exact ⟨some changed, map_eq_ok.mpr ⟨_, again, rfl⟩, mapOption_eq_some.mpr ⟨_, rfl, same⟩⟩
  cases becomes with
  | null =>
    cases found
    exact ⟨none, rfl, rfl⟩
  | _ => exact lift found

theorem Follows.each {fits : Reading → Prop} {decoder : Decoder α}
    {change : α → Except ExpansionError α} (follows : Follows index fits decoder change)
    {access : Access} {items others : List Reading} {values : List α}
    (fit : ∀ item ∈ items, fits item) (become : ItemsBecome index items others)
    (found : Decoder.each decoder access items = .ok values) :
    ∃ changed, Decoder.each decoder access others = .ok changed ∧ mapList change values = .ok changed := by
  induction items generalizing others values with
  | nil =>
    cases become
    cases found
    exact ⟨[], rfl, rfl⟩
  | cons item rest ih =>
    cases become with
    | cons first later =>
      simp only [Decoder.each, bind_eq_ok, pure, Except.pure, Except.ok.injEq] at found ⊢
      obtain ⟨value, head, values, tail, rfl⟩ := found
      obtain ⟨changed, decoded, same⟩ := follows _ _ _ _ (fit item (by simp)) first head
      obtain ⟨others, remaining, last⟩ := ih (fun other member => fit other (by simp [member])) later tail
      exact ⟨changed :: others, ⟨_, decoded, _, remaining, rfl⟩,
        mapList_cons_eq_ok.mpr ⟨_, _, same, last, rfl⟩⟩

theorem Follows.list {fits inner : Reading → Prop} {decoder : Decoder α}
    {change : α → Except ExpansionError α} (follows : Follows index inner decoder change)
    (fit : ∀ items ending, fits (.array items ending) → ∀ item ∈ items, inner item) :
    Follows index fits (Decoder.list decoder) (mapList change) := by
  intro access before after values fitting becomes found
  cases becomes with
  | array each =>
    simp only [Decoder.list, bind_eq_ok, pure, Except.pure, Except.ok.injEq] at found ⊢
    obtain ⟨below, entered, read, decoded, _, ended, rfl⟩ := found
    obtain ⟨changed, again, same⟩ := follows.each (fit _ _ fitting) each decoded
    exact ⟨changed, ⟨below, entered, changed, again, ⟨⟩, rfl, rfl⟩, same⟩
  | _ => cases found

section Entries

def readEntry (decoder : Decoder α) (access : Access) (member : Option String × Reading) :
    Except Fault (String × α) := do
  let key ← decodeString member.1
  let value ← decoder access member.2
  return (key, value)

theorem readEntry_eq_ok {decoder : Decoder α} {access : Access} {key : Option String}
    {value : Reading} {entry : String × α} :
    readEntry decoder access (key, value) = .ok entry ↔
      key = some entry.1 ∧ decoder access value = .ok entry.2 := by
  simp only [readEntry, bind_eq_ok, pure, Except.pure, Except.ok.injEq]
  constructor
  · intro given
    obtain ⟨text, present, decoded, found, rfl⟩ := given
    cases key with
    | none => cases present
    | some key =>
      cases present
      exact ⟨rfl, found⟩
  · intro given
    obtain ⟨rfl, found⟩ := given
    exact ⟨_, rfl, _, found, rfl⟩

theorem eachEntry_eq_ok {decoder : Decoder α} {access : Access} {known table : Keyed String α}
    {members : List (Option String × Reading)} :
    Decoder.eachEntry decoder access known members = .ok table ↔
      ∃ entries, mapList (readEntry decoder access) members = .ok entries ∧
        table = entries.foldl (fun table entry => table.insert entry.1 entry.2) known := by
  induction members generalizing known with
  | nil => simp [Decoder.eachEntry, mapList, eq_comm]
  | cons member rest ih =>
    obtain ⟨key, value⟩ := member
    simp only [Decoder.eachEntry, bind_eq_ok, ih, mapList_cons_eq_ok]
    constructor
    · intro given
      obtain ⟨text, present, decoded, found, entries, read, rfl⟩ := given
      refine ⟨(text, decoded) :: entries, ⟨(text, decoded), entries, ?_, read, rfl⟩, rfl⟩
      simp [readEntry, present, found, bind, Except.bind, pure, Except.pure]
    · intro given
      obtain ⟨_, ⟨⟨text, decoded⟩, entries, first, read, rfl⟩, rfl⟩ := given
      obtain ⟨rfl, found⟩ := readEntry_eq_ok.mp first
      exact ⟨text, rfl, decoded, found, entries, read, rfl⟩

theorem keys_of_readEntry {decoder : Decoder α} {access : Access}
    {members : List (Option String × Reading)} {entries : List (String × α)}
    (read : mapList (readEntry decoder access) members = .ok entries) :
    members.map Prod.fst = (entries.map Prod.fst).map some := by
  induction members generalizing entries with
  | nil => rw [mapList_nil_eq_ok.mp read]; rfl
  | cons member rest ih =>
    obtain ⟨key, value⟩ := member
    obtain ⟨entry, entries, first, others, rfl⟩ := mapList_cons_eq_ok.mp read
    obtain ⟨rfl, _⟩ := readEntry_eq_ok.mp first
    rw [List.map_cons, ih others, List.map_cons, List.map_cons]

/-- Changes an entry, its value before its key. -/
def changeEntry (index : Int) (change : α → Except ExpansionError α) (entry : String × α) :
    Except ExpansionError (String × α) := do
  let value ← change entry.2
  let key ← substitute .standard index entry.1
  return (key, value)

theorem Follows.entries {fits : Reading → Prop} {decoder : Decoder α}
    {change : α → Except ExpansionError α} (follows : Follows index fits decoder change)
    (fit : ∀ reading, fits reading) {access : Access} {members others : List (Option String × Reading)}
    (become : MembersBecome index members others) {entries : List (String × α)}
    (found : mapList (readEntry decoder access) members = .ok entries) :
    ∃ changed, mapList (readEntry decoder access) others = .ok changed ∧
      mapList (changeEntry index change) entries = .ok changed := by
  induction members generalizing others entries with
  | nil =>
    cases become
    cases found
    exact ⟨[], rfl, rfl⟩
  | cons member rest ih =>
    cases become with
    | cons replaced first later =>
      obtain ⟨⟨key, value⟩, entries, head, tail, rfl⟩ := mapList_cons_eq_ok.mp found
      obtain ⟨same, decoded⟩ := readEntry_eq_ok.mp head
      cases same
      obtain ⟨changed, again, same⟩ := follows _ _ _ _ (fit _) first decoded
      obtain ⟨others, remaining, last⟩ := ih later tail
      refine ⟨(_, changed) :: others,
        mapList_cons_eq_ok.mpr ⟨_, _, readEntry_eq_ok.mpr ⟨rfl, again⟩, remaining, rfl⟩,
        mapList_cons_eq_ok.mpr ⟨_, _, ?_, last, rfl⟩⟩
      simp [changeEntry, same, replaced, bind, Except.bind, pure, Except.pure]

/-- Keys may become equal, and then the table after is the one that the changed entries make. -/
theorem Follows.keyed {inner fits : Reading → Prop} {decoder : Decoder α}
    {change : α → Except ExpansionError α} (follows : Follows index inner decoder change)
    (fit : ∀ reading, inner reading)
    (distinct : ∀ members ending, fits (.object members ending) → (members.map Prod.fst).Nodup) :
    Follows index fits (Decoder.keyed decoder)
      fun table => Keyed.ofList <$> mapList (changeEntry index change) table.entries := by
  intro access before after table fitting becomes found
  cases becomes with
  | object each =>
    simp only [Decoder.keyed, bind_eq_ok, eachEntry_eq_ok, pure, Except.pure, Except.ok.injEq] at found ⊢
    obtain ⟨below, entered, read, ⟨entries, decoded, rfl⟩, _, ended, rfl⟩ := found
    obtain ⟨changed, again, same⟩ := follows.entries fit each decoded
    have apart : (entries.map Prod.fst).Nodup := by
      have keys := distinct _ _ fitting
      rw [keys_of_readEntry decoded] at keys
      exact List.Nodup.of_map some keys
    have order : (entries.foldl (fun table entry => table.insert entry.1 entry.2)
        (∅ : Keyed String α)).entries = entries := Keyed.entries_ofList apart
    exact ⟨Keyed.ofList changed, ⟨below, entered, _, ⟨changed, again, rfl⟩, ⟨⟩, rfl, rfl⟩,
      by rw [order, same]; rfl⟩
  | _ => cases found

end Entries

section Records

/-- A field that changes the record after as it did before. -/
def FieldFollows (index : Int) (fits : Reading → Prop) (field : RecordField σ)
    (change : σ → Except ExpansionError σ) : Prop :=
  ∀ access before after step, fits before → Becomes index before after →
    field.read access before = .ok step →
      ∃ next, field.read access after = .ok next ∧
        ∀ old new, change old = .ok new → change (step old) = .ok (next new)

theorem Follows.of {fits : Reading → Prop} {decoder : Decoder α}
    {inner : α → Except ExpansionError α} {change : σ → Except ExpansionError σ}
    (follows : Follows index fits decoder inner) (name : String) {write : α → σ → σ}
    (writes : ∀ value changed old new, inner value = .ok changed → change old = .ok new →
      change (write value old) = .ok (write changed new)) :
    FieldFollows index fits (.of name decoder write) change := by
  intro access before after step fit becomes found
  obtain ⟨value, decoded, rfl⟩ := map_eq_ok.mp found
  obtain ⟨changed, again, same⟩ := follows _ _ _ _ fit becomes decoded
  exact ⟨write changed, map_eq_ok.mpr ⟨_, again, rfl⟩, fun old new => writes _ _ _ _ same⟩

/-- A member of a record, which is written as an object or as an array of its fields. -/
inductive Member (names : List String) : Reading → String → Reading → Prop where
  | object {members : List (Option String × Reading)} {ending : Option Break} {name : String}
      {value : Reading} (member : (some name, value) ∈ members) :
      Member names (.object members ending) name value
  | array {items : List Reading} {ending : Option Break} {name : String} {value : Reading}
      (place : (name, value) ∈ names.zip items) : Member names (.array items ending) name value

variable {fields : List (RecordField σ)} {fits : String → Reading → Prop}
  {change : σ → Except ExpansionError σ}

theorem find_steady (steady : ∀ field ∈ fields, Steady field.name) {key name : String}
    (replaced : substitute .standard index key = .ok name) :
    fields.find? (·.name = name) = fields.find? (·.name = key) := by
  induction fields with
  | nil => rfl
  | cons field fields ih =>
    obtain ⟨first, others⟩ := List.forall_mem_cons.mp steady
    have same : field.name = name ↔ field.name = key := by
      rw [eq_comm, first index key name replaced, eq_comm]
    simp only [List.find?_cons, same, ih others]

theorem readMembers_follows (steady : ∀ field ∈ fields, Steady field.name)
    (follows : ∀ field ∈ fields, FieldFollows index (fits field.name) field change)
    {others : Others} {access : Access} {seen : List String} {old new : σ}
    {result : List String × σ} {members after : List (Option String × Reading)}
    (fit : ∀ name value, (some name, value) ∈ members → fits name value)
    (become : MembersBecome index members after) (start : change old = .ok new)
    (read : readMembers fields others access seen old members = .ok result) :
    ∃ changed, readMembers fields others access seen new after = .ok (result.1, changed) ∧
      change result.2 = .ok changed := by
  induction members generalizing after seen old new with
  | nil =>
    cases become
    cases read
    exact ⟨new, rfl, start⟩
  | cons member rest ih =>
    cases become with
    | @cons key name value other _ _ replaced first later =>
      have remaining : ∀ name value, (some name, value) ∈ rest → fits name value :=
        fun name value inside => fit name value (by simp [inside])
      have asked := find_steady steady replaced
      obtain ⟨_, ⟨⟩, ⟨unknown, passed, tail⟩ | ⟨field, step, found, unseen, head, tail⟩⟩ :=
        readMembers_cons_eq_ok.mp read
      · obtain ⟨changed, again, same⟩ := ih remaining later start tail
        exact ⟨changed, readMembers_cons_eq_ok.mpr
          ⟨name, rfl, .inl ⟨asked.trans unknown, first.pass passed, again⟩⟩, same⟩
      · have known := List.mem_of_find?_eq_some found
        have named : field.name = key := by simpa using List.find?_some found
        have kept : name = key := by
          rw [← named, steady field known index key name replaced, named]
        subst kept
        have fitting : fits field.name value := named ▸ fit name value List.mem_cons_self
        obtain ⟨next, decoded, steps⟩ := follows field known _ _ _ _ fitting first head
        obtain ⟨changed, again, same⟩ := ih remaining later (steps _ _ start) tail
        exact ⟨changed, readMembers_cons_eq_ok.mpr
          ⟨name, rfl, .inr ⟨field, next, found, unseen, decoded, again⟩⟩, same⟩

theorem readItems_follows (follows : ∀ field ∈ fields, FieldFollows index (fits field.name) field change)
    {access : Access} {seen : List String} {old new : σ} {result : List String × σ}
    {items after : List Reading}
    (fit : ∀ name value, (name, value) ∈ (fields.map (·.name)).zip items → fits name value)
    (become : ItemsBecome index items after) (start : change old = .ok new)
    (read : readItems access seen old fields items = .ok result) :
    ∃ changed, readItems access seen new fields after = .ok (result.1, changed) ∧
      change result.2 = .ok changed := by
  induction items generalizing fields after seen old new with
  | nil =>
    cases become
    cases fields <;> cases read <;> exact ⟨new, rfl, start⟩
  | cons item rest ih =>
    cases become with
    | cons first later =>
      cases fields with
      | nil => cases read
      | cons field fields =>
        obtain ⟨here, others⟩ := List.forall_mem_cons.mp follows
        simp only [readItems, bind_eq_ok] at read ⊢
        obtain ⟨step, head, tail⟩ := read
        obtain ⟨next, decoded, steps⟩ := here _ _ _ _ (fit _ _ (by simp)) first head
        obtain ⟨changed, again, same⟩ := ih others (fun name value inside => fit name value (by simp [inside]))
          later (steps _ _ start) tail
        exact ⟨changed, ⟨next, decoded, again⟩, same⟩

/-- Fields that follow a change where the members of a record fit them. -/
structure FieldsFollow (index : Int) (whole : Reading → Prop) (fields : List (RecordField σ))
    (fits : String → Reading → Prop) (change : σ → Except ExpansionError σ) : Prop where
  steady : ∀ field ∈ fields, Steady field.name
  follows : ∀ field ∈ fields, FieldFollows index (fits field.name) field change
  fit : ∀ reading name value, whole reading → Member (fields.map (·.name)) reading name value →
    fits name value

/-- Records follow when their fields do and their defaults stay. -/
theorem FieldsFollow.record {whole : Reading → Prop} (each : FieldsFollow index whole fields fits change)
    {start : σ} (kept : change start = .ok start) (required : List String) :
    Follows index whole (Decoder.record fields start required) change := by
  intro access before after value fitting becomes found
  cases becomes with
  | array items =>
    simp only [Decoder.record, bind_eq_ok, pure, Except.pure, Except.ok.injEq] at found ⊢
    obtain ⟨below, entered, ⟨seen, last⟩, read, _, _, _, complete, rfl⟩ := found
    obtain ⟨changed, again, same⟩ := readItems_follows each.follows
      (fun name value place => each.fit _ name value fitting (.array place)) items kept read
    exact ⟨changed, ⟨below, entered, (seen, changed), again, ⟨⟩, rfl, ⟨⟩, complete, rfl⟩, same⟩
  | object members =>
    simp only [Decoder.record, bind_eq_ok, pure, Except.pure, Except.ok.injEq] at found ⊢
    obtain ⟨below, entered, ⟨seen, last⟩, read, _, _, _, complete, rfl⟩ := found
    obtain ⟨changed, again, same⟩ := readMembers_follows each.steady each.follows
      (fun name value member => each.fit _ name value fitting (.object member)) members kept read
    exact ⟨changed, ⟨below, entered, (seen, changed), again, ⟨⟩, rfl, ⟨⟩, complete, rfl⟩, same⟩
  | _ => cases found

/-- Both records of a joined object follow, each with its own members. -/
theorem FieldsFollow.joined {shared : List (RecordField τ)} {sharedFits : String → Reading → Prop}
    {sharedChange : τ → Except ExpansionError τ} {whole : Reading → Prop}
    (each : FieldsFollow index whole fields fits change)
    (others : FieldsFollow index whole shared sharedFits sharedChange)
    {start : σ} {sharedStart : τ} (kept : change start = .ok start)
    (sharedKept : sharedChange sharedStart = .ok sharedStart) (required : List String) :
    Follows index whole (Decoder.joined fields start required shared sharedStart)
      fun pair => do return (← change pair.1, ← sharedChange pair.2) := by
  intro access before after value fitting becomes found
  cases becomes with
  | object members =>
    simp only [Decoder.joined, bind_eq_ok, pure, Except.pure, Except.ok.injEq] at found ⊢
    obtain ⟨below, entered, ⟨seen, first⟩, read, _, _, _, complete, ⟨_, second⟩, joined, rfl⟩ := found
    obtain ⟨changed, again, same⟩ := readMembers_follows each.steady each.follows
      (fun name value member => each.fit _ name value fitting (.object member)) members kept read
    obtain ⟨last, sharedAgain, sharedSame⟩ := readMembers_follows others.steady others.follows
      (fun name value member => others.fit _ name value fitting (.object member)) members sharedKept joined
    exact ⟨(changed, last), ⟨below, entered, (seen, changed), again, ⟨⟩, rfl, ⟨⟩, complete,
      (_, last), sharedAgain, rfl⟩, ⟨changed, same, last, sharedSame, rfl⟩⟩
  | _ => cases found

end Records

end Pagewright.Expansion
