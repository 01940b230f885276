import Mathlib.Data.List.Nodup
import Pagewright.Proofs.Json.Carried
import Pagewright.Proofs.Json.Grammar
import Pagewright.Proofs.Json.Printed

/-! A document that has been read, printed and read again. The printed text has each key once, at
its first place and with its last value, and is read as the same value. Every decoder that accepts
the document as it was first written gets the same from the printed one. -/

namespace Pagewright.Json

variable {α σ : Type} {room : Nat} {value : Value}

section Spelled

theorem spelled_items {items : List Value} (each : ∀ item ∈ items, Spelled (.value item.reading) item.tokens) :
    Spelled (.laterItems (itemReadings items)) (itemTokens items) := by
  induction items with
  | nil => exact .noItem
  | cons item items ih =>
    obtain ⟨first, others⟩ := List.forall_mem_cons.mp each
    exact .nextItem first (ih others)

theorem spelled_members {members : List (String × Value)}
    (each : ∀ member ∈ members, Spelled (.value member.2.reading) member.2.tokens) :
    Spelled (.laterMembers (memberReadings members)) (memberTokens members) := by
  induction members with
  | nil => exact .noMember
  | cons member members ih =>
    obtain ⟨first, others⟩ := List.forall_mem_cons.mp each
    exact .nextMember first (ih others)

/-- A value is printed as its reading is spelled. -/
theorem Storable.spelled (storable : Storable room value) : Spelled (.value value.reading) value.tokens := by
  induction storable with
  | null => exact .null
  | bool truth => exact .bool truth
  | number whole => exact .number _
  | string text => exact .string (some text)
  | @array room items _ ih =>
    cases items with
    | nil => exact .emptyArray
    | cons item items =>
      obtain ⟨first, others⟩ := List.forall_mem_cons.mp ih
      exact .array first (spelled_items others)
  | @object room members _ _ ih =>
    cases members with
    | nil => exact .emptyObject
    | cons member members =>
      obtain ⟨first, others⟩ := List.forall_mem_cons.mp ih
      exact .object first (spelled_members others)

/-- The document that a printed value is. -/
theorem Storable.ofText_print (storable : Storable room value) (layout : Layout) :
    Document.ofText (value.print layout) = ⟨value.reading, false⟩ := by
  have ends : Text.Stops continuesNumber [] := nofun
  have scans : Scans layout value := storable.scans
  have scanned := scans 0 [] ends
  have stop : tokensAfter 0 [] = [] := rfl
  rw [List.append_nil, stop, List.append_nil] at scanned
  refine StandsFor.ofText (.of ?_ storable.spelled)
  rw [Value.print, String.toList_ofList, tokens, scanned]

end Spelled

section Read

theorem value_of_readings {items : List Value} (each : ∀ item ∈ items, item.reading.value room = .ok item) :
    Reading.items room (itemReadings items) = .ok items := by
  induction items with
  | nil => rfl
  | cons item items ih =>
    obtain ⟨first, others⟩ := List.forall_mem_cons.mp each
    simp [itemReadings, Reading.items, first, ih others, bind, Except.bind, pure, Except.pure]

theorem value_of_memberReadings {known members : List (String × Value)}
    (distinct : ((known ++ members).map Prod.fst).Nodup)
    (each : ∀ member ∈ members, member.2.reading.value room = .ok member.2) :
    Reading.members room known (memberReadings members) = .ok (known ++ members) := by
  induction members generalizing known with
  | nil => rw [List.append_nil]; rfl
  | cons member members ih =>
    obtain ⟨key, value⟩ := member
    obtain ⟨first, others⟩ := List.forall_mem_cons.mp each
    have new : key ∉ known.map Prod.fst := by
      rw [List.map_append, List.nodup_append] at distinct
      exact fun inside => distinct.2.2 _ inside _ List.mem_cons_self rfl
    have again := @ih (known ++ [(key, value)]) (by simpa using distinct) others
    simp only [memberReadings, Reading.members, decodeString, first, bind, Except.bind,
      insertEntry_of_new new]
    simpa using again

/-- A printed value is read as the value it was printed from. -/
theorem Storable.value_reading (storable : Storable room value) : value.reading.value room = .ok value := by
  induction storable with
  | null | bool | string => rfl
  | @number room number whole =>
    simp [Value.reading, Reading.value, decodeNumber, value_literal whole, bind, Except.bind, pure, Except.pure]
  | array _ ih => exact value_array_eq_ok.mpr ⟨by omega, rfl, _, value_of_readings ih, rfl⟩
  | object distinct _ ih =>
    exact value_object_eq_ok.mpr ⟨by omega, rfl, _, value_of_memberReadings distinct ih, rfl⟩

mutual

/-- The number literals of a reading. -/
def Reading.numbers : Reading → List Literal
  | .number literal => [literal]
  | .array items _ => itemNumbers items
  | .object members _ => memberNumbers members
  | .null | .bool _ | .string _ | .broken _ => []

def itemNumbers : List Reading → List Literal
  | [] => []
  | item :: rest => item.numbers ++ itemNumbers rest

def memberNumbers : List (Option String × Reading) → List Literal
  | [] => []
  | (_, value) :: rest => value.numbers ++ memberNumbers rest

end

/-- All number literals are integers of 64 bits. -/
def Reading.WholeNumbers (reading : Reading) : Prop := ∀ literal ∈ reading.numbers, literal.IsWhole

instance (reading : Reading) : Decidable reading.WholeNumbers :=
  inferInstanceAs (Decidable (∀ literal ∈ reading.numbers, literal.IsWhole))

theorem mem_itemNumbers {items : List Reading} {item : Reading} (member : item ∈ items) :
    item.numbers ⊆ itemNumbers items := by
  induction items with
  | nil => cases member
  | cons first rest ih =>
    rw [itemNumbers]
    rcases List.mem_cons.mp member with rfl | later
    · exact List.subset_append_left _ _
    · exact List.Subset.trans (ih later) (List.subset_append_right _ _)

theorem mem_memberNumbers {members : List (Option String × Reading)} {key : Option String} {value : Reading}
    (member : (key, value) ∈ members) : value.numbers ⊆ memberNumbers members := by
  induction members with
  | nil => cases member
  | cons first rest ih =>
    obtain ⟨firstKey, firstValue⟩ := first
    rw [memberNumbers]
    rcases List.mem_cons.mp member with same | later
    · cases same
      exact List.subset_append_left _ _
    · exact List.Subset.trans (ih later) (List.subset_append_right _ _)

theorem Reading.WholeNumbers.item {items : List Reading} {ending : Option Break}
    (whole : (Reading.array items ending).WholeNumbers) {item : Reading} (member : item ∈ items) :
    item.WholeNumbers :=
  fun literal inside => whole literal (mem_itemNumbers member inside)

theorem Reading.WholeNumbers.member {members : List (Option String × Reading)} {ending : Option Break}
    (whole : (Reading.object members ending).WholeNumbers) {key : Option String} {value : Reading}
    (member : (key, value) ∈ members) : value.WholeNumbers :=
  fun literal inside => whole literal (mem_memberNumbers member inside)

mutual

/-- What is read of a document can be stored, where its numbers keep all their digits. -/
theorem storable_of_value {reading : Reading} {room : Nat} {value : Value}
    (found : reading.value room = .ok value) (whole : reading.WholeNumbers) : Storable room value := by
  match reading with
  | .null =>
    cases found
    exact .null
  | .bool truth =>
    cases found
    exact .bool truth
  | .number literal =>
    obtain ⟨number, decoded, same⟩ := bind_eq_ok.mp found
    cases same
    have given : literal.value = some number := by
      unfold decodeNumber at decoded
      split at decoded <;> cases decoded
      assumption
    exact .number (isWhole_of_value (whole literal List.mem_cons_self) given)
  | .string text =>
    obtain ⟨text, _, same⟩ := bind_eq_ok.mp found
    cases same
    exact .string text
  | .array items ending =>
    obtain ⟨space, rfl, values, read, rfl⟩ := value_array_eq_ok.mp found
    obtain ⟨room, rfl⟩ := Nat.exists_eq_succ_of_ne_zero space
    exact .array (storable_items read fun item member => whole.item member)
  | .object members ending =>
    obtain ⟨space, rfl, values, read, rfl⟩ := value_object_eq_ok.mp found
    obtain ⟨room, rfl⟩ := Nat.exists_eq_succ_of_ne_zero space
    have stored := storable_members ∅ read (fun key value member => whole.member member) nofun
    exact .object stored.1 stored.2

theorem storable_items {items : List Reading} {room : Nat} {values : List Value}
    (read : Reading.items room items = .ok values) (whole : ∀ item ∈ items, item.WholeNumbers) :
    ∀ value ∈ values, Storable room value := by
  match items with
  | [] =>
    cases read
    nofun
  | item :: rest =>
    simp only [Reading.items, bind_eq_ok, pure, Except.pure, Except.ok.injEq] at read
    obtain ⟨first, head, others, tail, rfl⟩ := read
    obtain ⟨here, later⟩ := List.forall_mem_cons.mp whole
    exact List.forall_mem_cons.mpr ⟨storable_of_value head here, storable_items tail later⟩

theorem storable_members {members : List (Option String × Reading)} {room : Nat} (known : Keyed String Value)
    {found : List (String × Value)} (read : Reading.members room known.entries members = .ok found)
    (whole : ∀ key value, (key, value) ∈ members → value.WholeNumbers)
    (stored : ∀ entry ∈ known.entries, Storable room entry.2) :
    (found.map Prod.fst).Nodup ∧ ∀ entry ∈ found, Storable room entry.2 := by
  match members with
  | [] =>
    cases read
    exact ⟨known.distinct, stored⟩
  | (key, reading) :: rest =>
    simp only [Reading.members, bind_eq_ok] at read
    obtain ⟨text, _, value, head, tail⟩ := read
    have here := storable_of_value head (whole key reading List.mem_cons_self)
    refine storable_members (known.insert text value) tail
      (fun key value member => whole key value (List.mem_cons_of_mem _ member)) ?_
    intro entry member
    rcases mem_insertEntry member with rfl | old
    · exact here
    · exact stored entry old

end

end Read

section Merged

variable {fields : List (RecordField σ)} {others : Others} {access : Access} {seen : List String} {start : σ}
  {result : List String × σ} {front back : List (Option String × Reading)} {name : String}
  {reading printed : Reading}

/-- A member that no field asks for adds nothing to a record. -/
theorem readMembers_drop (unknown : fields.find? (·.name = name) = none)
    (read : readMembers fields others access seen start (front ++ (some name, reading) :: back) = .ok result) :
    readMembers fields others access seen start (front ++ back) = .ok result := by
  induction front generalizing seen start with
  | nil =>
    obtain ⟨_, ⟨⟩, ⟨_, _, tail⟩ | ⟨field, _, asked, _⟩⟩ := readMembers_cons_eq_ok.mp read
    · exact tail
    · cases unknown.symm.trans asked
  | cons member front ih =>
    obtain ⟨key, value⟩ := member
    obtain ⟨text, rfl, ⟨other, passed, tail⟩ | ⟨field, change, asked, unseen, head, tail⟩⟩ :=
      readMembers_cons_eq_ok.mp read
    · exact readMembers_cons_eq_ok.mpr ⟨text, rfl, .inl ⟨other, passed, ih tail⟩⟩
    · exact readMembers_cons_eq_ok.mpr ⟨text, rfl, .inr ⟨field, change, asked, unseen, head, ih tail⟩⟩

/-- A field is given once. -/
theorem not_mem_of_seen {field : RecordField σ} (known : fields.find? (·.name = name) = some field)
    (given : name ∈ seen) {members : List (Option String × Reading)}
    (read : readMembers fields others access seen start members = .ok result) :
    ∀ value, (some name, value) ∉ members := by
  induction members generalizing seen start with
  | nil => simp
  | cons member rest ih =>
    obtain ⟨key, reading⟩ := member
    intro value member
    obtain ⟨text, rfl, ⟨unknown, _, tail⟩ | ⟨other, change, asked, unseen, _, tail⟩⟩ :=
      readMembers_cons_eq_ok.mp read
    · rcases List.mem_cons.mp member with same | later
      · cases same
        cases known.symm.trans unknown
      · exact ih given tail value later
    · rcases List.mem_cons.mp member with same | later
      · cases same
        exact unseen given
      · exact ih (List.mem_cons_of_mem _ given) tail value later

/-- A member may be written over an earlier one with its key, since only members that no field asks
for come twice. -/
theorem readMembers_insert
    (carries : ∀ field ∈ fields, ∀ change, field.read access reading = .ok change →
      field.read access printed = .ok change)
    (passed : others.pass access printed = .ok ⟨⟩)
    (read : readMembers fields others access seen start (front ++ (some name, reading) :: back) = .ok result) :
    readMembers fields others access seen start (insertEntry (some name) printed front ++ back) =
      .ok result := by
  induction front generalizing seen start with
  | nil =>
    obtain ⟨_, ⟨⟩, ⟨unknown, _, tail⟩ | ⟨field, change, asked, unseen, head, tail⟩⟩ :=
      readMembers_cons_eq_ok.mp read
    · exact readMembers_cons_eq_ok.mpr ⟨name, rfl, .inl ⟨unknown, passed, tail⟩⟩
    · have changes := carries field (List.mem_of_find?_eq_some asked) change head
      exact readMembers_cons_eq_ok.mpr ⟨name, rfl, .inr ⟨field, change, asked, unseen, changes, tail⟩⟩
  | cons member front ih =>
    obtain ⟨key, value⟩ := member
    obtain ⟨text, rfl, step⟩ := readMembers_cons_eq_ok.mp read
    by_cases same : text = name
    · subst same
      rw [insertEntry, if_pos rfl]
      rcases step with ⟨unknown, _, tail⟩ | ⟨field, change, asked, _, _, tail⟩
      · exact readMembers_cons_eq_ok.mpr ⟨text, rfl, .inl ⟨unknown, passed, readMembers_drop unknown tail⟩⟩
      · exact absurd (List.mem_append_right _ List.mem_cons_self)
          (not_mem_of_seen asked List.mem_cons_self tail reading)
    · rw [insertEntry, if_neg (by simpa using same)]
      refine readMembers_cons_eq_ok.mpr ⟨text, rfl, ?_⟩
      rcases step with ⟨unknown, here, tail⟩ | ⟨field, change, asked, unseen, head, tail⟩
      · exact .inl ⟨unknown, here, ih tail⟩
      · exact .inr ⟨field, change, asked, unseen, head, ih tail⟩

variable {decoder : Decoder α} {known table : Keyed String α}

theorem decoded_of_eachEntry {members : List (Option String × Reading)}
    (read : Decoder.eachEntry decoder access known members = .ok table) {member : Option String × Reading}
    (inside : member ∈ members) : ∃ value, decoder access member.2 = .ok value := by
  induction members generalizing known with
  | nil => cases inside
  | cons first rest ih =>
    simp only [Decoder.eachEntry, bind_eq_ok] at read
    obtain ⟨_, _, value, head, tail⟩ := read
    rcases List.mem_cons.mp inside with rfl | later
    · exact ⟨value, head⟩
    · exact ih tail later

/-- An entry under a key that is there already may be made at once. -/
theorem eachEntry_overwrite {found : α} (decoded : decoder access reading = .ok found)
    (apart : some name ∉ front.map Prod.fst) (present : name ∈ known.entries.map Prod.fst)
    (read : Decoder.eachEntry decoder access known (front ++ (some name, reading) :: back) = .ok table) :
    Decoder.eachEntry decoder access (known.insert name found) (front ++ back) = .ok table := by
  induction front generalizing known with
  | nil =>
    simp only [List.nil_append, Decoder.eachEntry, decodeString, bind_eq_ok, Except.ok.injEq] at read
    obtain ⟨_, rfl, _, again, tail⟩ := read
    cases decoded.symm.trans again
    exact tail
  | cons member front ih =>
    obtain ⟨key, value⟩ := member
    simp only [List.cons_append, Decoder.eachEntry, bind_eq_ok] at read ⊢
    obtain ⟨text, same, value, head, tail⟩ := read
    have different : text ≠ name := by
      rintro rfl
      cases key <;> cases same
      exact apart List.mem_cons_self
    have still : name ∈ (known.insert text value).entries.map Prod.fst :=
      mem_keys_insertEntry.mpr (.inr present)
    have swapped : (known.insert text value).insert name found = (known.insert name found).insert text value :=
      Keyed.ext (insertEntry_comm different present).symm
    refine ⟨text, same, value, head, swapped ▸ ih (fun later => apart (List.mem_cons_of_mem _ later)) still tail⟩

theorem eachEntry_insert (distinct : (front.map Prod.fst).Nodup)
    (carries : ∀ value, decoder access reading = .ok value → decoder access printed = .ok value)
    (read : Decoder.eachEntry decoder access known (front ++ (some name, reading) :: back) = .ok table) :
    Decoder.eachEntry decoder access known (insertEntry (some name) printed front ++ back) = .ok table := by
  induction front generalizing known with
  | nil =>
    simp only [List.nil_append, insertEntry, List.cons_append, Decoder.eachEntry, bind_eq_ok] at read ⊢
    obtain ⟨text, same, value, head, tail⟩ := read
    exact ⟨text, same, value, carries value head, tail⟩
  | cons member front ih =>
    obtain ⟨key, value⟩ := member
    obtain ⟨new, others⟩ := List.nodup_cons.mp distinct
    have given := read
    simp only [List.cons_append, Decoder.eachEntry, bind_eq_ok] at read
    obtain ⟨text, same, old, head, tail⟩ := read
    by_cases here : key = some name
    · subst here
      cases same
      obtain ⟨found, decoded⟩ := decoded_of_eachEntry given (List.mem_append_right _ List.mem_cons_self)
      have present : name ∈ (known.insert name old).entries.map Prod.fst :=
        mem_keys_insertEntry.mpr (.inl rfl)
      have once : (known.insert name old).insert name found = known.insert name found :=
        Keyed.ext (insertEntry_insertEntry _ _ _ _)
      rw [insertEntry, if_pos rfl]
      simp only [List.cons_append, Decoder.eachEntry, decodeString, bind_eq_ok, Except.ok.injEq]
      exact ⟨name, rfl, found, carries found decoded, once ▸ eachEntry_overwrite decoded new present tail⟩
    · rw [insertEntry, if_neg here]
      simp only [List.cons_append, Decoder.eachEntry, bind_eq_ok]
      exact ⟨text, same, old, head, ih others tail⟩

end Merged

section Stored

/-- A document that has been read whole, and what its printed text is read as. -/
def Printed : Correspondence := fun access before other after =>
  other = access ∧ before.WholeNumbers ∧
    ∃ room value, before.value room = .ok value ∧ access.Within room ∧ after = value.reading

theorem Printed.pass {access other : Access} {before after : Reading}
    (printed : Printed access before other after) (others : Others) : others.pass other after = .ok ⟨⟩ := by
  obtain ⟨rfl, whole, room, value, found, within, rfl⟩ := printed
  exact pass_of_value within (storable_of_value found whole).value_reading others

theorem memberReadings_insertEntry (name : String) (value : Value) (members : List (String × Value)) :
    memberReadings (insertEntry name value members) =
      insertEntry (some name) value.reading (memberReadings members) := by
  induction members with
  | nil => rfl
  | cons member members ih =>
    obtain ⟨key, old⟩ := member
    by_cases same : key = name <;> simp [insertEntry, memberReadings, same, ih]

theorem keys_memberReadings (members : List (String × Value)) :
    (memberReadings members).map Prod.fst = (members.map Prod.fst).map some := by
  induction members with
  | nil => rfl
  | cons member members ih => simp [memberReadings, ih]

theorem printed_items {room : Nat} {access : Access} (within : access.Within room) {items : List Reading}
    {values : List Value} (read : Reading.items room items = .ok values)
    (whole : ∀ item ∈ items, item.WholeNumbers) :
    List.Forall₂ (fun item changed => Printed access item access changed) items (itemReadings values) := by
  induction items generalizing values with
  | nil =>
    cases read
    exact .nil
  | cons item items ih =>
    simp only [Reading.items, bind_eq_ok, pure, Except.pure, Except.ok.injEq] at read
    obtain ⟨value, head, others, tail, rfl⟩ := read
    obtain ⟨here, later⟩ := List.forall_mem_cons.mp whole
    exact .cons ⟨rfl, here, room, value, head, within, rfl⟩ (ih tail later)

/-- What a fold over the members keeps while those read so far are replaced by what is printed for
them holds of the printed members. -/
theorem printed_members {room : Nat} {access : Access} (kept : List (Option String × Reading) → Prop)
    (known : Keyed String Value) (within : access.Within room)
    (step : ∀ {front : List (Option String × Reading)} {back name reading printed},
      (front.map Prod.fst).Nodup → Printed access reading access printed →
        kept (front ++ (some name, reading) :: back) → kept (insertEntry (some name) printed front ++ back))
    {members : List (Option String × Reading)} {found : List (String × Value)}
    (read : Reading.members room known.entries members = .ok found)
    (whole : ∀ key value, (key, value) ∈ members → value.WholeNumbers)
    (given : kept (memberReadings known.entries ++ members)) : kept (memberReadings found) := by
  induction members generalizing known with
  | nil =>
    cases read
    rwa [List.append_nil] at given
  | cons member members ih =>
    obtain ⟨key, reading⟩ := member
    simp only [Reading.members, bind_eq_ok] at read
    obtain ⟨name, decoded, value, head, tail⟩ := read
    have named : key = some name := by
      cases key <;> cases decoded
      rfl
    subst named
    have printed : Printed access reading access value.reading :=
      ⟨rfl, whole _ reading List.mem_cons_self, room, value, head, within, rfl⟩
    have distinct : ((memberReadings known.entries).map Prod.fst).Nodup := by
      rw [keys_memberReadings]
      exact List.Nodup.map (fun _ _ => Option.some.inj) known.distinct
    have replaced := step distinct printed given
    rw [← memberReadings_insertEntry] at replaced
    exact @ih (known.insert name value) tail
      (fun key value member => whole key value (List.mem_cons_of_mem _ member)) replaced

theorem Printed.members {room : Nat} {access : Access} (within : access.Within room)
    {members : List (Option String × Reading)} {found : List (String × Value)}
    (read : Reading.members room [] members = .ok found)
    (whole : ∀ key value, (key, value) ∈ members → value.WholeNumbers) :
    MembersCarry Printed access members access (memberReadings found) where
  record fields others seen start result carries given := by
    refine printed_members (readMembers fields others access seen start · = .ok result) ∅ within ?_ read whole
      given
    intro front back name reading printed _ corresponds
    exact readMembers_insert (fun field asked change => carries field asked _ _ _ _ _ corresponds)
      (corresponds.pass others)
  keyed decoder known table carries given := by
    refine printed_members (Decoder.eachEntry decoder access known · = .ok table) ∅ within ?_ read whole given
    intro front back name reading printed distinct corresponds
    exact eachEntry_insert distinct fun value => carries _ _ _ _ value corresponds

theorem conveys_printed : Conveys Printed where
  whole printed := printed.pass .readWhole
  shape := by
    rintro access before _ _ ⟨rfl, whole, room, value, found, within, rfl⟩
    cases before with
    | null =>
      cases found
      exact .null
    | bool value =>
      cases found
      exact .bool value
    | number literal =>
      obtain ⟨number, decoded, same⟩ := bind_eq_ok.mp found
      cases same
      cases storable_of_value found whole with
      | number integral =>
        refine .number (decoded.trans ?_)
        rw [decodeNumber, value_literal integral]
    | string text =>
      obtain ⟨read, decoded, same⟩ := bind_eq_ok.mp found
      cases same
      cases text <;> cases decoded
      exact .string _
    | broken place => cases found
    | array items ending =>
      obtain ⟨space, rfl, values, each, rfl⟩ := value_array_eq_ok.mp found
      refine .array fun below entered => ⟨below, entered, ?_⟩
      obtain ⟨inner, opened, inside⟩ := within.enter space
      cases entered.symm.trans opened
      exact printed_items inside each fun item member => whole.item member
    | object members ending =>
      obtain ⟨space, rfl, values, each, rfl⟩ := value_object_eq_ok.mp found
      have every : ∀ key value, (key, value) ∈ members → value.WholeNumbers := fun _ _ => whole.member
      refine .object (fun below entered => ⟨below, entered, ?_⟩) (Printed.members (.inl rfl) each every)
      obtain ⟨inner, opened, inside⟩ := within.enter space
      cases entered.symm.trans opened
      exact Printed.members inside each every

variable {layout : Layout} {text : String} (stored : Value.ofText text = .ok value)
  (whole : (Document.ofText text).root.WholeNumbers)
include stored whole

/-- A printed value is read as itself. -/
theorem Value.ofText_print : Value.ofText (value.print layout) = .ok value := by
  have storable := storable_of_value (Value.ofText_eq_ok.mp stored).1 whole
  rw [Value.ofText_eq_ok, storable.ofText_print]
  exact ⟨storable.value_reading, rfl⟩

/-- A decoder that accepts a document accepts what is printed for its value, and gives the same. -/
theorem Carries.ofText_print {decoder : Decoder α} (carries : Carries Printed decoder) {found : α}
    (accepted : decoder.ofText text = .ok found) : decoder.ofText (value.print layout) = .ok found := by
  obtain ⟨read, _⟩ := Value.ofText_eq_ok.mp stored
  obtain ⟨decoded, _⟩ := ofText_eq_ok.mp accepted
  rw [ofText_eq_ok, (storable_of_value read whole).ofText_print]
  exact ⟨carries _ _ _ _ found ⟨rfl, whole, nestingLimit, value, read, .inr rfl, rfl⟩ decoded, rfl⟩

end Stored

end Pagewright.Json
