import Mathlib.Data.List.Pairwise
import Pagewright.Proofs.Json.Faulty

/-! Members of an object in another order. A record takes each of its fields once and no field touches what another
one writes, so the order in which they come makes no difference: a record is accepted in both orders or in neither,
and is the same. -/

namespace Pagewright.Json

variable {α β σ τ : Type}

section Agreement

/-- Two results that are the same wherever one of them is a value. -/
def Agree (one other : Except Fault α) : Prop := ∀ value, one = .ok value ↔ other = .ok value

@[simp] theorem Agree.refl (result : Except Fault α) : Agree result result := fun _ => Iff.rfl

theorem Agree.trans {one other last : Except Fault α} (first : Agree one other) (second : Agree other last) :
    Agree one last := fun value => (first value).trans (second value)

theorem Agree.bind {one other : Except Fault α} {next later : α → Except Fault β} (first : Agree one other)
    (second : ∀ value, Agree (next value) (later value)) : Agree (one >>= next) (other >>= later) := by
  intro value
  rw [bind_eq_ok, bind_eq_ok]
  exact exists_congr fun middle => and_congr (first middle) (second middle value)

theorem Agree.map {one other : Except Fault α} (agree : Agree one other) (f : α → β) :
    Agree (f <$> one) (f <$> other) := by
  intro value
  rw [map_eq_ok, map_eq_ok]
  exact exists_congr fun middle => and_congr_left fun _ => agree middle

end Agreement

section Fields

/-- What two fields write does not depend on which comes first. -/
def Commutes (field other : RecordField σ) : Prop :=
  ∀ access value access' value' change change', field.read access value = .ok change →
    other.read access' value' = .ok change' → ∀ start, change (change' start) = change' (change start)

instance : Std.Symm (Commutes (σ := σ)) where
  symm _ _ commutes _ _ _ _ _ _ read read' start := (commutes _ _ _ _ _ _ read' read start).symm

theorem Commutes.of {name other : String} {decoder : Decoder α} {decoder' : Decoder β} {write : α → σ → σ}
    {write' : β → σ → σ} (apart : ∀ value value' start, write value (write' value' start) = write' value' (write value start)) :
    Commutes (.of name decoder write) (.of other decoder' write') := by
  intro access value access' value' change change' read read' start
  obtain ⟨decoded, _, rfl⟩ := map_eq_ok.mp read
  obtain ⟨decoded', _, rfl⟩ := map_eq_ok.mp read'
  exact apart decoded decoded' start

theorem mem_of_find {fields : List (RecordField σ)} {field : RecordField σ} {name : String}
    (found : fields.find? (·.name = name) = some field) : field ∈ fields ∧ field.name = name :=
  ⟨List.mem_of_find?_eq_some found, by simpa using List.find?_some found⟩

theorem commutes_of_find {fields : List (RecordField σ)} (commuting : fields.Pairwise Commutes)
    {field other : RecordField σ} {name name' : String} (found : fields.find? (·.name = name) = some field)
    (found' : fields.find? (·.name = name') = some other) (apart : name ≠ name') : Commutes field other := by
  obtain ⟨member, named⟩ := mem_of_find found
  obtain ⟨member', named'⟩ := mem_of_find found'
  refine commuting.forall member member' fun same => apart ?_
  rw [← named, ← named', same]

end Fields

section Members

variable {fields : List (RecordField σ)} {others : Others} {access : Access}
variable {members middle after : List (Option String × Reading)}

/-- Where a record is read from some members it is also read from the others, and is the same. Of the fields that
have been seen it only counts which they are. -/
def Yields (fields : List (RecordField σ)) (others : Others) (access : Access)
    (members after : List (Option String × Reading)) : Prop :=
  ∀ seen known start result, (∀ name, name ∈ seen ↔ name ∈ known) →
    readMembers fields others access seen start members = .ok result →
      ∃ last, readMembers fields others access known start after = .ok (last, result.2) ∧
        ∀ name, name ∈ result.1 ↔ name ∈ last

theorem Yields.nil : Yields fields others access [] [] := by
  intro seen known start result same read
  cases read
  exact ⟨known, rfl, same⟩

theorem Yields.cons (member : Option String × Reading) (yields : Yields fields others access members after) :
    Yields fields others access (member :: members) (member :: after) := by
  intro seen known start result same read
  obtain ⟨key, value⟩ := member
  obtain ⟨name, rfl, ⟨none, passed, tail⟩ | ⟨field, change, found, new, head, tail⟩⟩ := readMembers_cons_eq_ok.mp read
  · obtain ⟨last, again, alike⟩ := yields _ _ _ _ same tail
    exact ⟨last, readMembers_cons_eq_ok.mpr ⟨name, rfl, .inl ⟨none, passed, again⟩⟩, alike⟩
  · obtain ⟨last, again, alike⟩ := yields _ (name :: known) _ _ (by simp [same]) tail
    exact ⟨last, readMembers_cons_eq_ok.mpr
      ⟨name, rfl, .inr ⟨field, change, found, fun old => new ((same name).mpr old), head, again⟩⟩, alike⟩

theorem Yields.refl (members : List (Option String × Reading)) : Yields fields others access members members := by
  induction members with
  | nil => exact .nil
  | cons member _ ih => exact ih.cons member

theorem Yields.trans (first : Yields fields others access members middle)
    (second : Yields fields others access middle after) : Yields fields others access members after := by
  intro seen known start result same read
  obtain ⟨between, read, alike⟩ := first _ _ _ _ (fun _ => Iff.rfl) read
  obtain ⟨last, read, alike'⟩ := second _ _ _ _ same read
  exact ⟨last, read, fun name => (alike name).trans (alike' name)⟩

/-- Two members next to each other change places. Where both are given to fields, these are different ones. -/
theorem Yields.swap (commuting : fields.Pairwise Commutes) (one other : Option String × Reading)
    (rest : List (Option String × Reading)) : Yields fields others access (other :: one :: rest) (one :: other :: rest) := by
  intro seen known start result same read
  obtain ⟨key, value⟩ := one
  obtain ⟨key', value'⟩ := other
  have tail : Yields fields others access rest rest := .refl rest
  obtain ⟨name', rfl, ⟨none', passed', read⟩ | ⟨field', change', found', new', head', read⟩⟩ :=
    readMembers_cons_eq_ok.mp read
  all_goals
    obtain ⟨name, rfl, ⟨none, passed, read⟩ | ⟨field, change, found, new, head, read⟩⟩ := readMembers_cons_eq_ok.mp read
  · obtain ⟨last, again, alike⟩ := tail _ _ _ _ same read
    refine ⟨last, readMembers_cons_eq_ok.mpr ⟨name, rfl, .inl ⟨none, passed, ?_⟩⟩, alike⟩
    exact readMembers_cons_eq_ok.mpr ⟨name', rfl, .inl ⟨none', passed', again⟩⟩
  · obtain ⟨last, again, alike⟩ := tail _ (name :: known) _ _ (by simp [same]) read
    refine ⟨last, readMembers_cons_eq_ok.mpr ⟨name, rfl, .inr ⟨field, change, found, ?_, head, ?_⟩⟩, alike⟩
    · exact fun old => new ((same name).mpr old)
    · exact readMembers_cons_eq_ok.mpr ⟨name', rfl, .inl ⟨none', passed', again⟩⟩
  · obtain ⟨last, again, alike⟩ := tail _ (name' :: known) _ _ (by simp [same]) read
    refine ⟨last, readMembers_cons_eq_ok.mpr ⟨name, rfl, .inl ⟨none, passed, ?_⟩⟩, alike⟩
    exact readMembers_cons_eq_ok.mpr
      ⟨name', rfl, .inr ⟨field', change', found', fun old => new' ((same name').mpr old), head', again⟩⟩
  · rw [List.mem_cons, not_or] at new
    obtain ⟨last, again, alike⟩ := tail _ (name' :: name :: known) _ _ (by simp [same, or_left_comm]) read
    have commutes := commutes_of_find commuting found found' new.1 _ _ _ _ _ _ head head' start
    refine ⟨last, readMembers_cons_eq_ok.mpr ⟨name, rfl, .inr ⟨field, change, found, ?_, head, ?_⟩⟩, alike⟩
    · exact fun old => new.2 ((same name).mpr old)
    · refine readMembers_cons_eq_ok.mpr ⟨name', rfl, .inr ⟨field', change', found', ?_, head', ?_⟩⟩
      · rw [List.mem_cons, not_or]
        exact ⟨Ne.symm new.1, fun old => new' ((same name').mpr old)⟩
      · rw [← commutes]
        exact again

theorem Yields.of_perm (commuting : fields.Pairwise Commutes) (perm : members.Perm after) :
    Yields fields others access members after := by
  induction perm with
  | nil => exact .nil
  | cons member _ ih => exact ih.cons member
  | swap one other rest => exact .swap commuting one other rest
  | trans _ _ ih ih' => exact ih.trans ih'

end Members

section Inside

variable {fields : List (RecordField σ)} {others : Others} {access : Access} {key : String} {one other : Reading}
variable {decoder : Decoder α}

/-- A member that is read alike can be put in the place of another one. -/
theorem readMembers_member {back : List (Option String × Reading)}
    (passed : others.pass access one = .ok ⟨⟩ ↔ others.pass access other = .ok ⟨⟩)
    (agree : ∀ field ∈ fields, field.name = key → Agree (field.read access one) (field.read access other))
    (front : List (Option String × Reading)) (seen : List String) (start : σ) :
    Agree (readMembers fields others access seen start (front ++ (some key, one) :: back))
      (readMembers fields others access seen start (front ++ (some key, other) :: back)) := by
  induction front generalizing seen start with
  | nil =>
    intro result
    rw [List.nil_append, List.nil_append, readMembers_cons_eq_ok, readMembers_cons_eq_ok]
    refine exists_congr fun name => and_congr_right fun same => ?_
    cases same
    refine or_congr (and_congr_right fun _ => and_congr_left fun _ => passed) ?_
    refine exists_congr fun field => exists_congr fun change => and_congr_right fun found => and_congr_right fun _ => ?_
    obtain ⟨member, named⟩ := mem_of_find found
    exact and_congr_left fun _ => agree field member named change
  | cons member front ih =>
    intro result
    rw [List.cons_append, List.cons_append, readMembers_cons_eq_ok, readMembers_cons_eq_ok]
    refine exists_congr fun name => and_congr_right fun _ => or_congr ?_ ?_
    · exact and_congr_right fun _ => and_congr_right fun _ => ih seen start result
    · refine exists_congr fun field => exists_congr fun change => and_congr_right fun _ => and_congr_right fun _ => ?_
      exact and_congr_right fun _ => ih _ _ result

theorem readItems_item {back : List Reading} (front : List Reading)
    (agree : ∀ field, fields[front.length]? = some field → Agree (field.read access one) (field.read access other))
    (seen : List String) (start : σ) :
    Agree (readItems access seen start fields (front ++ one :: back))
      (readItems access seen start fields (front ++ other :: back)) := by
  induction front generalizing fields seen start with
  | nil =>
    cases fields with
    | nil => exact .refl _
    | cons field fields => exact .bind (agree field rfl) fun _ => .refl _
  | cons item front ih =>
    cases fields with
    | nil => exact .refl _
    | cons field fields => exact .bind (.refl _) fun change => ih agree _ _

theorem each_item {back : List Reading} (agree : Agree (decoder access one) (decoder access other))
    (front : List Reading) :
    Agree (Decoder.each decoder access (front ++ one :: back)) (Decoder.each decoder access (front ++ other :: back)) := by
  induction front with
  | nil => exact .bind agree fun _ => .refl _
  | cons item front ih => exact .bind (.refl _) fun _ => .bind ih fun _ => .refl _

theorem list_item {front back : List Reading} {ending : Option Break}
    (agree : ∀ access, Agree (decoder access one) (decoder access other)) (access : Access) :
    Agree (Decoder.list decoder access (.array (front ++ one :: back) ending))
      (Decoder.list decoder access (.array (front ++ other :: back) ending)) :=
  .bind (.refl _) fun below => .bind (each_item (agree below) front) fun _ => .refl _

end Inside

section Records

variable {fields own : List (RecordField σ)} {shared : List (RecordField τ)} {start value : σ} {startShared value' : τ}
variable {required : List String} {access : Access} {ending : Option Break}
variable {members after : List (Option String × Reading)}

theorem checkRequired_eq_ok {seen : List String} {checked : Unit} :
    checkRequired required seen = .ok checked ↔ ∀ name ∈ required, name ∈ seen := by
  unfold checkRequired
  split
  next all => simpa using all
  next missing => simpa using missing

theorem record_object_eq_ok : Decoder.record fields start required access (.object members ending) = .ok value ↔
    ∃ below seen, access.enter = .ok below ∧ readMembers fields .skipped below [] start members = .ok (seen, value) ∧
      ending = none ∧ ∀ name ∈ required, name ∈ seen := by
  simp only [Decoder.record, bind_eq_ok, checkEnding_eq_ok, checkRequired_eq_ok, pure, Except.pure, Except.ok.injEq]
  constructor
  · rintro ⟨below, entered, ⟨seen, found⟩, read, _, ended, _, complete, rfl⟩
    exact ⟨below, seen, entered, read, ended, complete⟩
  · rintro ⟨below, seen, entered, read, ended, complete⟩
    exact ⟨below, entered, (seen, value), read, ⟨⟩, ended, ⟨⟩, complete, rfl⟩

theorem joined_object_eq_ok :
    Decoder.joined own start required shared startShared access (.object members ending) = .ok (value, value') ↔
      ∃ below seen seen', access.enter = .ok below ∧
        readMembers own .readWhole below [] start members = .ok (seen, value) ∧ ending = none ∧
        (∀ name ∈ required, name ∈ seen) ∧
        readMembers shared .skipped .memory [] startShared members = .ok (seen', value') := by
  simp only [Decoder.joined, bind_eq_ok, checkEnding_eq_ok, checkRequired_eq_ok, pure, Except.pure, Except.ok.injEq]
  constructor
  · rintro ⟨below, entered, ⟨seen, found⟩, read, _, ended, _, complete, ⟨seen', found'⟩, picked, same⟩
    cases same
    exact ⟨below, seen, seen', entered, read, ended, complete, picked⟩
  · rintro ⟨below, seen, seen', entered, read, ended, complete, picked⟩
    exact ⟨below, entered, (seen, value), read, ⟨⟩, ended, ⟨⟩, complete, (seen', value'), picked, rfl⟩

/-- A record whose members come in another order is the same. -/
theorem record_perm (commuting : fields.Pairwise Commutes) (perm : members.Perm after) :
    Agree (Decoder.record fields start required access (.object members ending))
      (Decoder.record fields start required access (.object after ending)) := by
  have forward {members after : List (Option String × Reading)} (perm : members.Perm after) (value : σ)
      (read : Decoder.record fields start required access (.object members ending) = .ok value) :
      Decoder.record fields start required access (.object after ending) = .ok value := by
    obtain ⟨below, seen, entered, found, ended, complete⟩ := record_object_eq_ok.mp read
    obtain ⟨last, again, alike⟩ := Yields.of_perm commuting perm _ _ _ _ (fun _ => Iff.rfl) found
    exact record_object_eq_ok.mpr
      ⟨below, last, entered, again, ended, fun name member => (alike name).mp (complete name member)⟩
  exact fun value => ⟨forward perm value, forward perm.symm value⟩

theorem joined_perm (commuting : own.Pairwise Commutes) (commuting' : shared.Pairwise Commutes)
    (perm : members.Perm after) :
    Agree (Decoder.joined own start required shared startShared access (.object members ending))
      (Decoder.joined own start required shared startShared access (.object after ending)) := by
  have forward {members after : List (Option String × Reading)} (perm : members.Perm after) (values : σ × τ)
      (read : Decoder.joined own start required shared startShared access (.object members ending) = .ok values) :
      Decoder.joined own start required shared startShared access (.object after ending) = .ok values := by
    obtain ⟨below, seen, seen', entered, found, ended, complete, picked⟩ := joined_object_eq_ok.mp read
    obtain ⟨last, again, alike⟩ := Yields.of_perm commuting perm _ _ _ _ (fun _ => Iff.rfl) found
    obtain ⟨last', again', _⟩ := Yields.of_perm commuting' perm _ _ _ _ (fun _ => Iff.rfl) picked
    exact joined_object_eq_ok.mpr
      ⟨below, last, last', entered, again, ended, fun name member => (alike name).mp (complete name member), again'⟩
  exact fun values => ⟨forward perm values, forward perm.symm values⟩

end Records

section Passing

variable {room : Nat} {items : List Reading} {members after : List (Option String × Reading)} {ending : Option Break}

/-- A reading that can be decoded as some value. -/
def Decodes (room : Nat) (reading : Reading) : Prop := ∃ value, reading.value room = .ok value

theorem decodes_items : (∃ values, Reading.items room items = .ok values) ↔ ∀ item ∈ items, Decodes room item := by
  induction items with
  | nil => simp [Reading.items]
  | cons item rest ih =>
    rw [List.forall_mem_cons, ← ih]
    simp only [Reading.items, bind_eq_ok, pure, Except.pure, Except.ok.injEq]
    constructor
    · rintro ⟨_, value, head, values, tail, _⟩
      exact ⟨⟨value, head⟩, values, tail⟩
    · rintro ⟨⟨value, head⟩, values, tail⟩
      exact ⟨_, value, head, values, tail, rfl⟩

theorem decodes_members (known : List (String × Value)) : (∃ found, Reading.members room known members = .ok found) ↔
    ∀ member ∈ members, (∃ name, member.1 = some name) ∧ Decodes room member.2 := by
  induction members generalizing known with
  | nil => simp [Reading.members]
  | cons member rest ih =>
    obtain ⟨key, value⟩ := member
    rw [List.forall_mem_cons]
    simp only [Reading.members, bind_eq_ok]
    constructor
    · rintro ⟨found, name, named, decoded, head, tail⟩
      refine ⟨⟨?_, decoded, head⟩, (ih _).mp ⟨found, tail⟩⟩
      cases key with
      | none => cases named
      | some name => exact ⟨name, rfl⟩
    · rintro ⟨⟨⟨name, rfl⟩, decoded, head⟩, others⟩
      obtain ⟨found, tail⟩ := (ih _).mpr others
      exact ⟨found, name, rfl, decoded, head, tail⟩

theorem decodes_array : Decodes room (.array items ending) ↔
    room ≠ 0 ∧ ending = none ∧ ∀ item ∈ items, Decodes (room - 1) item := by
  rw [← decodes_items, Decodes]
  simp only [value_array_eq_ok]
  constructor
  · rintro ⟨_, opened, ended, values, found, _⟩
    exact ⟨opened, ended, values, found⟩
  · rintro ⟨opened, ended, values, found⟩
    exact ⟨_, opened, ended, values, found, rfl⟩

theorem decodes_object : Decodes room (.object members ending) ↔
    room ≠ 0 ∧ ending = none ∧ ∀ member ∈ members, (∃ name, member.1 = some name) ∧ Decodes (room - 1) member.2 := by
  rw [← decodes_members [], Decodes]
  simp only [value_object_eq_ok]
  constructor
  · rintro ⟨_, opened, ended, values, found, _⟩
    exact ⟨opened, ended, values, found⟩
  · rintro ⟨opened, ended, values, found⟩
    exact ⟨_, opened, ended, values, found, rfl⟩

theorem skipItems_eq_ok : Reading.skipItems items = .ok ⟨⟩ ↔ ∀ item ∈ items, item.skip = .ok ⟨⟩ := by
  induction items with
  | nil => simp [Reading.skipItems]
  | cons item rest ih =>
    rw [List.forall_mem_cons, ← ih, Reading.skipItems, bind_eq_ok]
    exact ⟨fun ⟨_, head, tail⟩ => ⟨head, tail⟩, fun ⟨head, tail⟩ => ⟨⟨⟩, head, tail⟩⟩

theorem skipMembers_eq_ok : Reading.skipMembers members = .ok ⟨⟩ ↔ ∀ member ∈ members, member.2.skip = .ok ⟨⟩ := by
  induction members with
  | nil => simp [Reading.skipMembers]
  | cons member rest ih =>
    rw [List.forall_mem_cons, ← ih, Reading.skipMembers, bind_eq_ok]
    exact ⟨fun ⟨_, head, tail⟩ => ⟨head, tail⟩, fun ⟨head, tail⟩ => ⟨⟨⟩, head, tail⟩⟩

/-- Two readings of which both are passed over or neither. -/
structure PassedAlike (one other : Reading) : Prop where
  whole : ∀ room, Decodes room one ↔ Decodes room other
  skipped : one.skip = .ok ⟨⟩ ↔ other.skip = .ok ⟨⟩

namespace PassedAlike

theorem refl (reading : Reading) : PassedAlike reading reading := ⟨fun _ => Iff.rfl, Iff.rfl⟩

theorem trans {one other last : Reading} (first : PassedAlike one other) (second : PassedAlike other last) :
    PassedAlike one last :=
  ⟨fun room => (first.whole room).trans (second.whole room), first.skipped.trans second.skipped⟩

theorem of_perm (perm : members.Perm after) (ending : Option Break) :
    PassedAlike (.object members ending) (.object after ending) where
  whole room := by simp only [decodes_object, perm.mem_iff]
  skipped := by simp only [skip_object_eq_ok, skipMembers_eq_ok, perm.mem_iff]

variable {one other : Reading}

theorem member (alike : PassedAlike one other) (key : Option String) (front back : List (Option String × Reading))
    (ending : Option Break) :
    PassedAlike (.object (front ++ (key, one) :: back) ending) (.object (front ++ (key, other) :: back) ending) where
  whole room := by
    simp only [decodes_object, List.forall_mem_append, List.forall_mem_cons, alike.whole]
  skipped := by
    simp only [skip_object_eq_ok, skipMembers_eq_ok, List.forall_mem_append, List.forall_mem_cons, alike.skipped]

theorem item (alike : PassedAlike one other) (front back : List Reading) (ending : Option Break) :
    PassedAlike (.array (front ++ one :: back) ending) (.array (front ++ other :: back) ending) where
  whole room := by
    simp only [decodes_array, List.forall_mem_append, List.forall_mem_cons, alike.whole]
  skipped := by
    simp only [skip_array_eq_ok, skipItems_eq_ok, List.forall_mem_append, List.forall_mem_cons, alike.skipped]

theorem pass (alike : PassedAlike one other) (others : Others) (access : Access) :
    others.pass access one = .ok ⟨⟩ ↔ others.pass access other = .ok ⟨⟩ := by
  cases others <;> cases access
  · exact alike.skipped
  · exact Iff.rfl
  · rename_i room
    have whole := alike.whole room
    simp only [Others.pass, Access.whole, bind_eq_ok, pure, Except.pure, and_true]
    exact whole
  · exact Iff.rfl

end PassedAlike

end Passing

section Within

variable {fields own : List (RecordField σ)} {shared : List (RecordField τ)} {start : σ} {startShared : τ}
variable {required : List String} {one other : Reading} {key : String}

/-- A record with an item that is read alike in the place of another one. -/
theorem record_item {front back : List Reading} {ending : Option Break}
    (agree : ∀ field, fields[front.length]? = some field → ∀ access, Agree (field.read access one) (field.read access other))
    (access : Access) :
    Agree (Decoder.record fields start required access (.array (front ++ one :: back) ending))
      (Decoder.record fields start required access (.array (front ++ other :: back) ending)) :=
  .bind (.refl _) fun below => .bind (readItems_item front (fun field found => agree field found below) _ _) fun _ => .refl _

variable {front back : List (Option String × Reading)} {ending : Option Break}

theorem record_member (alike : PassedAlike one other)
    (agree : ∀ field ∈ fields, field.name = key → ∀ access, Agree (field.read access one) (field.read access other))
    (access : Access) :
    Agree (Decoder.record fields start required access (.object (front ++ (some key, one) :: back) ending))
      (Decoder.record fields start required access (.object (front ++ (some key, other) :: back) ending)) :=
  .bind (.refl _) fun below =>
    .bind (readMembers_member (alike.pass _ _) (fun field member named => agree field member named below) front _ _)
      fun _ => .refl _

theorem joined_member (alike : PassedAlike one other)
    (agree : ∀ field ∈ own, field.name = key → ∀ access, Agree (field.read access one) (field.read access other))
    (agree' : ∀ field ∈ shared, field.name = key → ∀ access, Agree (field.read access one) (field.read access other))
    (access : Access) :
    Agree (Decoder.joined own start required shared startShared access (.object (front ++ (some key, one) :: back) ending))
      (Decoder.joined own start required shared startShared access
        (.object (front ++ (some key, other) :: back) ending)) :=
  .bind (.refl _) fun below =>
    .bind (readMembers_member (alike.pass _ _) (fun field member named => agree field member named below) front _ _)
      fun _ => .bind (.refl _) fun _ => .bind (.refl _) fun _ =>
        .bind (readMembers_member (alike.pass _ _) (fun field member named => agree' field member named .memory) front _ _)
          fun _ => .refl _

end Within

end Pagewright.Json
