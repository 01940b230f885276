import Pagewright.Proofs.Outcome
import Pagewright.Skeleton.Decode

/-! Faults of a text. Whoever reads a document to its end meets every fault in it, also in the
parts that are only passed over. A text that is accepted therefore holds none, and all of it has
been cut into tokens. -/

namespace Pagewright.Json

/-- A reading with a fault of its text somewhere inside. -/
inductive Faulty : Reading → Prop where
  | broken (place : Break) : Faulty (.broken place)
  | arrayEnd (items : List Reading) (place : Break) : Faulty (.array items (some place))
  | objectEnd (members : List (Option String × Reading)) (place : Break) :
      Faulty (.object members (some place))
  | item {items : List Reading} {item : Reading} (ending : Option Break) (member : item ∈ items)
      (faulty : Faulty item) : Faulty (.array items ending)
  | member {members : List (Option String × Reading)} {key : Option String} {value : Reading}
      (ending : Option Break) (member : (key, value) ∈ members) (faulty : Faulty value) :
      Faulty (.object members ending)

section Assembled

variable {expecting : Expecting} {frames : List Frame} {token : Token} {root : Reading}

theorem faulty_collapse {value : Reading} (faulty : Faulty value) (frames : List Frame) :
    Faulty (collapse value frames) := by
  induction frames generalizing value with
  | nil => exact faulty
  | cons frame frames ih =>
    cases frame with
    | array items => exact ih (.item none (by simp) faulty)
    | member members key => exact ih (@Faulty.member _ key value none (by simp) faulty)

theorem faulty_atEnd (expecting : Expecting) (frames : List Frame) :
    Faulty (expecting.atEnd frames) := by
  cases expecting <;> apply faulty_collapse <;> constructor

theorem deliver_ne_stopped (value : Reading) (frames : List Frame) :
    deliver value frames ≠ .stopped root := by
  rcases frames with _ | ⟨_ | _, frames⟩ <;> simp [deliver]

theorem faulty_of_stepValue (stopped : stepValue frames token = .stopped root) : Faulty root := by
  cases token with
  | null | bool | number | string => exact absurd stopped (deliver_ne_stopped _ _)
  | arrayOpen | objectOpen => cases stopped
  | arrayClose | objectClose | colon | comma | broken =>
    cases stopped
    exact faulty_collapse (.broken _) _

theorem faulty_of_stepKey {members : List (Option String × Reading)}
    (stopped : stepKey members frames token = .stopped root) : Faulty root := by
  unfold stepKey at stopped
  split at stopped
  next => cases stopped
  next =>
    cases stopped
    exact faulty_collapse (.objectEnd ..) _
  next =>
    cases stopped
    exact faulty_collapse (.objectEnd ..) _

/-- Where the reading stops there is a fault. -/
theorem faulty_of_stopped (stopped : expecting.step frames token = .stopped root) : Faulty root := by
  unfold Expecting.step at stopped
  split at stopped
  all_goals first
    | exact faulty_of_stepValue stopped
    | exact faulty_of_stepKey stopped
    | exact absurd stopped (deliver_ne_stopped _ _)
    | cases stopped
  all_goals
    apply faulty_collapse
    constructor

def isBroken : Token → Bool
  | .broken .. => true
  | _ => false

theorem stopped_of_isBroken (broken : isBroken token = true) :
    ∃ root, expecting.step frames token = .stopped root := by
  cases token with
  | broken opensString place =>
    cases expecting
    case firstKey => cases opensString <;> exact ⟨_, rfl⟩
    case nextKey => cases opensString <;> exact ⟨_, rfl⟩
    all_goals exact ⟨_, rfl⟩
  | _ => cases broken

/-- A document without a fault and with nothing behind it was read to the end of its tokens. -/
theorem isBroken_of_assemble {tokens : List Token} (sound : ¬ Faulty (assemble expecting frames tokens).root)
    (ended : (assemble expecting frames tokens).trailing = false) :
    ∀ token ∈ tokens, isBroken token = false := by
  induction tokens generalizing expecting frames with
  | nil => simp
  | cons token rest ih =>
    have whole : isBroken token = false := by
      rw [Bool.eq_false_iff]
      intro broken
      obtain ⟨root, stopped⟩ : ∃ root, expecting.step frames token = .stopped root :=
        stopped_of_isBroken broken
      rw [assemble, stopped] at sound
      exact sound (faulty_of_stopped stopped)
    have others : ∀ token ∈ rest, isBroken token = false := by
      rw [assemble] at sound ended
      cases step : expecting.step frames token with
      | more next open_ =>
        rw [step] at sound ended
        exact ih sound ended
      | complete root =>
        rw [step] at ended
        have empty : rest = [] := by simpa using ended
        simp [empty]
      | stopped root =>
        rw [step] at sound
        exact absurd (faulty_of_stopped step) sound
    simpa using ⟨whole, others⟩

end Assembled

theorem value_of_items {room : Nat} {items : List Reading} {values : List Value}
    (found : Reading.items room items = .ok values) {item : Reading} (member : item ∈ items) :
    ∃ value, item.value room = .ok value := by
  induction items generalizing values with
  | nil => cases member
  | cons first rest ih =>
    simp only [Reading.items, bind_eq_ok] at found
    obtain ⟨value, head, others, tail, _⟩ := found
    rcases List.mem_cons.mp member with rfl | later
    · exact ⟨value, head⟩
    · exact ih tail later

theorem value_of_members {room : Nat} {known found : List (String × Value)}
    {members : List (Option String × Reading)} (read : Reading.members room known members = .ok found)
    {key : Option String} {value : Reading} (member : (key, value) ∈ members) :
    ∃ decoded, value.value room = .ok decoded := by
  induction members generalizing known with
  | nil => cases member
  | cons first rest ih =>
    obtain ⟨firstKey, firstValue⟩ := first
    simp only [Reading.members, bind_eq_ok] at read
    obtain ⟨text, _, decoded, head, tail⟩ := read
    rcases List.mem_cons.mp member with same | later
    · cases same
      exact ⟨decoded, head⟩
    · exact ih tail later

theorem skip_of_skipItems {items : List Reading} (skipped : Reading.skipItems items = .ok ⟨⟩)
    {item : Reading} (member : item ∈ items) : item.skip = .ok ⟨⟩ := by
  induction items with
  | nil => cases member
  | cons first rest ih =>
    simp only [Reading.skipItems, bind_eq_ok] at skipped
    obtain ⟨_, head, tail⟩ := skipped
    rcases List.mem_cons.mp member with rfl | later
    · exact head
    · exact ih tail later

theorem skip_of_skipMembers {members : List (Option String × Reading)}
    (skipped : Reading.skipMembers members = .ok ⟨⟩) {key : Option String} {value : Reading}
    (member : (key, value) ∈ members) : value.skip = .ok ⟨⟩ := by
  induction members with
  | nil => cases member
  | cons first rest ih =>
    obtain ⟨firstKey, firstValue⟩ := first
    simp only [Reading.skipMembers, bind_eq_ok] at skipped
    obtain ⟨_, head, tail⟩ := skipped
    rcases List.mem_cons.mp member with same | later
    · cases same
      exact head
    · exact ih tail later

theorem checkEnding_eq_ok {ending : Option Break} {checked : Unit} :
    checkEnding ending = .ok checked ↔ ending = none := by
  cases ending <;> simp [checkEnding]

theorem value_array_eq_ok {room : Nat} {items : List Reading} {ending : Option Break} {value : Value} :
    (Reading.array items ending).value room = .ok value ↔
      room ≠ 0 ∧ ending = none ∧
        ∃ values, Reading.items (room - 1) items = .ok values ∧ value = .array values := by
  rw [Reading.value]
  split
  next empty => simp [empty]
  next present =>
    simp only [bind_eq_ok, checkEnding_eq_ok, pure, Except.pure, Except.ok.injEq]
    constructor
    · intro given
      obtain ⟨values, found, _, ended, rfl⟩ := given
      exact ⟨present, ended, values, found, rfl⟩
    · intro given
      obtain ⟨_, ended, values, found, rfl⟩ := given
      exact ⟨values, found, ⟨⟩, ended, rfl⟩

theorem value_object_eq_ok {room : Nat} {members : List (Option String × Reading)}
    {ending : Option Break} {value : Value} :
    (Reading.object members ending).value room = .ok value ↔
      room ≠ 0 ∧ ending = none ∧
        ∃ values, Reading.members (room - 1) [] members = .ok values ∧ value = .object values := by
  rw [Reading.value]
  split
  next empty => simp [empty]
  next present =>
    simp only [bind_eq_ok, checkEnding_eq_ok, pure, Except.pure, Except.ok.injEq]
    constructor
    · intro given
      obtain ⟨values, found, _, ended, rfl⟩ := given
      exact ⟨present, ended, values, found, rfl⟩
    · intro given
      obtain ⟨_, ended, values, found, rfl⟩ := given
      exact ⟨values, found, ⟨⟩, ended, rfl⟩

theorem skip_array_eq_ok {items : List Reading} {ending : Option Break} :
    (Reading.array items ending).skip = .ok ⟨⟩ ↔ Reading.skipItems items = .ok ⟨⟩ ∧ ending = none := by
  rw [Reading.skip, bind_eq_ok]
  constructor
  · intro given
    obtain ⟨_, skipped, ended⟩ := given
    cases ending <;> first | exact ⟨skipped, rfl⟩ | cases ended
  · intro given
    obtain ⟨skipped, rfl⟩ := given
    exact ⟨⟨⟩, skipped, rfl⟩

theorem skip_object_eq_ok {members : List (Option String × Reading)} {ending : Option Break} :
    (Reading.object members ending).skip = .ok ⟨⟩ ↔
      Reading.skipMembers members = .ok ⟨⟩ ∧ ending = none := by
  rw [Reading.skip, bind_eq_ok]
  constructor
  · intro given
    obtain ⟨_, skipped, ended⟩ := given
    cases ending <;> first | exact ⟨skipped, rfl⟩ | cases ended
  · intro given
    obtain ⟨skipped, rfl⟩ := given
    exact ⟨⟨⟩, skipped, rfl⟩

/-- A value that is decoded has no fault of its text. -/
theorem not_faulty_of_value {reading : Reading} {room : Nat} {value : Value}
    (found : reading.value room = .ok value) : ¬ Faulty reading := by
  intro faulty
  induction faulty generalizing room value with
  | broken place => cases found
  | arrayEnd items place => cases (value_array_eq_ok.mp found).2.1
  | objectEnd members place => cases (value_object_eq_ok.mp found).2.1
  | item ending member _ ih =>
    obtain ⟨_, _, _, items, _⟩ := value_array_eq_ok.mp found
    obtain ⟨_, decoded⟩ := value_of_items items member
    exact ih decoded
  | member ending member _ ih =>
    obtain ⟨_, _, _, members, _⟩ := value_object_eq_ok.mp found
    obtain ⟨_, decoded⟩ := value_of_members members member
    exact ih decoded

/-- Nor has one that is passed over. -/
theorem not_faulty_of_skip {reading : Reading} (skipped : reading.skip = .ok ⟨⟩) :
    ¬ Faulty reading := by
  intro faulty
  induction faulty with
  | broken place => cases skipped
  | arrayEnd items place => cases (skip_array_eq_ok.mp skipped).2
  | objectEnd members place => cases (skip_object_eq_ok.mp skipped).2
  | item ending member _ ih =>
    exact ih (skip_of_skipItems (skip_array_eq_ok.mp skipped).1 member)
  | member ending member _ ih =>
    exact ih (skip_of_skipMembers (skip_object_eq_ok.mp skipped).1 member)

/-- A decoder that accepts no fault while it reads the text. -/
def Strict {α : Type} (decoder : Decoder α) : Prop :=
  ∀ room reading value, decoder (.stream room) reading = .ok value → ¬ Faulty reading

theorem not_faulty_of_whole {room : Nat} {reading : Reading}
    (found : Access.whole reading (.stream room) = .ok ⟨⟩) : ¬ Faulty reading := by
  simp only [Access.whole, bind_eq_ok] at found
  obtain ⟨_, decoded, _⟩ := found
  exact not_faulty_of_value decoded

theorem not_faulty_of_pass {room : Nat} {reading : Reading} {others : Others}
    (passed : others.pass (.stream room) reading = .ok ⟨⟩) : ¬ Faulty reading := by
  cases others with
  | skipped => exact not_faulty_of_skip passed
  | readWhole => exact not_faulty_of_whole passed

theorem enter_eq_ok {room : Nat} {access : Access} (entered : Access.enter (.stream room) = .ok access) :
    ∃ below, access = .stream below := by
  cases room with
  | zero => cases entered
  | succ room =>
    cases entered
    exact ⟨room, rfl⟩

section Decoders

variable {α σ τ : Type}

/-- A member that no field asks for is passed over. Any other one changes the record, if its field is
given for the first time. -/
theorem readMembers_cons_eq_ok {fields : List (RecordField σ)} {others : Others} {access : Access}
    {seen : List String} {start : σ} {result : List String × σ} {key : Option String} {value : Reading}
    {rest : List (Option String × Reading)} :
    readMembers fields others access seen start ((key, value) :: rest) = .ok result ↔
      ∃ name, key = some name ∧
        (fields.find? (·.name = name) = none ∧ others.pass access value = .ok ⟨⟩ ∧
            readMembers fields others access seen start rest = .ok result ∨
          ∃ field change, fields.find? (·.name = name) = some field ∧ name ∉ seen ∧
            field.read access value = .ok change ∧
              readMembers fields others access (name :: seen) (change start) rest = .ok result) := by
  cases key with
  | none => simp [readMembers, decodeString, bind, Except.bind]
  | some name =>
    simp only [readMembers, decodeString, bind_eq_ok, Except.ok.injEq, Option.some.injEq, exists_eq_left']
    cases asked : fields.find? (·.name = name) with
    | none => cases others.pass access value <;> simp [bind, Except.bind]
    | some field => by_cases given : name ∈ seen <;> simp [given, bind_eq_ok]

theorem Strict.string : Strict Decoder.string := by
  intro room reading value found faulty
  cases faulty <;> cases found

theorem Strict.optional {decoder : Decoder α} (strict : Strict decoder) :
    Strict (Decoder.optional decoder) := by
  intro room reading value found
  cases reading with
  | null => exact fun faulty => nomatch faulty
  | _ =>
    simp only [Decoder.optional, map_eq_ok] at found
    obtain ⟨_, decoded, _⟩ := found
    exact strict _ _ _ decoded

theorem Strict.each {decoder : Decoder α} (strict : Strict decoder) {room : Nat}
    {items : List Reading} {values : List α}
    (found : Decoder.each decoder (.stream room) items = .ok values) : ∀ item ∈ items, ¬ Faulty item := by
  induction items generalizing values with
  | nil => simp
  | cons item rest ih =>
    simp only [Decoder.each, bind_eq_ok] at found
    obtain ⟨_, head, _, tail, _⟩ := found
    simpa using ⟨strict _ _ _ head, ih tail⟩

theorem not_faulty_array {items : List Reading} {ending : Option Break}
    (ended : checkEnding ending = .ok ⟨⟩) (sound : ∀ item ∈ items, ¬ Faulty item) :
    ¬ Faulty (.array items ending) := by
  intro faulty
  cases faulty with
  | arrayEnd => cases ended
  | item _ member faulty => exact sound _ member faulty

theorem not_faulty_object {members : List (Option String × Reading)} {ending : Option Break}
    (ended : checkEnding ending = .ok ⟨⟩) (sound : ∀ member ∈ members, ¬ Faulty member.2) :
    ¬ Faulty (.object members ending) := by
  intro faulty
  cases faulty with
  | objectEnd => cases ended
  | member _ member faulty => exact sound _ member faulty

theorem Strict.list {decoder : Decoder α} (strict : Strict decoder) : Strict (Decoder.list decoder) := by
  intro room reading value found
  unfold Decoder.list at found
  split at found
  next items ending =>
    simp only [bind_eq_ok] at found
    obtain ⟨_, entered, _, each, _, ended, _⟩ := found
    obtain ⟨below, rfl⟩ := enter_eq_ok entered
    exact not_faulty_array ended (strict.each each)
  next => cases found

theorem Strict.eachEntry {decoder : Decoder α} (strict : Strict decoder) {room : Nat}
    {known found : Keyed String α} {members : List (Option String × Reading)}
    (read : Decoder.eachEntry decoder (.stream room) known members = .ok found) :
    ∀ member ∈ members, ¬ Faulty member.2 := by
  induction members generalizing known with
  | nil => simp
  | cons member rest ih =>
    obtain ⟨key, value⟩ := member
    simp only [Decoder.eachEntry, bind_eq_ok] at read
    obtain ⟨_, _, _, head, tail⟩ := read
    exact List.forall_mem_cons.mpr ⟨strict _ _ _ head, ih tail⟩

theorem Strict.keyed {decoder : Decoder α} (strict : Strict decoder) : Strict (Decoder.keyed decoder) := by
  intro room reading value found
  unfold Decoder.keyed at found
  split at found
  next members ending =>
    simp only [bind_eq_ok] at found
    obtain ⟨_, entered, _, each, _, ended, _⟩ := found
    obtain ⟨below, rfl⟩ := enter_eq_ok entered
    exact not_faulty_object ended (strict.eachEntry each)
  next => cases found

/-- A field that accepts no fault either. -/
def RecordField.Strict (field : RecordField σ) : Prop :=
  ∀ room reading change, field.read (.stream room) reading = .ok change → ¬ Faulty reading

theorem Strict.of {decoder : Decoder α} (strict : Strict decoder) (name : String)
    (write : α → σ → σ) : (RecordField.of name decoder write).Strict := by
  intro room reading change found
  simp only [RecordField.of, map_eq_ok] at found
  obtain ⟨_, decoded, _⟩ := found
  exact strict _ _ _ decoded

theorem not_faulty_of_readMembers {fields : List (RecordField σ)} (strict : ∀ field ∈ fields, field.Strict)
    {others : Others} {room : Nat} {seen : List String} {start : σ} {result : List String × σ}
    {members : List (Option String × Reading)}
    (read : readMembers fields others (.stream room) seen start members = .ok result) :
    ∀ member ∈ members, ¬ Faulty member.2 := by
  induction members generalizing seen start with
  | nil => simp
  | cons member rest ih =>
    obtain ⟨key, value⟩ := member
    obtain ⟨name, rfl, ⟨_, passed, tail⟩ | ⟨field, change, asked, _, head, tail⟩⟩ := readMembers_cons_eq_ok.mp read
    · exact List.forall_mem_cons.mpr ⟨not_faulty_of_pass passed, ih tail⟩
    · exact List.forall_mem_cons.mpr ⟨strict field (List.mem_of_find?_eq_some asked) _ _ _ head, ih tail⟩

theorem not_faulty_of_readItems {fields : List (RecordField σ)} (strict : ∀ field ∈ fields, field.Strict)
    {room : Nat} {seen : List String} {start : σ} {result : List String × σ} {items : List Reading}
    (read : readItems (.stream room) seen start fields items = .ok result) :
    ∀ item ∈ items, ¬ Faulty item := by
  induction items generalizing fields seen start with
  | nil => simp
  | cons item rest ih =>
    cases fields with
    | nil => cases read
    | cons field fields =>
      obtain ⟨first, others⟩ := List.forall_mem_cons.mp strict
      simp only [readItems, bind_eq_ok] at read
      obtain ⟨_, head, tail⟩ := read
      exact List.forall_mem_cons.mpr ⟨first _ _ _ head, ih others tail⟩

theorem Strict.record {fields : List (RecordField σ)} (strict : ∀ field ∈ fields, field.Strict)
    (start : σ) (required : List String) : Strict (Decoder.record fields start required) := by
  intro room reading value found
  unfold Decoder.record at found
  split at found
  next items ending =>
    simp only [bind_eq_ok] at found
    obtain ⟨_, entered, _, read, _, ended, _⟩ := found
    obtain ⟨below, rfl⟩ := enter_eq_ok entered
    exact not_faulty_array ended (not_faulty_of_readItems strict read)
  next members ending =>
    simp only [bind_eq_ok] at found
    obtain ⟨_, entered, _, read, _, ended, _⟩ := found
    obtain ⟨below, rfl⟩ := enter_eq_ok entered
    exact not_faulty_object ended (not_faulty_of_readMembers strict read)
  next => cases found

theorem Strict.joined {own : List (RecordField σ)} (strict : ∀ field ∈ own, field.Strict) (start : σ)
    (required : List String) (shared : List (RecordField τ)) (sharedStart : τ) :
    Strict (Decoder.joined own start required shared sharedStart) := by
  intro room reading value found
  unfold Decoder.joined at found
  split at found
  next members ending =>
    simp only [bind_eq_ok] at found
    obtain ⟨_, entered, _, read, _, ended, _⟩ := found
    obtain ⟨below, rfl⟩ := enter_eq_ok entered
    exact not_faulty_object ended (not_faulty_of_readMembers strict read)
  next => cases found

end Decoders

theorem checkTrailing_eq_ok {document : Document} {checked : Unit} :
    document.checkTrailing = .ok checked ↔ document.trailing = false := by
  unfold Document.checkTrailing
  cases document.trailing <;> simp

theorem ofText_eq_ok {α : Type} {decoder : Decoder α} {text : String} {value : α} :
    decoder.ofText text = .ok value ↔
      decoder .document (Document.ofText text).root = .ok value ∧ (Document.ofText text).trailing = false := by
  simp only [Decoder.ofText, bind_eq_ok, checkTrailing_eq_ok, pure, Except.pure, Except.ok.injEq]
  constructor
  · intro given
    obtain ⟨found, decoded, _, ended, rfl⟩ := given
    exact ⟨decoded, ended⟩
  · intro given
    obtain ⟨decoded, ended⟩ := given
    exact ⟨value, decoded, ⟨⟩, ended, rfl⟩

theorem Value.ofText_eq_ok {text : String} {value : Value} :
    Value.ofText text = .ok value ↔
      (Document.ofText text).root.value nestingLimit = .ok value ∧ (Document.ofText text).trailing = false := by
  simp only [Value.ofText, bind_eq_ok, checkTrailing_eq_ok, pure, Except.pure, Except.ok.injEq]
  constructor
  · intro given
    obtain ⟨found, decoded, _, ended, rfl⟩ := given
    exact ⟨decoded, ended⟩
  · intro given
    obtain ⟨decoded, ended⟩ := given
    exact ⟨value, decoded, ⟨⟩, ended, rfl⟩

end Pagewright.Json
