import Pagewright.Proofs.Json.Grammar
import Pagewright.Proofs.Json.Permuted

/-! Documents that differ in the order of members. The order counts where members are entries under free keys, and
nowhere else: with the members of its records in another order a document is accepted or refused all the same, and is
the same document. -/

namespace Pagewright.Skeleton

open Json Json.Decoder

/-- What a part of a document is read as, where records stand in it. -/
inductive Kind where
  | page
  | blueprint
  | node
  | head
  | font
  | classroomRule
  | extension
  | mediaQuery
  | list (item : Kind)

namespace Kind

def nodeMember : String → Option Kind
  | "extend" => some (.list .extension)
  | "mediaQueries" => some (.list .mediaQuery)
  | "blueprint" => some .blueprint
  | "children" => some (.list .node)
  | _ => none

/-- What a member of a record is read as. There is no record in those that are left out, and what no field asks
for is not read as one. -/
def member : Kind → String → Option Kind
  | .page, "head" => some .head
  | .page, "fonts" => some (.list .font)
  | .page, "classroom" => some (.list .classroomRule)
  | .page, name | .blueprint, name | .node, name => nodeMember name
  | .classroomRule, "mediaQueries" => some (.list .mediaQuery)
  | _, _ => none

/-- The fields of a record that may be written as an array. -/
def fieldNames : Kind → List String
  | .node => ["element", "class", "style", "extend", "mediaQueries", "blueprint", "children", "attributes", "text"]
  | .head => ["title", "link", "meta"]
  | .font => ["font-family", "src", "font-display"]
  | .classroomRule => ["type", "name", "style", "mediaQueries"]
  | .extension => ["extension", "style"]
  | .mediaQuery => ["query", "style"]
  | .page | .blueprint | .list _ => []

/-- What an item of an array is read as. -/
def item : Kind → Nat → Option Kind
  | .list inner, _ => some inner
  | kind, position => kind.fieldNames[position]?.bind kind.member

def IsRecord : Kind → Prop
  | .list _ => False
  | _ => True

def Document : Kind → Type
  | .page => Page
  | .blueprint => Blueprint
  | .node => Node
  | .head => Head
  | .font => Font
  | .classroomRule => ClassroomRule
  | .extension => Extension
  | .mediaQuery => MediaQuery
  | .list inner => List inner.Document

/-- How a document of a kind is read, where nodes and templates may stand so high above one another. -/
def decoder (height : Nat) : (kind : Kind) → Decoder kind.Document
  | .page => decodePage
  | .blueprint => decodeBlueprint (nodeFields height)
  | .node => record (nodeFields height) {} []
  | .head => decodeHead
  | .font => decodeFont
  | .classroomRule => decodeClassroomRule
  | .extension => decodeExtension
  | .mediaQuery => decodeMediaQuery
  | .list inner => Decoder.list (inner.decoder height)

end Kind

/-- Two readings of a kind that differ in the order of members: of those of a record, and of those of the records
inside of it. -/
inductive Rearranges : Kind → Reading → Reading → Prop where
  | refl (kind : Kind) (reading : Reading) : Rearranges kind reading reading
  | trans {kind : Kind} {one other last : Reading} (first : Rearranges kind one other)
      (second : Rearranges kind other last) : Rearranges kind one last
  | permuted {kind : Kind} {members after : List (Option String × Reading)} {ending : Option Break}
      (record : kind.IsRecord) (perm : members.Perm after) :
      Rearranges kind (.object members ending) (.object after ending)
  | member {kind inner : Kind} {key : String} {one other : Reading} {front back : List (Option String × Reading)}
      {ending : Option Break} (named : kind.member key = some inner) (inside : Rearranges inner one other) :
      Rearranges kind (.object (front ++ (some key, one) :: back) ending)
        (.object (front ++ (some key, other) :: back) ending)
  | item {kind inner : Kind} {one other : Reading} {front back : List Reading} {ending : Option Break}
      (placed : kind.item front.length = some inner) (inside : Rearranges inner one other) :
      Rearranges kind (.array (front ++ one :: back) ending) (.array (front ++ other :: back) ending)

/-- Two readings of which both give a document of a kind or neither, and both the same. -/
structure Alike (kind : Kind) (one other : Reading) : Prop where
  decoded : ∀ height access, Agree (kind.decoder height access one) (kind.decoder height access other)
  passed : PassedAlike one other
  null : one = .null ↔ other = .null

section Fields

variable {α σ : Type} {kind inner : Kind} {one other : Reading} {name : String} {height : Nat}

/-- A field of a kind of record reads alike what is alike. -/
def Reads (kind : Kind) (field : RecordField σ) : Prop :=
  ∀ inner one other, kind.member field.name = some inner → Alike inner one other →
    ∀ access, Agree (field.read access one) (field.read access other)

theorem Reads.plain {field : RecordField σ} (none : kind.member field.name = none) : Reads kind field :=
  fun _ _ _ named => nomatch none.symm.trans named

theorem Reads.of {write : inner.Document → σ → σ} (named : kind.member name = some inner) :
    Reads kind (.of name (inner.decoder height) write) := by
  intro found one other same alike access
  cases named.symm.trans same
  exact (alike.decoded height access).map write

theorem optional_agree {decoder : Decoder α} {access : Access} (null : one = .null ↔ other = .null)
    (agree : Agree (decoder access one) (decoder access other)) :
    Agree (optional decoder access one) (optional decoder access other) := by
  by_cases absent : one = .null
  · rw [absent, null.mp absent]
    exact .refl _
  · have given (reading : Reading) (there : reading ≠ .null) :
        optional decoder access reading = some <$> decoder access reading := by
      cases reading <;> first | rfl | exact absurd rfl there
    rw [given one absent, given other fun nothing => absent (null.mpr nothing)]
    exact agree.map some

theorem Reads.optional {write : Option inner.Document → σ → σ} (named : kind.member name = some inner) :
    Reads kind (.of name (optional (inner.decoder height)) write) := by
  intro found one other same alike access
  cases named.symm.trans same
  exact (optional_agree alike.null (alike.decoded height access)).map write

theorem reads_nodeFields (height : Nat) : ∀ field ∈ nodeFields height, Reads .node field := by
  cases height with
  | zero => simp [nodeFields]
  | succ height =>
    rw [nodeFields]
    simp only [List.forall_mem_cons]
    refine ⟨.plain rfl, .plain rfl, .plain rfl, ?_, ?_, ?_, ?_, .plain rfl, .plain rfl, by simp⟩
    · exact @Reads.of _ .node (.list .extension) _ height _ rfl
    · exact @Reads.of _ .node (.list .mediaQuery) _ height _ rfl
    · exact @Reads.optional _ .node .blueprint _ height _ rfl
    · exact @Reads.of _ .node (.list .node) _ height _ rfl

/-- Beside the fields of a page stand those of a node, under other names. -/
theorem reads_nodeFields_page (height : Nat) : ∀ field ∈ nodeFields height, Reads .page field := by
  have same : ∀ field ∈ nodeFields height, Kind.page.member field.name = Kind.node.member field.name := by
    cases height with
    | zero => simp [nodeFields]
    | succ height =>
      rw [nodeFields]
      simp only [List.forall_mem_cons]
      exact ⟨rfl, rfl, rfl, rfl, rfl, rfl, rfl, rfl, rfl, by simp⟩
  intro field member found one other named
  exact reads_nodeFields height field member found one other (same field member ▸ named)

theorem reads_pageFields : ∀ field ∈ pageFields, Reads .page field := by
  rw [pageFields]
  simp only [List.forall_mem_cons]
  refine ⟨?_, ?_, .plain rfl, ?_, by simp⟩
  · exact @Reads.optional _ .page .head _ 0 _ rfl
  · exact @Reads.of _ .page (.list .font) _ 0 _ rfl
  · exact @Reads.of _ .page (.list .classroomRule) _ 0 _ rfl

theorem commuting_nodeFields (height : Nat) : (nodeFields height).Pairwise Commutes := by
  cases height with
  | zero => exact .nil
  | succ height =>
    simp only [nodeFields, ownField, List.pairwise_cons, List.forall_mem_cons]
    and_intros
    all_goals first
      | exact .of fun _ _ _ => rfl
      | exact .nil
      | exact List.forall_mem_nil _

theorem commuting_pageFields : pageFields.Pairwise Commutes := by
  simp only [pageFields, List.pairwise_cons, List.forall_mem_cons]
  and_intros
  all_goals first
    | exact .of fun _ _ _ => rfl
    | exact .nil
    | exact List.forall_mem_nil _

/-- A kind that is read as its members come, or its items in the places of its fields. -/
def Direct (kind : Kind) (height : Nat) : Prop :=
  ∃ fields start required, kind.decoder height = Decoder.record fields start required ∧
    fields.Pairwise Commutes ∧ (∀ field ∈ fields, Reads kind field) ∧ fields.map (·.name) <+: kind.fieldNames

theorem direct_node (height : Nat) : Direct .node height := by
  refine ⟨nodeFields height, {}, [], rfl, commuting_nodeFields height, reads_nodeFields height, ?_⟩
  cases height with
  | zero => exact List.nil_prefix
  | succ height => exact List.prefix_rfl

theorem direct_classroomRule (height : Nat) : Direct .classroomRule height := by
  refine ⟨_, _, _, rfl, ?_, ?_, List.prefix_rfl⟩
  · repeat' first
      | exact .nil
      | exact List.forall_mem_nil _
      | exact .of fun _ _ _ => rfl
      | refine .cons ?_ ?_
      | refine List.forall_mem_cons.mpr ⟨?_, ?_⟩
  · refine List.forall_mem_cons.mpr ⟨.plain rfl, List.forall_mem_cons.mpr ⟨.plain rfl, ?_⟩⟩
    refine List.forall_mem_cons.mpr ⟨.plain rfl, List.forall_mem_singleton.mpr ?_⟩
    exact @Reads.of _ .classroomRule (.list .mediaQuery) _ 0 _ rfl

/-- Kinds of records without records inside. -/
def Kind.IsFlat : Kind → Prop
  | .head | .font | .extension | .mediaQuery => True
  | _ => False

theorem direct_of_flat (flat : kind.IsFlat) (height : Nat) : Direct kind height := by
  cases kind with
  | list | page | blueprint | node | classroomRule => cases flat
  | head | font | extension | mediaQuery =>
    refine ⟨_, _, _, rfl, ?_, fun _ _ => .plain rfl, List.prefix_rfl⟩
    repeat' first
      | exact .nil
      | exact List.forall_mem_nil _
      | exact .of fun _ _ _ => rfl
      | refine .cons ?_ ?_
      | refine List.forall_mem_cons.mpr ⟨?_, ?_⟩

end Fields

section Records

variable {σ : Type} {kind inner : Kind} {one other : Reading} {height : Nat} {access : Access} {ending : Option Break}
variable {key : String} {members after front back : List (Option String × Reading)}

theorem Direct.perm (direct : Direct kind height) (perm : members.Perm after) :
    Agree (kind.decoder height access (.object members ending)) (kind.decoder height access (.object after ending)) := by
  obtain ⟨fields, start, required, read, commuting, _⟩ := direct
  rw [read]
  exact record_perm commuting perm

theorem agree_of_reads {fields : List (RecordField σ)} (reads : ∀ field ∈ fields, Reads kind field)
    (alike : Alike inner one other) (named : kind.member key = some inner) :
    ∀ field ∈ fields, field.name = key → ∀ access, Agree (field.read access one) (field.read access other) :=
  fun field member same => reads field member inner one other (same ▸ named) alike

theorem Direct.member (direct : Direct kind height) (alike : Alike inner one other)
    (named : kind.member key = some inner) :
    Agree (kind.decoder height access (.object (front ++ (some key, one) :: back) ending))
      (kind.decoder height access (.object (front ++ (some key, other) :: back) ending)) := by
  obtain ⟨fields, start, required, read, _, reads, _⟩ := direct
  rw [read]
  exact record_member alike.passed (agree_of_reads reads alike named) access

theorem Direct.item {front back : List Reading} (direct : Direct kind height) (alike : Alike inner one other)
    (placed : kind.fieldNames[front.length]?.bind kind.member = some inner) :
    Agree (kind.decoder height access (.array (front ++ one :: back) ending))
      (kind.decoder height access (.array (front ++ other :: back) ending)) := by
  obtain ⟨fields, start, required, read, _, reads, names⟩ := direct
  rw [read]
  refine record_item (fun field found => ?_) access
  have stands : (fields.map (·.name))[front.length]? = some field.name := by rw [List.getElem?_map, found]; rfl
  have name : kind.fieldNames[front.length]? = some field.name := by
    obtain ⟨rest, split⟩ := names
    rw [← split, List.getElem?_append_left (List.getElem?_eq_some_iff.mp stands).1, stands]
  rw [name] at placed
  exact agree_of_reads reads alike placed field (List.mem_of_getElem? found) rfl

namespace Alike

theorem of_perm (record : kind.IsRecord) (perm : members.Perm after) :
    Alike kind (.object members ending) (.object after ending) where
  passed := .of_perm perm ending
  null := ⟨nofun, nofun⟩
  decoded height access := by
    cases kind with
    | list => cases record
    | blueprint =>
      exact (joined_perm (List.pairwise_singleton ..) (commuting_nodeFields height) perm).bind fun _ => .refl _
    | page => exact (joined_perm commuting_pageFields (commuting_nodeFields documentHeight) perm).bind fun _ => .refl _
    | node => exact (direct_node height).perm perm
    | classroomRule => exact (direct_classroomRule height).perm perm
    | head | font | extension | mediaQuery => exact Direct.perm (direct_of_flat (by trivial) height) perm

theorem member (alike : Alike inner one other) (named : kind.member key = some inner) :
    Alike kind (.object (front ++ (some key, one) :: back) ending)
      (.object (front ++ (some key, other) :: back) ending) where
  passed := alike.passed.member (some key) front back ending
  null := ⟨nofun, nofun⟩
  decoded height access := by
    cases kind with
    | blueprint =>
      have count : ∀ field ∈ [RecordField.of "count" decodeCount fun count _ => count], Reads .blueprint field :=
        List.forall_mem_singleton.mpr (.plain rfl)
      have template : ∀ field ∈ nodeFields height, Reads .blueprint field := reads_nodeFields height
      exact (joined_member alike.passed (agree_of_reads count alike named) (agree_of_reads template alike named)
        access).bind fun _ => .refl _
    | page =>
      exact (joined_member alike.passed (agree_of_reads reads_pageFields alike named)
        (agree_of_reads (reads_nodeFields_page documentHeight) alike named) access).bind fun _ => .refl _
    | node => exact (direct_node height).member alike named
    | classroomRule => exact (direct_classroomRule height).member alike named
    | list | head | font | extension | mediaQuery => cases named

theorem item {front back : List Reading} (alike : Alike inner one other)
    (placed : kind.item front.length = some inner) :
    Alike kind (.array (front ++ one :: back) ending) (.array (front ++ other :: back) ending) where
  passed := alike.passed.item front back ending
  null := ⟨nofun, nofun⟩
  decoded height access := by
    cases kind with
    | list =>
      cases placed
      exact list_item (alike.decoded height) access
    | page | blueprint => cases placed
    | node => exact (direct_node height).item alike placed
    | classroomRule => exact (direct_classroomRule height).item alike placed
    | head | font | extension | mediaQuery => exact Direct.item (direct_of_flat (by trivial) height) alike placed

end Alike

/-- A rearrangement makes no difference to any reader. -/
theorem Rearranges.alike (rearranges : Rearranges kind one other) : Alike kind one other := by
  induction rearranges with
  | refl kind reading => exact ⟨fun _ _ => .refl _, .refl _, Iff.rfl⟩
  | trans _ _ ih ih' =>
    exact ⟨fun height access => (ih.decoded height access).trans (ih'.decoded height access),
      ih.passed.trans ih'.passed, ih.null.trans ih'.null⟩
  | permuted record perm => exact .of_perm record perm
  | member named _ ih => exact ih.member named
  | item placed _ ih => exact ih.item placed

/-- Texts of rearranged readings give the same document, if they give one. -/
theorem Rearranges.ofText {text changed : String} (rearranges : Rearranges kind one other) (stands : StandsFor text one)
    (stands' : StandsFor changed other) :
    Agree ((kind.decoder documentHeight).ofText text) ((kind.decoder documentHeight).ofText changed) := by
  rw [Decoder.ofText, Decoder.ofText, stands.ofText, stands'.ofText]
  exact (rearranges.alike.decoded documentHeight .document).bind fun _ => .refl _

end Records

/-- The order in which the members of records stand does not matter. Of two texts that differ in nothing else, both
are accepted or neither is, and they give the same document. -/
theorem documents_in_any_order {text other : String} {reading after : Reading} (stands : StandsFor text reading)
    (stands' : StandsFor other after) :
    (Rearranges .page reading after → ∀ page, Page.ofText text = .ok page ↔ Page.ofText other = .ok page) ∧
    (Rearranges .node reading after → ∀ node, Node.ofText text = .ok node ↔ Node.ofText other = .ok node) ∧
    (Rearranges .blueprint reading after →
      ∀ blueprint, Blueprint.ofText text = .ok blueprint ↔ Blueprint.ofText other = .ok blueprint) ∧
    (Rearranges .head reading after → ∀ head, Head.ofText text = .ok head ↔ Head.ofText other = .ok head) :=
  ⟨fun page => page.ofText stands stands', fun node => node.ofText stands stands',
    fun blueprint => blueprint.ofText stands stands', fun head => head.ofText stands stands'⟩

/-- The child of a page, and its head. -/
def orderedChild : List (Option String × Reading) := [(some "text", .bool true), (some "element", .string (some "p"))]

def orderedHead : List (Option String × Reading) := [(some "title", .string (some "t")), (some "link", .array [] none)]

def orderedPage (head child : List (Option String × Reading)) : List (Option String × Reading) := [
  (some "style", .bool false), (some "head", .object head none), (some "children", .array [.object child none] none)]

theorem rearranges_orderedPage : Rearranges .page (.object (orderedPage orderedHead orderedChild) none)
    (.object (orderedPage orderedHead.reverse orderedChild.reverse).reverse none) := by
  have head : Rearranges .head (.object orderedHead none) (.object orderedHead.reverse none) :=
    .permuted trivial (List.reverse_perm _).symm
  have child : Rearranges .node (.object orderedChild none) (.object orderedChild.reverse none) :=
    .permuted trivial (List.reverse_perm _).symm
  have children : Rearranges (.list .node) (.array [.object orderedChild none] none)
      (.array [.object orderedChild.reverse none] none) := @Rearranges.item _ _ _ _ [] [] none rfl child
  refine .trans (@Rearranges.member .page _ "head" _ _ [(some "style", .bool false)] _ none rfl head) ?_
  refine .trans (@Rearranges.member .page _ "children" _ _
    [(some "style", .bool false), (some "head", .object orderedHead.reverse none)] [] none rfl children) ?_
  exact .permuted trivial (List.reverse_perm _).symm

theorem documents_in_any_order_nested :
    let text := "\x7b\"style\": false, \"head\": \x7b\"title\": \"t\", \"link\": []\x7d, " ++
      "\"children\": [\x7b\"text\": true, \"element\": \"p\"\x7d]\x7d"
    let other := "\x7b\"children\": [\x7b\"element\": \"p\", \"text\": true\x7d], " ++
      "\"head\": \x7b\"link\": [], \"title\": \"t\"\x7d, \"style\": false\x7d"
    ∃ page, Page.ofText text = .ok page ∧ Page.ofText other = .ok page := by
  intro text other
  have stands : StandsFor text (.object (orderedPage orderedHead orderedChild) none) :=
    .of (by decide +kernel) (.object (.bool _) (.nextMember
      (.object (.string _) (.nextMember .emptyArray .noMember)) (.nextMember
        (.array (.object (.bool _) (.nextMember (.string _) .noMember)) .noItem) .noMember)))
  have stands' : StandsFor other (.object (orderedPage orderedHead.reverse orderedChild.reverse).reverse none) :=
    .of (by decide +kernel) (.object (.array (.object (.string _) (.nextMember (.bool _) .noMember)) .noItem)
      (.nextMember (.object .emptyArray (.nextMember (.string _) .noMember)) (.nextMember (.bool _) .noMember)))
  have accepted : (Page.ofText text).isOk = true := by decide +kernel
  cases read : Page.ofText text with
  | error fault =>
    rw [read] at accepted
    cases accepted
  | ok page =>
    exact ⟨page, rfl, ((documents_in_any_order stands stands').1 rearranges_orderedPage page).mp read⟩

end Pagewright.Skeleton
