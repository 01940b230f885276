import Mathlib
import Pagewright.Proofs.Expansion.Decoded

/-! An instance of a template by way of its text. Replacing the index tokens in the text of a
document and reading the result gives the same tree as reading the document and replacing the
tokens in every text of its tree. -/

namespace Pagewright.Skeleton

open Json Expansion

variable {index : Int} {α : Type}

section Displayed

theorem mem_dropZeros {digits : List Char} {c : Char} (member : c ∈ (Decimal.dropZeros digits).1) :
    c ∈ digits := by
  induction digits with
  | nil => exact member
  | cons d rest ih =>
    rw [Decimal.dropZeros] at member
    split at member
    next dropped kept =>
      split at member
      next => cases member
      next =>
        rw [List.mem_singleton.mp member]
        exact List.mem_cons_self
    next kept dropped _ same =>
      rw [same] at ih
      rcases List.mem_cons.mp member with rfl | later
      · exact List.mem_cons_self
      · exact List.mem_cons_of_mem _ (ih later)

theorem not_mem_writeNatural (n : Nat) : 'c' ∉ Text.writeNatural n := by
  intro member
  exact absurd (Text.isAsciiDigit_of_mem_writeNatural member) (by decide)

theorem not_mem_plain {digits : List Char} (clean : 'c' ∉ digits) (leading : Int) :
    'c' ∉ Decimal.Notation.plain digits leading := by
  unfold Decimal.Notation.plain
  split
  next => simp [clean]
  next =>
    dsimp only
    have front : 'c' ∉ digits.take (leading.toNat + 1) := fun member => clean (List.mem_of_mem_take member)
    have back : 'c' ∉ digits.drop (leading.toNat + 1) := fun member => clean (List.mem_of_mem_drop member)
    split <;> simp [front, back]

theorem not_mem_scientific {digits : List Char} (clean : 'c' ∉ digits) (leading : Int) :
    'c' ∉ Decimal.Notation.scientific digits leading := by
  unfold Decimal.Notation.scientific
  dsimp only
  have front : 'c' ∉ digits.take 1 := fun member => clean (List.mem_of_mem_take member)
  have back : 'c' ∉ digits.tail := fun member => clean (List.mem_of_mem_tail member)
  split <;> split <;> simp [front, back, not_mem_writeNatural]

theorem not_mem_write (style : Decimal.Notation) (x : Decimal.Binary64) : 'c' ∉ style.write x := by
  have digits : 'c' ∉ (Decimal.dropZeros (Text.writeNatural x.shortest.digits)).1 :=
    fun member => not_mem_writeNatural _ (mem_dropZeros member)
  have signed : ∀ magnitude, 'c' ∉ magnitude → 'c' ∉ (if x.negative then '-' :: magnitude else magnitude) := by
    intro magnitude clean
    split <;> simp [clean]
  unfold Decimal.Notation.write
  dsimp only
  apply signed
  split
  next => decide
  next =>
    split
    next => exact not_mem_plain digits _
    next => exact not_mem_scientific digits _

/-- Numbers and truth values are written without index tokens. -/
theorem not_mem_display {scalar : Scalar} (other : ∀ text, scalar ≠ .text text) :
    'c' ∉ scalar.display.toList := by
  cases scalar with
  | text value => exact absurd rfl (other value)
  | bool value => cases value <;> decide
  | number value =>
    cases value with
    | integer n =>
      intro member
      rcases mem_writeInteger (by simpa [Scalar.display, Number.write] using member) with digit | sign
      · exact absurd digit (by decide)
      · exact absurd sign (by decide)
    | real x => simpa [Scalar.display, Number.write] using not_mem_write Decimal.documentNotation x

end Displayed

section Scalars

theorem mapScalar_of_ne {f : String → Except ExpansionError String} {scalar : Scalar}
    (other : ∀ text, scalar ≠ .text text) : mapScalar f scalar = .ok scalar := by
  cases scalar with
  | text value => exact absurd rfl (other value)
  | _ => rfl

theorem follows_scalar (fits : Reading → Prop) :
    Follows index fits decodeScalar (mapScalar (substitute .standard index)) := by
  intro access before after value _ becomes found
  simp only [decodeScalar, bind_eq_ok] at found ⊢
  obtain ⟨_, whole, found⟩ := found
  have again := becomes.whole whole
  cases becomes with
  | bool truth =>
    cases found
    exact ⟨_, ⟨⟨⟩, again, rfl⟩, rfl⟩
  | number literal =>
    obtain ⟨n, decoded, rest⟩ := bind_eq_ok.mp found
    cases rest
    exact ⟨_, ⟨⟨⟩, again, found⟩, rfl⟩
  | @string text result replaced =>
    cases found
    exact ⟨.text result, ⟨⟨⟩, again, rfl⟩, map_eq_ok.mpr ⟨result, replaced, rfl⟩⟩
  | _ => cases found

theorem follows_attributes {fits : Reading → Prop}
    (distinct : ∀ members ending, fits (.object members ending) → (members.map Prod.fst).Nodup) :
    Follows index fits decodeAttributes (mapAttributes (substitute .standard index)) := by
  have keyed : Follows index fits decodeAttributes _ :=
    (follows_scalar fun _ => True).keyed (fun _ => trivial) distinct
  intro access before after value fit becomes found
  obtain ⟨changed, again, same⟩ := keyed access before after value fit becomes found
  refine ⟨changed, again, ?_⟩
  obtain ⟨entries, mapped, rfl⟩ := map_eq_ok.mp same
  exact bind_eq_ok.mpr ⟨entries, mapped, rfl⟩

theorem display_becomes {scalar changed : Scalar}
    (replaced : mapScalar (substitute .standard index) scalar = .ok changed) :
    substitute .standard index scalar.display = .ok changed.display := by
  by_cases text : ∃ value, scalar = .text value
  · obtain ⟨value, rfl⟩ := text
    obtain ⟨result, found, rfl⟩ := map_eq_ok.mp replaced
    exact found
  · have other : ∀ value, scalar ≠ .text value := fun value same => text ⟨value, same⟩
    rw [mapScalar_of_ne other] at replaced
    cases replaced
    exact substitute_plain (not_mem_display other)

theorem follows_displayed (fits : Reading → Prop) :
    Follows index fits decodeDisplayed (mapOption (substitute .standard index)) := by
  intro access before after value fit becomes found
  obtain ⟨scalar, decoded, rfl⟩ := map_eq_ok.mp found
  obtain ⟨changed, again, same⟩ := (follows_scalar fits).optional _ _ _ _ fit becomes decoded
  refine ⟨changed.map Scalar.display, map_eq_ok.mpr ⟨changed, again, rfl⟩, ?_⟩
  cases changed with
  | none =>
    rw [mapOption_eq_none.mp same]
    rfl
  | some scalar =>
    obtain ⟨original, rfl, replaced⟩ := mapOption_eq_some.mp same
    exact mapOption_eq_some.mpr ⟨_, rfl, display_becomes replaced⟩

theorem follows_count (fits : Reading → Prop) :
    Follows index fits decodeCount (mapCount (substitute .standard index)) := by
  intro access before after value _ becomes found
  simp only [decodeCount, bind_eq_ok] at found ⊢
  obtain ⟨_, whole, found⟩ := found
  have again := becomes.whole whole
  cases becomes with
  | number literal =>
    refine ⟨value, ⟨⟨⟩, again, found⟩, ?_⟩
    obtain ⟨n, decoded, rest⟩ := bind_eq_ok.mp found
    cases n with
    | real x => cases rest
    | integer n =>
      dsimp only at rest
      split at rest
      next =>
        cases rest
        rfl
      next => cases rest
  | @string text result replaced =>
    cases found
    exact ⟨.expression result, ⟨⟨⟩, again, rfl⟩, map_eq_ok.mpr ⟨result, replaced, rfl⟩⟩
  | _ => cases found

end Scalars

section Nodes

variable {f : String → Except ExpansionError String}

theorem substitute_empty : substitute .standard index "" = .ok "" := substitute_plain (by simp)

/-- Records of two texts follow when writing either text does. -/
theorem follows_texts {σ : Type} {change : σ → Except ExpansionError σ} {first second : String}
    (steady : Steady first ∧ Steady second) {setFirst setSecond : String → σ → σ} {start : σ}
    (kept : change start = .ok start)
    (writesFirst : ∀ value changed old new, substitute .standard index value = .ok changed →
      change old = .ok new → change (setFirst value old) = .ok (setFirst changed new))
    (writesSecond : ∀ value changed old new, substitute .standard index value = .ok changed →
      change old = .ok new → change (setSecond value old) = .ok (setSecond changed new))
    (fits : Reading → Prop) :
    Follows index fits (Decoder.record [.of first Decoder.string setFirst,
      .of second Decoder.string setSecond] start []) change := by
  have each : FieldsFollow index fits [.of first Decoder.string setFirst,
      .of second Decoder.string setSecond] (fun _ _ => True) change := by
    refine ⟨?_, ?_, fun _ _ _ _ _ => trivial⟩
    · simp only [List.forall_mem_cons, RecordField.of]
      exact ⟨steady.1, steady.2, by simp⟩
    · simp only [List.forall_mem_cons]
      exact ⟨(follows_string _).of _ writesFirst, (follows_string _).of _ writesSecond, by simp⟩
  exact each.record kept []

theorem follows_extension (fits : Reading → Prop) :
    Follows index fits decodeExtension (mapExtension (substitute .standard index)) := by
  refine follows_texts ⟨.of_plain (by decide) (by decide), .of_plain (by decide) (by decide)⟩
    (mapExtension_eq_ok.mpr ⟨substitute_empty, substitute_empty⟩) ?_ ?_ fits
  · intro value changed old new replaced kept
    exact mapExtension_eq_ok.mpr ⟨replaced, (mapExtension_eq_ok.mp kept).2⟩
  · intro value changed old new replaced kept
    exact mapExtension_eq_ok.mpr ⟨(mapExtension_eq_ok.mp kept).1, replaced⟩

theorem follows_mediaQuery (fits : Reading → Prop) :
    Follows index fits decodeMediaQuery (mapMediaQuery (substitute .standard index)) := by
  refine follows_texts ⟨.of_plain (by decide) (by decide), .of_plain (by decide) (by decide)⟩
    (mapMediaQuery_eq_ok.mpr ⟨substitute_empty, substitute_empty⟩) ?_ ?_ fits
  · intro value changed old new replaced kept
    exact mapMediaQuery_eq_ok.mpr ⟨replaced, (mapMediaQuery_eq_ok.mp kept).2⟩
  · intro value changed old new replaced kept
    exact mapMediaQuery_eq_ok.mpr ⟨(mapMediaQuery_eq_ok.mp kept).1, replaced⟩

/-- The fields of a node in their declared order. -/
def nodeNames : List String :=
  ["element", "class", "style", "extend", "mediaQueries", "blueprint", "children", "attributes", "text"]

/-- The members of the attributes of a node, of its template, of its children, and so on down. -/
inductive AttributesIn : Reading → List (Option String × Reading) → Prop where
  | own {node : Reading} {members : List (Option String × Reading)} {ending : Option Break}
      (given : Member nodeNames node "attributes" (.object members ending)) : AttributesIn node members
  | template {node blueprint : Reading} {members : List (Option String × Reading)}
      (given : Member nodeNames node "blueprint" blueprint) (within : AttributesIn blueprint members) :
      AttributesIn node members
  | child {node child : Reading} {items : List Reading} {ending : Option Break}
      {members : List (Option String × Reading)}
      (given : Member nodeNames node "children" (.array items ending)) (member : child ∈ items)
      (within : AttributesIn child members) : AttributesIn node members

/-- No attributes in a document write a key twice. -/
def AttributesDistinct (node : Reading) : Prop :=
  ∀ members, AttributesIn node members → (members.map Prod.fst).Nodup

/-- What distinct attributes mean for the value of each field. -/
structure FieldFits (name : String) (value : Reading) : Prop where
  attributes : name = "attributes" → ∀ members ending, value = .object members ending →
    (members.map Prod.fst).Nodup
  template : name = "blueprint" → AttributesDistinct value
  children : name = "children" → ∀ items ending, value = .array items ending →
    ∀ item ∈ items, AttributesDistinct item

theorem AttributesDistinct.fits {node value : Reading} {name : String}
    (distinct : AttributesDistinct node) (given : Member nodeNames node name value) :
    FieldFits name value where
  attributes := by
    rintro rfl members ending rfl
    exact distinct members (.own given)
  template := by
    rintro rfl members within
    exact distinct members (.template given within)
  children := by
    rintro rfl items ending rfl item member members within
    exact distinct members (.child given member within)

theorem names_nodeFields (height : Nat) :
    (nodeFields height).map (·.name) = if height = 0 then [] else nodeNames := by
  cases height <;> rfl

theorem steady_nodeNames : ∀ name ∈ nodeNames, Steady name := by
  have plain : ∀ name ∈ nodeNames, isPlain .standard name = true ∧
      name.toList.any Text.isAsciiDigit = false := by
    decide +kernel
  exact fun name member => .of_plain (plain name member).1 (plain name member).2

theorem follows_ownField {fits : Reading → Prop} {decoder : Decoder α}
    {inner : α → Except ExpansionError α} (follows : Follows index fits decoder inner) (name : String)
    {write : α → Element → Element}
    (writes : ∀ value changed own copy, inner value = .ok changed →
      mapElement (substitute .standard index) own = .ok copy →
      mapElement (substitute .standard index) (write value own) = .ok (write changed copy)) :
    FieldFollows index fits (ownField name decoder write) (mapNode (substitute .standard index)) := by
  refine follows.of name ?_
  intro value changed old new replaced copied
  obtain ⟨element, repeated, children⟩ := mapNode_eq_ok.mp copied
  exact mapNode_eq_ok.mpr ⟨writes _ _ _ _ replaced element, repeated, children⟩

theorem follows_blueprint {fields : List (RecordField Node)}
    (each : FieldsFollow index AttributesDistinct fields FieldFits (mapNode (substitute .standard index)))
    (kept : mapNode (substitute .standard index) {} = .ok {}) :
    Follows index AttributesDistinct (decodeBlueprint fields) (mapBlueprint (substitute .standard index)) := by
  have counts : FieldsFollow index AttributesDistinct [.of "count" decodeCount fun count _ => count]
      (fun _ _ => True) (mapCount (substitute .standard index)) := by
    refine ⟨?_, ?_, fun _ _ _ _ _ => trivial⟩
    · simp only [List.forall_mem_cons, RecordField.of]
      exact ⟨.of_plain (by decide) (by decide), by simp⟩
    · simp only [List.forall_mem_cons]
      exact ⟨(follows_count _).of _ fun _ _ _ _ replaced _ => replaced, by simp⟩
  have joined := @FieldsFollow.joined index _ _ _ _ _ _ _ _ _ counts each (.literal 0) {} rfl kept ["count"]
  intro access before after blueprint distinct becomes found
  simp only [decodeBlueprint, bind_eq_ok, pure, Except.pure, Except.ok.injEq] at found ⊢
  obtain ⟨⟨count, template⟩, read, rfl⟩ := found
  obtain ⟨⟨changed, copy⟩, again, same⟩ := joined _ _ _ _ distinct becomes read
  simp only [bind_eq_ok, pure, Except.pure, Except.ok.injEq, Prod.mk.injEq] at same
  obtain ⟨times, counted, inner, copied, rfl, rfl⟩ := same
  exact ⟨⟨times, inner⟩, ⟨(times, inner), again, rfl⟩, mapBlueprint_eq_ok.mpr ⟨counted, copied⟩⟩

theorem mapNode_empty : mapNode f {} = .ok {} := rfl

/-- Every field of a node follows the replacement of index tokens, to any depth. -/
theorem follows_nodeFields (height : Nat) :
    FieldsFollow index AttributesDistinct (nodeFields height) FieldFits
      (mapNode (substitute .standard index)) := by
  induction height with
  | zero =>
    refine ⟨by simp [nodeFields], by simp [nodeFields], ?_⟩
    intro reading name value distinct given
    cases given with
    | object member => exact distinct.fits (.object member)
    | array place => simp [nodeFields] at place
  | succ height ih =>
    refine ⟨?_, ?_, ?_⟩
    · intro field member
      refine steady_nodeNames field.name ?_
      have names := names_nodeFields (height + 1)
      rw [if_neg (by omega)] at names
      exact names ▸ List.mem_map_of_mem member
    · simp only [nodeFields, List.forall_mem_cons]
      refine ⟨?element, ?className, ?style, ?extend, ?mediaQueries, ?blueprint, ?children, ?attributes,
        ?text, by simp⟩
      case element =>
        refine follows_ownField (follows_string _).optional _ ?_
        intro value changed own copy replaced element
        exact mapElement_eq_ok.mpr ⟨replaced, (mapElement_eq_ok.mp element).2⟩
      case className =>
        refine follows_ownField (follows_displayed _) _ ?_
        intro value changed own copy replaced element
        obtain ⟨tag, _, others⟩ := mapElement_eq_ok.mp element
        exact mapElement_eq_ok.mpr ⟨tag, replaced, others⟩
      case style =>
        refine follows_ownField (follows_displayed _) _ ?_
        intro value changed own copy replaced element
        obtain ⟨tag, className, _, others⟩ := mapElement_eq_ok.mp element
        exact mapElement_eq_ok.mpr ⟨tag, className, replaced, others⟩
      case extend =>
        refine follows_ownField ((follows_extension fun _ => True).list fun _ _ _ _ _ => trivial) _ ?_
        intro value changed own copy replaced element
        obtain ⟨tag, className, style, _, others⟩ := mapElement_eq_ok.mp element
        exact mapElement_eq_ok.mpr ⟨tag, className, style, replaced, others⟩
      case mediaQueries =>
        refine follows_ownField ((follows_mediaQuery fun _ => True).list fun _ _ _ _ _ => trivial) _ ?_
        intro value changed own copy replaced element
        obtain ⟨tag, className, style, extensions, _, others⟩ := mapElement_eq_ok.mp element
        exact mapElement_eq_ok.mpr ⟨tag, className, style, extensions, replaced, others⟩
      case blueprint =>
        have follows := (follows_blueprint ih mapNode_empty).optional
        intro access before after step fit
        refine follows.of _ ?_ access before after step (fit.template rfl)
        intro value changed old new replaced copied
        obtain ⟨element, _, children⟩ := mapNode_eq_ok.mp copied
        exact mapNode_eq_ok.mpr ⟨element, replaced, children⟩
      case children =>
        have follows := (ih.record mapNode_empty []).list fun items ending fit =>
          FieldFits.children fit rfl items ending rfl
        refine follows.of _ ?_
        intro value changed old new replaced copied
        obtain ⟨element, repeated, _⟩ := mapNode_eq_ok.mp copied
        exact mapNode_eq_ok.mpr ⟨element, repeated, replaced⟩
      case attributes =>
        refine follows_ownField (follows_attributes fun members ending fit =>
          fit.attributes rfl members ending rfl) _ ?_
        intro value changed own copy replaced element
        obtain ⟨tag, className, style, extensions, mediaQueries, _, text⟩ := mapElement_eq_ok.mp element
        exact mapElement_eq_ok.mpr ⟨tag, className, style, extensions, mediaQueries, replaced, text⟩
      case text =>
        refine follows_ownField (follows_displayed _) _ ?_
        intro value changed own copy replaced element
        obtain ⟨tag, className, style, extensions, mediaQueries, attributes, _⟩ := mapElement_eq_ok.mp element
        exact mapElement_eq_ok.mpr ⟨tag, className, style, extensions, mediaQueries, attributes, replaced⟩
    · intro reading name value distinct given
      have names := names_nodeFields (height + 1)
      rw [if_neg (by omega)] at names
      rw [names] at given
      exact distinct.fits given

end Nodes

section Accepted

theorem strict_scalar : Strict decodeScalar := by
  intro room reading value found
  simp only [decodeScalar, bind_eq_ok] at found
  obtain ⟨_, whole, _⟩ := found
  exact not_faulty_of_whole whole

theorem strict_displayed : Strict decodeDisplayed := by
  intro room reading value found
  obtain ⟨_, decoded, _⟩ := map_eq_ok.mp found
  exact strict_scalar.optional _ _ _ decoded

theorem strict_count : Strict decodeCount := by
  intro room reading value found
  simp only [decodeCount, bind_eq_ok] at found
  obtain ⟨_, whole, _⟩ := found
  exact not_faulty_of_whole whole

theorem strict_blueprint (fields : List (RecordField Node)) : Strict (decodeBlueprint fields) := by
  intro room reading value found
  simp only [decodeBlueprint, bind_eq_ok] at found
  obtain ⟨_, joined, _⟩ := found
  refine Strict.joined ?_ _ _ _ _ _ _ _ joined
  simp only [List.forall_mem_cons]
  exact ⟨strict_count.of _ _, by simp⟩

theorem strict_extension : Strict decodeExtension := by
  refine Strict.record ?_ _ _
  simp only [List.forall_mem_cons]
  exact ⟨Strict.string.of _ _, Strict.string.of _ _, by simp⟩

theorem strict_mediaQuery : Strict decodeMediaQuery := by
  refine Strict.record ?_ _ _
  simp only [List.forall_mem_cons]
  exact ⟨Strict.string.of _ _, Strict.string.of _ _, by simp⟩

theorem strict_nodeFields (height : Nat) : ∀ field ∈ nodeFields height, field.Strict := by
  induction height with
  | zero => simp [nodeFields]
  | succ height ih =>
    have children : Strict (Decoder.list (Decoder.record (nodeFields height) {} [])) :=
      (Strict.record ih _ _).list
    simp only [nodeFields, List.forall_mem_cons]
    exact ⟨Strict.string.optional.of _ _, strict_displayed.of _ _, strict_displayed.of _ _,
      strict_extension.list.of _ _, strict_mediaQuery.list.of _ _, (strict_blueprint _).optional.of _ _,
      children.of _ _, strict_scalar.keyed.of _ _, strict_displayed.of _ _, by simp⟩

end Accepted

/-- Replacing index tokens in the text of a document and reading the result is reading the
document and expanding its tree, where no string of it needs an escape and no attributes in it
write a key twice. -/
theorem ofText_substitute {source result : String} {node : Node} {index : Int}
    (plain : '\\' ∉ source.toList) (accepted : Node.ofText source = .ok node)
    (distinct : AttributesDistinct (Document.ofText source).root)
    (replaced : substitute .standard index source = .ok result) :
    ∃ copy, Node.ofText result = .ok copy ∧ expand .standard node index = .ok copy := by
  obtain ⟨decoded, ended⟩ := ofText_eq_ok.mp accepted
  have sound : ¬ Faulty (Document.ofText source).root :=
    Strict.record (strict_nodeFields documentHeight) _ _ _ _ _ decoded
  obtain ⟨still, becomes⟩ := ofText_becomes plain sound ended replaced
  obtain ⟨copy, again, same⟩ := (follows_nodeFields documentHeight).record mapNode_empty []
    _ _ _ _ distinct becomes decoded
  exact ⟨copy, ofText_eq_ok.mpr ⟨again, still⟩, same⟩

/-- A document with an attribute, a child that is written as an array and a blueprint, whose count
depends on the index. -/
def cardText : String :=
  "\x7b\"attributes\":\x7b\"id\":\"cwrapIndex\"\x7d,\"children\":[[\"b\",7]]," ++
  "\"blueprint\":\x7b\"count\":\"cwrapIndex+1\"\x7d\x7d"

def cardTextTwo : String :=
  "\x7b\"attributes\":\x7b\"id\":\"2\"\x7d,\"children\":[[\"b\",7]],\"blueprint\":\x7b\"count\":\"3\"\x7d\x7d"

def card : Node where
  own := { attributes := .ofList [("id", .text "cwrapIndex")] }
  blueprint := some { count := .expression "cwrapIndex+1", template := {} }
  children := [{ own := { tag := some "b", className := some "7" } }]

private def cardReading : Reading := .object [
  (some "attributes", .object [(some "id", .string (some "cwrapIndex"))] none),
  (some "children", .array [.array [.string (some "b"), .number ⟨false, ['7'], [], none⟩] none] none),
  (some "blueprint", .object [(some "count", .string (some "cwrapIndex+1"))] none)] none

private theorem distinct_card : AttributesDistinct cardReading := by
  intro members within
  unfold cardReading at within
  cases within with
  | own given =>
    cases given with
    | object member =>
      simp only [List.mem_cons, Prod.mk.injEq, Reading.object.injEq] at member
      simp_all
  | template given within =>
    cases given with
    | object member =>
      obtain rfl : _ = Reading.object [(some "count", .string (some "cwrapIndex+1"))] none := by
        simpa using member
      cases within with
      | own given => cases given with | object member => simp at member
      | template given => cases given with | object member => simp at member
      | child given => cases given with | object member => simp at member
  | child given inside within =>
    cases given with
    | object member =>
      obtain ⟨rfl, _⟩ : _ = [Reading.array [.string (some "b"), .number ⟨false, ['7'], [], none⟩] none] ∧ _ := by
        simpa using member
      obtain rfl := List.mem_singleton.mp inside
      cases within with
      | own given => cases given with | array place => simp [nodeNames] at place
      | template given => cases given with | array place => simp [nodeNames] at place
      | child given => cases given with | array place => simp [nodeNames] at place

set_option maxRecDepth 2000 in
theorem ofText_substitute_card :
    '\\' ∉ cardText.toList ∧ Node.ofText cardText = .ok card ∧
      AttributesDistinct (Document.ofText cardText).root ∧
      substitute .standard 2 cardText = .ok cardTextTwo ∧
      ∃ copy, Node.ofText cardTextTwo = .ok copy ∧ expand .standard card 2 = .ok copy := by
  have plain : '\\' ∉ cardText.toList := by decide
  have accepted : Node.ofText cardText = .ok card := by cbv
  have reading : (Document.ofText cardText).root = cardReading := by cbv
  have distinct : AttributesDistinct (Document.ofText cardText).root := reading ▸ distinct_card
  have replaced : substitute .standard 2 cardText = .ok cardTextTwo := by cbv
  exact ⟨plain, accepted, distinct, replaced, ofText_substitute plain accepted distinct replaced⟩

end Pagewright.Skeleton
