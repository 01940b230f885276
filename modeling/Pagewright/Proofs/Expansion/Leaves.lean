import Mathlib
import Pagewright.Proofs.Expansion.Copy
import Pagewright.Proofs.Keyed

/-! The texts of a tree as the leaves that an expansion changes. Whether a tree can be expanded is
decided text by text, the first text that cannot be substituted is the error, and otherwise the copy
has the shape of its original with every text in its place. -/

namespace Pagewright.Expansion

open Skeleton

section Texts

def scalarTexts : Scalar → List String
  | .text value => [value]
  | _ => []

/-- The value of an attribute is changed before its key. -/
def entryTexts (entry : String × Scalar) : List String := scalarTexts entry.2 ++ [entry.1]

def countTexts : Count → List String
  | .literal _ => []
  | .expression text => [text]

mutual

/-- The texts of a tree in the order in which they are changed. -/
def texts : Node → List String
  | ⟨own, blueprint, children⟩ =>
    own.extensions.flatMap (fun extension => [extension.suffix, extension.style]) ++
    (own.mediaQueries.flatMap (fun media => [media.query, media.style]) ++
    (blueprintTexts blueprint ++ (textsBelow children ++ (own.tag.toList ++ (own.className.toList ++
    (own.style.toList ++ (own.attributes.entries.flatMap entryTexts ++ own.text.toList)))))))

def blueprintTexts : Option Blueprint → List String
  | none => []
  | some ⟨count, template⟩ => countTexts count ++ texts template

def textsBelow : List Node → List String
  | [] => []
  | node :: rest => texts node ++ textsBelow rest

end

theorem textsBelow_eq_flatMap (nodes : List Node) : textsBelow nodes = nodes.flatMap texts := by
  induction nodes with
  | nil => rfl
  | cons node rest ih => rw [textsBelow, ih, List.flatMap_cons]

end Texts

section Faults

variable {ε α β : Type} {f : String → Except ε String}

/-- What a computation fails with, if it does. -/
def fault : Except ε α → Option ε
  | .error cause => some cause
  | .ok _ => none

theorem fault_eq_none {outcome : Except ε α} : fault outcome = none ↔ ∃ value, outcome = .ok value := by
  cases outcome <;> simp [fault]

theorem fault_eq_some {outcome : Except ε α} {cause : ε} : fault outcome = some cause ↔ outcome = .error cause := by
  cases outcome <;> simp [fault]

theorem fault_map (g : α → β) (outcome : Except ε α) : fault (g <$> outcome) = fault outcome := by
  cases outcome <;> rfl

/-- Of two steps the first that fails is the fault of both. -/
theorem fault_bind {first : Except ε α} {next : α → Except ε β} {later : Option ε}
    (same : ∀ value, fault (next value) = later) : fault (first >>= next) = (fault first).or later := by
  cases first with
  | error cause => rfl
  | ok value => exact same value

/-- What the first text that cannot be changed fails with. -/
def firstFault (f : String → Except ε String) (texts : List String) : Option ε :=
  texts.findSome? fun text => fault (f text)

theorem firstFault_append (front back : List String) :
    firstFault f (front ++ back) = (firstFault f front).or (firstFault f back) := List.findSome?_append

theorem firstFault_pair (first second : String) :
    firstFault f [first, second] = (fault (f first)).or (fault (f second)) := by
  simp only [firstFault, List.findSome?_cons, List.findSome?_nil]
  cases fault (f first) <;> cases fault (f second) <;> rfl

theorem firstFault_single (text : String) : firstFault f [text] = fault (f text) := by
  simp only [firstFault, List.findSome?_cons, List.findSome?_nil]
  cases fault (f text) <;> rfl

theorem firstFault_eq_none {texts : List String} :
    firstFault f texts = none ↔ ∀ text ∈ texts, ∃ result, f text = .ok result := by
  simp only [firstFault, List.findSome?_eq_none_iff, fault_eq_none]

theorem firstFault_eq_some {texts : List String} {cause : ε} :
    firstFault f texts = some cause ↔ ∃ before text after, texts = before ++ text :: after ∧
      (∀ fine ∈ before, ∃ result, f fine = .ok result) ∧ f text = .error cause := by
  simp only [firstFault, List.findSome?_eq_some_iff, fault_eq_none, fault_eq_some, and_comm (a := f _ = _)]

theorem fault_mapList (g : α → Except ε β) (items : List α) :
    fault (mapList g items) = items.findSome? fun item => fault (g item) := by
  induction items with
  | nil => rfl
  | cons first rest ih =>
    have step : fault (mapList g (first :: rest)) = (fault (g first)).or (fault (mapList g rest)) :=
      fault_bind fun _ => fault_map ..
    rw [step, ih, List.findSome?_cons]
    cases fault (g first) <;> rfl

theorem fault_mapParts {g : α → Except ε β} {parts : α → List String} {items : List α}
    (each : ∀ item ∈ items, fault (g item) = firstFault f (parts item)) :
    fault (mapList g items) = firstFault f (items.flatMap parts) := by
  rw [fault_mapList]
  induction items with
  | nil => rfl
  | cons first rest ih =>
    rw [List.flatMap_cons, firstFault_append, List.findSome?_cons, each first List.mem_cons_self,
      ← ih fun item member => each item (List.mem_cons_of_mem _ member)]
    cases firstFault f (parts first) <;> rfl

theorem fault_mapOption (value : Option String) : fault (mapOption f value) = firstFault f value.toList := by
  cases value with
  | none => rfl
  | some text => exact (fault_map ..).trans (firstFault_single text).symm

theorem fault_mapScalar (scalar : Scalar) : fault (mapScalar f scalar) = firstFault f (scalarTexts scalar) := by
  cases scalar with
  | text value => exact (fault_map ..).trans (firstFault_single value).symm
  | number value => rfl
  | bool value => rfl

theorem fault_mapCount (count : Count) : fault (mapCount f count) = firstFault f (countTexts count) := by
  cases count with
  | literal value => rfl
  | expression text => exact (fault_map ..).trans (firstFault_single text).symm

theorem fault_mapExtension (extension : Extension) :
    fault (mapExtension f extension) = firstFault f [extension.suffix, extension.style] := by
  rw [firstFault_pair]
  exact fault_bind fun _ => fault_map ..

theorem fault_mapMediaQuery (media : MediaQuery) :
    fault (mapMediaQuery f media) = firstFault f [media.query, media.style] := by
  rw [firstFault_pair]
  exact fault_bind fun _ => fault_map ..

theorem fault_mapAttributes (attributes : Attributes) :
    fault (mapAttributes f attributes) = firstFault f (attributes.entries.flatMap entryTexts) := by
  have entry (entry : String × Scalar) : fault (mapEntry f entry) = firstFault f (entryTexts entry) := by
    rw [entryTexts, firstFault_append, ← fault_mapScalar, firstFault_single]
    exact fault_bind fun _ => fault_map ..
  exact (fault_map Keyed.ofList _).trans (fault_mapParts fun item _ => entry item)

/-- A tree fails to be copied as the first of its texts fails that does. -/
theorem fault_mapNode (node : Node) : fault (mapNode f node) = firstFault f (texts node) := by
  induction node using nodeInduction with
  | step node template each =>
    obtain ⟨own, blueprint, children⟩ := node
    have repeated : fault (mapOption (mapBlueprint f) blueprint) = firstFault f (blueprintTexts blueprint) := by
      cases blueprint with
      | none => rfl
      | some inner =>
        have copied := template inner rfl
        obtain ⟨count, template⟩ := inner
        rw [blueprintTexts, firstFault_append, ← fault_mapCount, ← copied]
        exact (fault_map ..).trans (fault_bind fun _ => fault_map ..)
    rw [texts, textsBelow_eq_flatMap, mapNode_eq]
    simp only [firstFault_append]
    rw [← fault_mapParts fun extension _ => fault_mapExtension extension,
      ← fault_mapParts fun media _ => fault_mapMediaQuery media, ← repeated, ← fault_mapParts each,
      ← fault_mapOption, ← fault_mapOption, ← fault_mapOption, ← fault_mapOption, ← fault_mapAttributes]
    refine fault_bind fun _ => fault_bind fun _ => fault_bind fun _ => fault_bind fun _ => ?_
    exact fault_bind fun _ => fault_bind fun _ => fault_bind fun _ => fault_bind fun _ => fault_map ..

theorem exists_mapNode {node : Node} :
    (∃ copy, mapNode f node = .ok copy) ↔ ∀ text ∈ texts node, ∃ result, f text = .ok result := by
  rw [← fault_eq_none, fault_mapNode, firstFault_eq_none]

end Faults

section Copies

variable {ε α β : Type} {f : String → Except ε String} {becomes : String → String → Prop}

inductive ScalarCopied (becomes : String → String → Prop) : Scalar → Scalar → Prop where
  | text {value result : String} (changed : becomes value result) :
      ScalarCopied becomes (.text value) (.text result)
  | number {value : Json.Number} : ScalarCopied becomes (.number value) (.number value)
  | bool {value : Bool} : ScalarCopied becomes (.bool value) (.bool value)

inductive CountCopied (becomes : String → String → Prop) : Count → Count → Prop where
  | literal {value : Int} : CountCopied becomes (.literal value) (.literal value)
  | expression {text result : String} (changed : becomes text result) :
      CountCopied becomes (.expression text) (.expression result)

/-- Every attribute is changed on its own. Keys that have become equal are left once, in the place of the
first and with the value of the last. -/
def AttributesCopied (becomes : String → String → Prop) (attributes copy : Attributes) : Prop :=
  ∃ entries, List.Forall₂ (fun entry changed => becomes entry.1 changed.1 ∧ ScalarCopied becomes entry.2 changed.2)
    attributes.entries entries ∧ Gathers entries copy.entries

structure ElementCopied (becomes : String → String → Prop) (own copy : Element) : Prop where
  tag : Option.Rel becomes own.tag copy.tag
  className : Option.Rel becomes own.className copy.className
  style : Option.Rel becomes own.style copy.style
  extensions : List.Forall₂ (fun extension changed =>
    becomes extension.suffix changed.suffix ∧ becomes extension.style changed.style) own.extensions copy.extensions
  mediaQueries : List.Forall₂ (fun media changed =>
    becomes media.query changed.query ∧ becomes media.style changed.style) own.mediaQueries copy.mediaQueries
  attributes : AttributesCopied becomes own.attributes copy.attributes
  text : Option.Rel becomes own.text copy.text

mutual

/-- A tree of the same shape: what is present in one is present in the other, lists have the same
lengths, and every text has become the text in its place. -/
inductive Copied (becomes : String → String → Prop) : Node → Node → Prop where
  | node {node copy : Node} (own : ElementCopied becomes node.own copy.own)
      (blueprint : Option.Rel (BlueprintCopied becomes) node.blueprint copy.blueprint)
      (children : List.Forall₂ (Copied becomes) node.children copy.children) : Copied becomes node copy

inductive BlueprintCopied (becomes : String → String → Prop) : Blueprint → Blueprint → Prop where
  | blueprint {blueprint copy : Blueprint} (count : CountCopied becomes blueprint.count copy.count)
      (template : Copied becomes blueprint.template copy.template) : BlueprintCopied becomes blueprint copy

end

theorem mapList_eq_ok {g : α → Except ε β} {related : α → β → Prop} {items : List α} {results : List β}
    (each : ∀ item ∈ items, ∀ result, g item = .ok result ↔ related item result) :
    mapList g items = .ok results ↔ List.Forall₂ related items results := by
  induction items generalizing results with
  | nil => rw [mapList_nil_eq_ok, List.forall₂_nil_left_iff]
  | cons first rest ih =>
    simp only [mapList_cons_eq_ok, List.forall₂_cons_left_iff, each first List.mem_cons_self,
      ih fun item member => each item (List.mem_cons_of_mem _ member)]

theorem mapOption_eq_ok {g : α → Except ε β} {related : α → β → Prop} {value : Option α} {changed : Option β}
    (each : ∀ original, value = some original → ∀ result, g original = .ok result ↔ related original result) :
    mapOption g value = .ok changed ↔ Option.Rel related value changed := by
  cases value with
  | none => cases changed <;> simp [mapOption]
  | some original => cases changed <;> simp [mapOption, map_eq_ok, each original rfl]

/-- One text becomes another by a change that can fail. -/
def Turns (f : String → Except ε String) (text result : String) : Prop := f text = .ok result

theorem mapScalar_eq_ok {scalar copy : Scalar} :
    mapScalar f scalar = .ok copy ↔ ScalarCopied (Turns f) scalar copy := by
  constructor
  · intro mapped
    cases scalar with
    | text value =>
      obtain ⟨result, found, rfl⟩ := map_eq_ok.mp mapped
      exact .text found
    | number value =>
      cases mapped
      exact .number
    | bool value =>
      cases mapped
      exact .bool
  · intro copied
    cases copied with
    | text changed => exact map_eq_ok.mpr ⟨_, changed, rfl⟩
    | number => rfl
    | bool => rfl

theorem mapCount_eq_ok {count copy : Count} : mapCount f count = .ok copy ↔ CountCopied (Turns f) count copy := by
  constructor
  · intro mapped
    cases count with
    | literal value =>
      cases mapped
      exact .literal
    | expression text =>
      obtain ⟨result, found, rfl⟩ := map_eq_ok.mp mapped
      exact .expression found
  · intro copied
    cases copied with
    | literal => rfl
    | expression changed => exact map_eq_ok.mpr ⟨_, changed, rfl⟩

theorem mapAttributes_copied {attributes copy : Attributes} :
    mapAttributes f attributes = .ok copy ↔ AttributesCopied (Turns f) attributes copy := by
  rw [mapAttributes_eq_ok, AttributesCopied]
  refine exists_congr fun entries => and_congr ?_ Keyed.gathers_iff.symm
  exact mapList_eq_ok fun entry _ changed => by rw [mapEntry_eq_ok, mapScalar_eq_ok, Turns]

theorem mapElement_copied {own copy : Element} :
    mapElement f own = .ok copy ↔ ElementCopied (Turns f) own copy := by
  have extensions : mapList (mapExtension f) own.extensions = .ok copy.extensions ↔ _ :=
    mapList_eq_ok fun _ _ _ => mapExtension_eq_ok
  have mediaQueries : mapList (mapMediaQuery f) own.mediaQueries = .ok copy.mediaQueries ↔ _ :=
    mapList_eq_ok fun _ _ _ => mapMediaQuery_eq_ok
  have text (value changed : Option String) : mapOption f value = .ok changed ↔ Option.Rel (Turns f) value changed :=
    mapOption_eq_ok fun _ _ _ => Iff.rfl
  rw [mapElement_eq_ok, text, text, text, text, extensions, mediaQueries, mapAttributes_copied]
  constructor
  · rintro ⟨tag, className, style, extensions, mediaQueries, attributes, text⟩
    exact ⟨tag, className, style, extensions, mediaQueries, attributes, text⟩
  · rintro ⟨tag, className, style, extensions, mediaQueries, attributes, text⟩
    exact ⟨tag, className, style, extensions, mediaQueries, attributes, text⟩

/-- The copy of a tree is the tree of its shape in which every text has been changed. -/
theorem mapNode_copied {node copy : Node} : mapNode f node = .ok copy ↔ Copied (Turns f) node copy := by
  induction node using nodeInduction generalizing copy with
  | step node template each =>
    have repeated : mapOption (mapBlueprint f) node.blueprint = .ok copy.blueprint ↔
        Option.Rel (BlueprintCopied (Turns f)) node.blueprint copy.blueprint := by
      refine mapOption_eq_ok fun inner present changed => ?_
      rw [mapBlueprint_eq_ok, mapCount_eq_ok, template inner present]
      constructor
      · exact fun given => .blueprint given.1 given.2
      · intro copied
        cases copied with
        | blueprint count template => exact ⟨count, template⟩
    have below : mapList (mapNode f) node.children = .ok copy.children ↔ _ :=
      mapList_eq_ok fun child member _ => each child member
    rw [mapNode_eq_ok, mapElement_copied, repeated, below]
    constructor
    · exact fun given => .node given.1 given.2.1 given.2.2
    · intro copied
      cases copied with
      | node own blueprint children => exact ⟨own, blueprint, children⟩

end Copies

/-- A template is expanded text by text. It can be exactly when each of its texts can be substituted, the
error is that of the first text that cannot, and the copy has the shape of the template with every text
substituted in its place. Its height is that of the template, so whatever its own blueprints repeat is
lower again. -/
theorem expand_leaf_by_leaf (placeholder : Placeholder) (template : Node) (index : Int) :
    ((∃ copy, expand placeholder template index = .ok copy) ↔
      ∀ text ∈ texts template, ∃ result, substitute placeholder index text = .ok result) ∧
    (∀ copy, expand placeholder template index = .ok copy ↔
      Copied (fun text result => substitute placeholder index text = .ok result) template copy) ∧
    (∀ error, expand placeholder template index = .error error ↔
      ∃ before text after, texts template = before ++ text :: after ∧
        (∀ fine ∈ before, ∃ result, substitute placeholder index fine = .ok result) ∧
        substitute placeholder index text = .error error) ∧
    ∀ copy, expand placeholder template index = .ok copy →
      height copy = height template ∧
        ∀ copies, ownInstances placeholder copy = .ok copies → ∀ inner ∈ copies, height inner < height copy := by
  refine ⟨exists_mapNode, fun copy => mapNode_copied, fun error => ?_, fun copy expanded => ?_⟩
  · rw [← fault_eq_some, expand, fault_mapNode, firstFault_eq_some]
  · exact ⟨height_mapNode expanded, fun copies found inner member => height_copy found member⟩

/-- Two of its keys become equal under index four, and its count is its first text that the last index
does not fit. -/
def figure : Node where
  own := {
    tag := some "figure"
    extensions := [⟨":nth-child(cwrapIndex)", "order: cwrapIndex;"⟩]
    attributes := .ofList [("data-cwrapIndex", .text "first"), ("width", .number (.integer 5)),
      ("data-4", .text "last cwrapIndex+1")] }
  blueprint := some { count := .expression "cwrapIndex+2", template := { own := { tag := some "img" } } }
  children := [{ own := { text := some "cwrapIndex+-1" } }]

def fourthFigure : Node where
  own := {
    tag := some "figure"
    extensions := [⟨":nth-child(4)", "order: 4;"⟩]
    attributes := .ofList [("data-4", .text "last 5"), ("width", .number (.integer 5))] }
  blueprint := some { count := .expression "6", template := { own := { tag := some "img" } } }
  children := [{ own := { text := some "3" } }]

theorem expand_leaf_by_leaf_figure :
    (expand .standard figure 4 = .ok fourthFigure ∧
      (∀ text ∈ texts figure, ∃ result, substitute .standard 4 text = .ok result) ∧
      Copied (fun text result => substitute .standard 4 text = .ok result) figure fourthFigure ∧
      height fourthFigure = height figure) ∧
    expand .standard figure 0x7fffffffffffffff = .error (.offsetOutOfRange "cwrapIndex+2") ∧
    ∃ before text after, texts figure = before ++ text :: after ∧
      (∀ fine ∈ before, ∃ result, substitute .standard 0x7fffffffffffffff fine = .ok result) ∧
      substitute .standard 0x7fffffffffffffff text = .error (.offsetOutOfRange "cwrapIndex+2") := by
  obtain ⟨succeeds, copied, _, shape⟩ := expand_leaf_by_leaf .standard figure 4
  obtain ⟨_, _, fails, _⟩ := expand_leaf_by_leaf .standard figure 0x7fffffffffffffff
  have expanded : expand .standard figure 4 = .ok fourthFigure := by cbv
  have failed : expand .standard figure 0x7fffffffffffffff = .error (.offsetOutOfRange "cwrapIndex+2") := by cbv
  exact ⟨⟨expanded, succeeds.mp ⟨_, expanded⟩, (copied _).mp expanded, (shape _ expanded).1⟩,
    failed, (fails _).mp failed⟩

end Pagewright.Expansion
