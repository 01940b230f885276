import Pagewright.Proofs.Expansion.Token

/-! Copies of a tree in which every text has been changed. A copy has the shape of its original:
the same children, the same blueprints, the same height. A tag without digits, and with it
the absence of a tag among the templates, is inherited by the instances of a blueprint. -/

namespace Pagewright.Expansion

open Skeleton

variable {ε : Type} {f : String → Except ε String}

/-- The part of a copy that concerns its own element. -/
def mapElement (f : String → Except ε String) (own : Element) : Except ε Element := do
  let extensions ← mapList (mapExtension f) own.extensions
  let mediaQueries ← mapList (mapMediaQuery f) own.mediaQueries
  let tag ← mapOption f own.tag
  let className ← mapOption f own.className
  let style ← mapOption f own.style
  let attributes ← mapAttributes f own.attributes
  let text ← mapOption f own.text
  return { tag, className, style, extensions, mediaQueries, attributes, text }

def mapBlueprint (f : String → Except ε String) (blueprint : Blueprint) : Except ε Blueprint := do
  let count ← mapCount f blueprint.count
  let template ← mapNode f blueprint.template
  return { count, template }

/-- An attribute of a copy. -/
def mapEntry (f : String → Except ε String) (entry : String × Scalar) :
    Except ε (String × Scalar) := do
  let value ← mapScalar f entry.2
  let key ← f entry.1
  return (key, value)

theorem mapExtension_eq_ok {extension copy : Extension} :
    mapExtension f extension = .ok copy ↔
      f extension.suffix = .ok copy.suffix ∧ f extension.style = .ok copy.style := by
  simp only [mapExtension, bind_eq_ok, pure, Except.pure, Except.ok.injEq]
  constructor
  · intro given
    obtain ⟨suffix, first, style, second, rfl⟩ := given
    exact ⟨first, second⟩
  · intro given
    obtain ⟨first, second⟩ := given
    exact ⟨_, first, _, second, rfl⟩

theorem mapMediaQuery_eq_ok {media copy : MediaQuery} :
    mapMediaQuery f media = .ok copy ↔
      f media.query = .ok copy.query ∧ f media.style = .ok copy.style := by
  simp only [mapMediaQuery, bind_eq_ok, pure, Except.pure, Except.ok.injEq]
  constructor
  · intro given
    obtain ⟨query, first, style, second, rfl⟩ := given
    exact ⟨first, second⟩
  · intro given
    obtain ⟨first, second⟩ := given
    exact ⟨_, first, _, second, rfl⟩

theorem mapEntry_eq_ok {entry copy : String × Scalar} :
    mapEntry f entry = .ok copy ↔ f entry.1 = .ok copy.1 ∧ mapScalar f entry.2 = .ok copy.2 := by
  simp only [mapEntry, bind_eq_ok, pure, Except.pure, Except.ok.injEq]
  constructor
  · intro given
    obtain ⟨value, second, key, first, rfl⟩ := given
    exact ⟨first, second⟩
  · intro given
    obtain ⟨first, second⟩ := given
    exact ⟨_, second, _, first, rfl⟩

theorem mapAttributes_eq_ok {attributes copy : Attributes} :
    mapAttributes f attributes = .ok copy ↔
      ∃ entries, mapList (mapEntry f) attributes.entries = .ok entries ∧
        copy = Keyed.ofList entries := by
  have whole : mapAttributes f attributes =
      mapList (mapEntry f) attributes.entries >>= fun entries => .ok (Keyed.ofList entries) := rfl
  simp only [whole, bind_eq_ok, Except.ok.injEq, @eq_comm _ copy]

theorem mapNodes_eq_mapList (nodes : List Node) : mapNodes f nodes = mapList (mapNode f) nodes := by
  induction nodes with
  | nil => rw [mapNodes, mapList]
  | cons node rest ih => rw [mapNodes, mapList, ih]

theorem mapElement_eq_ok {own copy : Element} :
    mapElement f own = .ok copy ↔
      mapOption f own.tag = .ok copy.tag ∧ mapOption f own.className = .ok copy.className ∧
      mapOption f own.style = .ok copy.style ∧
      mapList (mapExtension f) own.extensions = .ok copy.extensions ∧
      mapList (mapMediaQuery f) own.mediaQueries = .ok copy.mediaQueries ∧
      mapAttributes f own.attributes = .ok copy.attributes ∧
      mapOption f own.text = .ok copy.text := by
  simp only [mapElement, bind_eq_ok, pure, Except.pure, Except.ok.injEq]
  constructor
  · intro given
    obtain ⟨extensions, h1, mediaQueries, h2, tag, h3, className, h4, style, h5, attributes, h6,
      text, h7, rfl⟩ := given
    exact ⟨h3, h4, h5, h1, h2, h6, h7⟩
  · intro given
    obtain ⟨h3, h4, h5, h1, h2, h6, h7⟩ := given
    exact ⟨_, h1, _, h2, _, h3, _, h4, _, h5, _, h6, _, h7, rfl⟩

theorem mapBlueprint_eq_ok {blueprint copy : Blueprint} :
    mapBlueprint f blueprint = .ok copy ↔
      mapCount f blueprint.count = .ok copy.count ∧
      mapNode f blueprint.template = .ok copy.template := by
  simp only [mapBlueprint, bind_eq_ok, pure, Except.pure, Except.ok.injEq]
  constructor
  · intro given
    obtain ⟨count, counted, template, copied, rfl⟩ := given
    exact ⟨counted, copied⟩
  · intro given
    obtain ⟨counted, copied⟩ := given
    refine ⟨_, counted, _, copied, ?_⟩
    cases copy
    rfl

theorem mapNode_eq (own : Element) (blueprint : Option Blueprint) (children : List Node) :
    mapNode f ⟨own, blueprint, children⟩ = (do
      let extensions ← mapList (mapExtension f) own.extensions
      let mediaQueries ← mapList (mapMediaQuery f) own.mediaQueries
      let blueprint ← mapOption (mapBlueprint f) blueprint
      let children ← mapList (mapNode f) children
      let tag ← mapOption f own.tag
      let className ← mapOption f own.className
      let style ← mapOption f own.style
      let attributes ← mapAttributes f own.attributes
      let text ← mapOption f own.text
      return {
        own := { tag, className, style, extensions, mediaQueries, attributes, text }
        blueprint, children }) := by
  rw [mapNode]
  rcases blueprint with _ | ⟨count, template⟩
  · simp only [mapOption, mapNodes_eq_mapList]
  · simp only [mapOption, mapBlueprint, mapNodes_eq_mapList, map_eq_pure_bind, bind_assoc, pure_bind]
    rfl

/-- A tree is copied exactly when its element, its blueprint and its children are, and then
these are the parts of the copy. -/
theorem mapNode_eq_ok {node copy : Node} :
    mapNode f node = .ok copy ↔
      mapElement f node.own = .ok copy.own ∧
      mapOption (mapBlueprint f) node.blueprint = .ok copy.blueprint ∧
      mapList (mapNode f) node.children = .ok copy.children := by
  obtain ⟨own, blueprint, children⟩ := node
  simp only [mapNode_eq, mapElement, bind_eq_ok, pure, Except.pure, Except.ok.injEq]
  constructor
  · intro given
    obtain ⟨extensions, extended, mediaQueries, queried, inner, repeated, children, copied, tag,
      tagged, className, classed, style, styled, attributes, attributed, text, written, rfl⟩ := given
    exact ⟨⟨_, extended, _, queried, _, tagged, _, classed, _, styled, _, attributed, _, written,
      rfl⟩, repeated, copied⟩
  · intro given
    obtain ⟨⟨extensions, extended, mediaQueries, queried, tag, tagged, className, classed, style,
      styled, attributes, attributed, text, written, same⟩, repeated, copied⟩ := given
    refine ⟨_, extended, _, queried, _, repeated, _, copied, _, tagged, _, classed, _, styled,
      _, attributed, _, written, ?_⟩
    rw [same]
    cases copy
    rfl

/-- The templates of all blueprints in a tree, those inside other templates included. -/
inductive TemplateIn : Node → Node → Prop where
  | own {node : Node} {blueprint : Blueprint} (repeats : node.blueprint = some blueprint) :
      TemplateIn blueprint.template node
  | template {node inner : Node} {blueprint : Blueprint} (repeats : node.blueprint = some blueprint)
      (within : TemplateIn inner blueprint.template) : TemplateIn inner node
  | child {node inner child : Node} (member : child ∈ node.children)
      (within : TemplateIn inner child) : TemplateIn inner node

mutual

def templates : Node → List Node
  | ⟨_, none, children⟩ => templatesBelow children
  | ⟨_, some ⟨_, template⟩, children⟩ => template :: (templates template ++ templatesBelow children)

def templatesBelow : List Node → List Node
  | [] => []
  | node :: rest => templates node ++ templatesBelow rest

end

theorem mem_templatesBelow {nodes : List Node} {inner : Node} :
    inner ∈ templatesBelow nodes ↔ ∃ node ∈ nodes, inner ∈ templates node := by
  induction nodes with
  | nil => simp [templatesBelow]
  | cons node rest ih => simp [templatesBelow, ih]

theorem mem_templates {node inner : Node} :
    inner ∈ templates node ↔
      (∃ blueprint, node.blueprint = some blueprint ∧
        (inner = blueprint.template ∨ inner ∈ templates blueprint.template)) ∨
      ∃ child ∈ node.children, inner ∈ templates child := by
  rcases node with ⟨own, _ | ⟨count, template⟩, children⟩ <;>
    simp [templates, mem_templatesBelow, or_assoc]

theorem TemplateIn.mem_templates {node inner : Node} (within : TemplateIn inner node) :
    inner ∈ templates node := by
  induction within with
  | own repeats => exact Expansion.mem_templates.mpr (.inl ⟨_, repeats, .inl rfl⟩)
  | template repeats _ ih => exact Expansion.mem_templates.mpr (.inl ⟨_, repeats, .inr ih⟩)
  | child member _ ih => exact Expansion.mem_templates.mpr (.inr ⟨_, member, ih⟩)

theorem TemplateIn.of_copy {node copy inner : Node} (within : TemplateIn inner copy)
    (copied : mapNode f node = .ok copy) :
    ∃ original, TemplateIn original node ∧ mapNode f original = .ok inner := by
  induction within generalizing node with
  | own repeats =>
    obtain ⟨_, blueprints, _⟩ := mapNode_eq_ok.mp copied
    obtain ⟨blueprint, present, changed⟩ := mapOption_eq_some.mp (repeats ▸ blueprints)
    exact ⟨_, .own present, (mapBlueprint_eq_ok.mp changed).2⟩
  | template repeats within ih =>
    obtain ⟨_, blueprints, _⟩ := mapNode_eq_ok.mp copied
    obtain ⟨blueprint, present, changed⟩ := mapOption_eq_some.mp (repeats ▸ blueprints)
    obtain ⟨original, found, same⟩ := ih (mapBlueprint_eq_ok.mp changed).2
    exact ⟨original, .template present found, same⟩
  | child member within ih =>
    obtain ⟨_, _, children⟩ := mapNode_eq_ok.mp copied
    obtain ⟨child, inside, same⟩ := mem_mapList children member
    obtain ⟨original, found, changed⟩ := ih same
    exact ⟨original, .child inside found, changed⟩

theorem height_eq (node : Node) :
    height node =
      max (node.blueprint.elim 0 fun blueprint => height blueprint.template)
        (greatestHeight node.children) + 1 := by
  rcases node with ⟨own, _ | ⟨count, template⟩, children⟩ <;> simp [height]

theorem exists_height (node : Node) : ∃ below, height node = below + 1 :=
  ⟨_, height_eq node⟩

theorem height_le_greatestHeight {nodes : List Node} {node : Node} (member : node ∈ nodes) :
    height node ≤ greatestHeight nodes := by
  induction nodes with
  | nil => cases member
  | cons first rest ih =>
    rw [greatestHeight]
    rcases List.mem_cons.mp member with rfl | later
    · exact Nat.le_max_left ..
    · exact Nat.le_trans (ih later) (Nat.le_max_right ..)

theorem height_child {node child : Node} (member : child ∈ node.children) :
    height child < height node := by
  have bound := height_le_greatestHeight member
  have equal := height_eq node
  omega

theorem height_template {node : Node} {blueprint : Blueprint}
    (repeats : node.blueprint = some blueprint) : height blueprint.template < height node := by
  have equal := height_eq node
  rw [repeats, Option.elim_some] at equal
  omega

private theorem greatestHeight_mapList {nodes copies : List Node}
    (copied : mapList (mapNode f) nodes = .ok copies)
    (same : ∀ node ∈ nodes, ∀ copy, mapNode f node = .ok copy → height copy = height node) :
    greatestHeight copies = greatestHeight nodes := by
  induction nodes generalizing copies with
  | nil => rw [mapList_nil_eq_ok.mp copied]
  | cons first rest ih =>
    obtain ⟨head, tail, found, others, rfl⟩ := mapList_cons_eq_ok.mp copied
    rw [greatestHeight, greatestHeight, same first (by simp) head found,
      ih others (fun node member => same node (by simp [member]))]

/-- What holds of a node when it holds of the template that it repeats and of its children holds of
all nodes. -/
theorem nodeInduction {motive : Node → Prop}
    (step : ∀ node,
      (∀ blueprint, node.blueprint = some blueprint → motive blueprint.template) →
      (∀ child ∈ node.children, motive child) → motive node) (node : Node) : motive node := by
  induction bound : height node using Nat.strongRecOn generalizing node with
  | ind bound ih =>
    subst bound
    exact step node (fun blueprint repeats => ih _ (height_template repeats) blueprint.template rfl)
      (fun child member => ih _ (height_child member) child rfl)

theorem height_mapNode {node copy : Node} (copied : mapNode f node = .ok copy) :
    height copy = height node := by
  induction node using nodeInduction generalizing copy with
  | step node template each =>
    obtain ⟨_, blueprints, children⟩ := mapNode_eq_ok.mp copied
    have below : greatestHeight copy.children = greatestHeight node.children :=
      greatestHeight_mapList children fun child member _ found => each child member found
    rw [height_eq copy, height_eq node, below]
    cases repeats : copy.blueprint with
    | none =>
      rw [repeats] at blueprints
      rw [mapOption_eq_none.mp blueprints]
    | some changed =>
      obtain ⟨blueprint, present, found⟩ := mapOption_eq_some.mp (repeats ▸ blueprints)
      rw [present, Option.elim_some, Option.elim_some,
        template blueprint present (mapBlueprint_eq_ok.mp found).2]

section Instances

variable {placeholder : Placeholder}

/-- The copies are those of the template for the indices in order. -/
theorem expandFrom_eq_mapList (template : Node) (start count : Nat) :
    expandFrom placeholder template start count =
      mapList (fun index : Nat => expand placeholder template index) (List.range' start count) := by
  induction count generalizing start with
  | zero => rfl
  | succ remaining ih => rw [expandFrom, List.range'_succ, mapList, ih]

theorem mem_expandFrom {template copy : Node} {index count : Nat} {copies : List Node}
    (found : expandFrom placeholder template index count = .ok copies) (member : copy ∈ copies) :
    ∃ at_, expand placeholder template at_ = .ok copy := by
  rw [expandFrom_eq_mapList] at found
  obtain ⟨index, _, expanded⟩ := mem_mapList found member
  exact ⟨index, expanded⟩

theorem ownInstances_of_none {node : Node} (single : node.blueprint = none) :
    ownInstances placeholder node = .ok [] := by
  rw [ownInstances, single]

theorem mem_ownInstances {node copy : Node} {copies : List Node}
    (found : ownInstances placeholder node = .ok copies) (member : copy ∈ copies) :
    ∃ blueprint index, node.blueprint = some blueprint ∧
      expand placeholder blueprint.template index = .ok copy := by
  cases repeats : node.blueprint with
  | none =>
    rw [ownInstances_of_none repeats] at found
    cases found
    cases member
  | some blueprint =>
    simp only [ownInstances, repeats, instances, bind_eq_ok] at found
    obtain ⟨count, _, expanded⟩ := found
    obtain ⟨index, same⟩ := mem_expandFrom expanded member
    exact ⟨blueprint, index, rfl, same⟩

theorem height_copy {node copy : Node} {copies : List Node}
    (found : ownInstances placeholder node = .ok copies) (member : copy ∈ copies) :
    height copy < height node := by
  obtain ⟨blueprint, index, repeats, expanded⟩ := mem_ownInstances found member
  rw [height_mapNode expanded]
  exact height_template repeats

/-- A tag without digits is never the work of a token. -/
theorem tag_of_copy {node copy : Node} {index : Int} {tag : String}
    (copied : mapNode (substitute placeholder index) node = .ok copy)
    (clean : tag.toList.any Text.isAsciiDigit = false) (tagged : copy.own.tag = some tag) :
    node.own.tag = some tag := by
  obtain ⟨element, _, _⟩ := mapNode_eq_ok.mp copied
  have same := (mapElement_eq_ok.mp element).1
  rw [tagged] at same
  obtain ⟨original, present, changed⟩ := mapOption_eq_some.mp same
  rw [present, eq_of_substitute_of_no_digit changed clean]

def AvoidsTemplate (tag : String) (node : Node) : Prop :=
  ∀ template, TemplateIn template node → template.own.tag ≠ some tag

theorem AvoidsTemplate.of_templates {tag : String} {node : Node}
    (other : ∀ template ∈ templates node, template.own.tag ≠ some tag) : AvoidsTemplate tag node :=
  fun template within => other template within.mem_templates

theorem AvoidsTemplate.child {tag : String} {node child : Node} (avoids : AvoidsTemplate tag node)
    (member : child ∈ node.children) : AvoidsTemplate tag child :=
  fun template within => avoids template (.child member within)

/-- Neither an instance nor a template inside it has a tag that no template has. -/
theorem AvoidsTemplate.copy {tag : String} {node copy : Node} {copies : List Node}
    (avoids : AvoidsTemplate tag node) (clean : tag.toList.any Text.isAsciiDigit = false)
    (found : ownInstances placeholder node = .ok copies) (member : copy ∈ copies) :
    copy.own.tag ≠ some tag ∧ AvoidsTemplate tag copy := by
  obtain ⟨blueprint, index, repeats, expanded⟩ := mem_ownInstances found member
  constructor
  · intro tagged
    exact avoids _ (.own repeats) (tag_of_copy expanded clean tagged)
  · intro template within tagged
    obtain ⟨original, inside, copied⟩ := within.of_copy expanded
    exact avoids original (.template repeats inside) (tag_of_copy copied clean tagged)

/-- What holds of a node when it holds of its instances and its children holds of all nodes:
instances are new trees, but no higher than their template. -/
theorem expansionInduction (placeholder : Placeholder) {motive : Node → Prop}
    (step : ∀ node,
      (∀ copies, ownInstances placeholder node = .ok copies → ∀ copy ∈ copies, motive copy) →
      (∀ child ∈ node.children, motive child) → motive node) (node : Node) : motive node := by
  induction bound : height node using Nat.strongRecOn generalizing node with
  | ind bound ih =>
    subst bound
    exact step node (fun _ found copy member => ih _ (height_copy found member) copy rfl)
      (fun child member => ih _ (height_child member) child rfl)

end Instances

end Pagewright.Expansion
