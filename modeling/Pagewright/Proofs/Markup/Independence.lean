import Pagewright.Proofs.Markup.Failure

/-! Styling and content keep apart. A tree without its styles is expanded and printed as before, and a
tree without its texts and attributes is expanded and styled as before, so pages that differ in nothing
else share one of their documents. -/

namespace Pagewright.Markup

open Skeleton Expansion Style

variable {placeholder : Placeholder} {change : Element → Element}

mutual

/-- Changes what every node says of its own element, in templates as well. -/
def retouch (change : Element → Element) : Node → Node
  | ⟨own, none, children⟩ => ⟨change own, none, retouchAll change children⟩
  | ⟨own, some ⟨count, template⟩, children⟩ =>
    ⟨change own, some ⟨count, retouch change template⟩, retouchAll change children⟩

def retouchAll (change : Element → Element) : List Node → List Node
  | [] => []
  | node :: rest => retouch change node :: retouchAll change rest

end

/-- An element without what only the stylesheet shows. -/
def unstyled (own : Element) : Element := { own with style := none, extensions := [], mediaQueries := [] }

/-- An element without what only the markup shows. -/
def unfilled (own : Element) : Element := { own with attributes := ∅, text := none }

def retouchBlueprint (change : Element → Element) (blueprint : Blueprint) : Blueprint :=
  { blueprint with template := retouch change blueprint.template }

theorem retouchAll_eq_map (nodes : List Node) : retouchAll change nodes = nodes.map (retouch change) := by
  induction nodes with
  | nil => rfl
  | cons node rest ih => rw [retouchAll, ih, List.map_cons]

@[simp] theorem own_retouch (node : Node) : (retouch change node).own = change node.own := by
  rcases node with ⟨own, _ | ⟨count, template⟩, children⟩ <;> rw [retouch]

@[simp] theorem blueprint_retouch (node : Node) :
    (retouch change node).blueprint = node.blueprint.map (retouchBlueprint change) := by
  rcases node with ⟨own, _ | ⟨count, template⟩, children⟩ <;> rw [retouch] <;> rfl

@[simp] theorem children_retouch (node : Node) :
    (retouch change node).children = node.children.map (retouch change) := by
  rcases node with ⟨own, _ | ⟨count, template⟩, children⟩ <;> rw [retouch, ← retouchAll_eq_map]

/-- A change that leaves the tag alone and takes texts away without looking at them. -/
structure Blanks (change : Element → Element) : Prop where
  tag : ∀ own, (change own).tag = own.tag
  copy : ∀ (f : String → Except ExpansionError String) own copy, mapElement f own = .ok copy →
    mapElement f (change own) = .ok (change copy)

theorem blanks_unstyled : Blanks unstyled := by
  refine ⟨fun own => rfl, fun f own copy copied => ?_⟩
  obtain ⟨tag, className, _, _, _, attributes, text⟩ := mapElement_eq_ok.mp copied
  exact mapElement_eq_ok.mpr ⟨tag, className, rfl, rfl, rfl, attributes, text⟩

theorem blanks_unfilled : Blanks unfilled := by
  refine ⟨fun own => rfl, fun f own copy copied => ?_⟩
  obtain ⟨tag, className, style, extensions, mediaQueries, _, _⟩ := mapElement_eq_ok.mp copied
  exact mapElement_eq_ok.mpr ⟨tag, className, style, extensions, mediaQueries, rfl, rfl⟩

section Expanded

variable (blanks : Blanks change)
include blanks

/-- Copies of a blanked tree are blanked copies of the tree. -/
theorem mapNode_retouch {f : String → Except ExpansionError String} {node copy : Node}
    (copied : mapNode f node = .ok copy) :
    mapNode f (retouch change node) = .ok (retouch change copy) := by
  induction node using nodeInduction generalizing copy with
  | step node template each =>
    obtain ⟨element, blueprints, children⟩ := mapNode_eq_ok.mp copied
    rw [mapNode_eq_ok]
    simp only [own_retouch, blueprint_retouch, children_retouch]
    refine ⟨blanks.copy f _ _ element, ?_, mapList_map (fun child member _ => each child member) children⟩
    cases repeats : node.blueprint with
    | none =>
      rw [repeats, mapOption, Except.ok.injEq] at blueprints
      rw [← blueprints]
      rfl
    | some blueprint =>
      rw [repeats] at blueprints
      obtain ⟨changed, found, same⟩ := map_eq_ok.mp blueprints
      obtain ⟨counted, inside⟩ := mapBlueprint_eq_ok.mp found
      rw [← same]
      exact map_eq_ok.mpr ⟨retouchBlueprint change changed,
        mapBlueprint_eq_ok.mpr ⟨counted, template blueprint repeats inside⟩, rfl⟩

theorem expandFrom_retouch {template : Node} {start count : Nat} {copies : List Node}
    (found : expandFrom placeholder template start count = .ok copies) :
    expandFrom placeholder (retouch change template) start count = .ok (copies.map (retouch change)) := by
  induction count generalizing start copies with
  | zero =>
    cases found
    rfl
  | succ remaining ih =>
    simp only [expandFrom, bind_eq_ok, pure, Except.pure, Except.ok.injEq] at found ⊢
    obtain ⟨first, expanded, rest, others, rfl⟩ := found
    exact ⟨_, mapNode_retouch blanks expanded, _, ih others, rfl⟩

theorem ownInstances_retouch {node : Node} {copies : List Node}
    (found : ownInstances placeholder node = .ok copies) :
    ownInstances placeholder (retouch change node) = .ok (copies.map (retouch change)) := by
  rw [ownInstances, blueprint_retouch]
  cases repeats : node.blueprint with
  | none =>
    rw [ownInstances, repeats] at found
    cases found
    rfl
  | some blueprint =>
    rw [ownInstances, repeats] at found
    obtain ⟨count, resolved, expanded⟩ := bind_eq_ok.mp found
    exact bind_eq_ok.mpr ⟨count, resolved, expandFrom_retouch blanks expanded⟩

end Expanded

mutual

def remarkTree (change : Element → Element) : Unrolled Mark → Unrolled Mark
  | .node ⟨tag, own⟩ copies children =>
    .node ⟨tag, change own⟩ (remark change copies) (remark change children)

/-- The trees with every element changed. -/
def remark (change : Element → Element) : List (Unrolled Mark) → List (Unrolled Mark)
  | [] => []
  | tree :: rest => remarkTree change tree :: remark change rest

end

/-- A tree without some of its texts unrolls as it did with them. -/
theorem unrolls_retouch (blanks : Blanks change) {nodes : List Node} {trees : List (Unrolled Mark)}
    (unrolled : Unrolls placeholder nodes trees) :
    Unrolls placeholder (nodes.map (retouch change)) (remark change trees) := by
  induction unrolled with
  | nil => exact .nil
  | inert untagged _ ih => exact .inert (by rw [own_retouch, blanks.tag, untagged]) ih
  | @element node rest instances tag copies children trees tagged expanded _ _ _ repeated below others =>
    have changed : (retouch change node).own = change node.own := own_retouch node
    have still : (retouch change node).own.tag = some tag := by rw [changed, blanks.tag, tagged]
    have under : Unrolls placeholder (retouch change node).children (remark change children) := by
      rw [children_retouch]
      exact below
    rw [List.map_cons, remark, remarkTree, ← changed]
    exact .element still (ownInstances_retouch blanks expanded) repeated under others

theorem writeRow_unstyled (row : List (Unrolled Mark)) : writeRow (remark unstyled row) = writeRow row := by
  induction row using Unrolled.rowInduction with
  | nil => rfl
  | node mark copies children rest repeated below others =>
    have opening : openingText mark.tag (unstyled mark.own) = openingText mark.tag mark.own := rfl
    have content : (unstyled mark.own).text = mark.own.text := rfl
    simp only [remark, remarkTree, writeRow, writeTree, opening, content, repeated, below, others]

theorem placeRow_unfilled (parent : String) (count : Nat) (row : List (Unrolled Mark)) :
    (placeRow parent count (remark unfilled row)).2 = (placeRow parent count row).2 := by
  induction row using Unrolled.rowInduction generalizing parent count with
  | nil => rfl
  | node mark copies children rest repeated _ others =>
    have selector : (placeMark ⟨mark.tag, unfilled mark.own⟩ parent count).selector =
        (placeMark mark parent count).selector := rfl
    simp only [remark, remarkTree, placeRow_cons, selector, repeated, others]

/-- Elements are recorded in the same places with the same declarations. -/
theorem recordAll_unfilled (parent : String) (count : Nat) (row : List (Unrolled Mark)) (styles : Styles) :
    recordAll styles (visits (placeRow parent count (remark unfilled row)).1) =
      recordAll styles (visits (placeRow parent count row).1) := by
  induction row using Unrolled.rowInduction generalizing parent count styles with
  | nil => rfl
  | node mark copies children rest repeated below others =>
    have selector : (placeMark ⟨mark.tag, unfilled mark.own⟩ parent count).selector =
        (placeMark mark parent count).selector := rfl
    have recorded : (placeMark ⟨mark.tag, unfilled mark.own⟩ parent count).record styles =
        (placeMark mark parent count).record styles := rfl
    simp only [remark, remarkTree, placeRow_cons, visits, visitsTree, List.cons_append, recordAll_cons,
      recordAll_append, selector, recorded, placeRow_unfilled, repeated, below, others]

/-- Pages with the same head whose trees differ in nothing but styles have the same markup. -/
theorem html_of_unstyled {depth : Nat} {first second : Page} {one two : Documents}
    (trees : retouch unstyled first.root = retouch unstyled second.root) (head : first.head = second.head)
    (compiled : compile placeholder depth first = .ok one)
    (again : compile placeholder depth second = .ok two) : one.html = two.html := by
  obtain ⟨row, unrolled, rfl⟩ := compile_eq_ok.mp compiled
  obtain ⟨other, unrolled', rfl⟩ := compile_eq_ok.mp again
  have bare := unrolls_retouch blanks_unstyled unrolled
  have bare' := unrolls_retouch blanks_unstyled unrolled'
  rw [List.map_singleton, trees] at bare
  have same := bare.unique bare'
  have written : writeRow row = writeRow other := by
    rw [← writeRow_unstyled row, same, writeRow_unstyled]
  simp only [head, written]

/-- Pages whose trees differ in nothing but texts and attributes have the same styles. -/
theorem css_of_unfilled {depth other : Nat} {first second : Page} {one two : Documents}
    (trees : retouch unfilled first.root = retouch unfilled second.root)
    (fonts : first.fonts = second.fonts) (properties : first.properties = second.properties)
    (classroom : first.classroom = second.classroom)
    (compiled : compile placeholder depth first = .ok one)
    (again : compile placeholder other second = .ok two) : one.css = two.css := by
  obtain ⟨row, unrolled, rfl⟩ := compile_eq_ok.mp compiled
  obtain ⟨row', unrolled', rfl⟩ := compile_eq_ok.mp again
  have bare := unrolls_retouch blanks_unfilled unrolled
  have bare' := unrolls_retouch blanks_unfilled unrolled'
  rw [List.map_singleton, trees] at bare
  have same := bare.unique bare'
  have recorded : recordAll {} (visits (placeRow "" 0 row).1) =
      recordAll {} (visits (placeRow "" 0 row').1) := by
    rw [← recordAll_unfilled, same, recordAll_unfilled]
  simp only [Style.sheet, fonts, properties, classroom, recorded]

/-- Whether a page compiles does not hang on its depth. -/
theorem compiles_of_depth {depth other : Nat} {page : Page} :
    (∃ one, compile placeholder depth page = .ok one) ↔
      ∃ two, compile placeholder other page = .ok two := by
  simp only [compile_eq_ok]
  constructor
  · rintro ⟨_, trees, unrolled, _⟩
    exact ⟨_, trees, unrolled, rfl⟩
  · rintro ⟨_, trees, unrolled, _⟩
    exact ⟨_, trees, unrolled, rfl⟩

theorem shell_parted (head body script other : String) :
    ∃ before after, shell head (body ++ script) = before ++ script ++ after ∧
      shell head (body ++ other) = before ++ other ++ after := by
  have parted : ∀ front script after : String,
      front ++ (body ++ script) ++ after = front ++ body ++ script ++ after := by
    intro front script after
    simp only [String.append_assoc]
  exact ⟨_, _, parted _ _ _, parted _ _ _⟩

/-- The depth of a page shows in the path to the client script alone. -/
theorem html_of_depth {depth other : Nat} {page : Page} {one two : Documents}
    (compiled : compile placeholder depth page = .ok one)
    (again : compile placeholder other page = .ok two) :
    ∃ before after, one.html = before ++ scriptTag depth ++ after ∧
      two.html = before ++ scriptTag other ++ after := by
  obtain ⟨row, unrolled, rfl⟩ := compile_eq_ok.mp compiled
  obtain ⟨row', unrolled', rfl⟩ := compile_eq_ok.mp again
  obtain rfl := unrolled.unique unrolled'
  exact shell_parted _ _ _ _

/-- Styling and content do not interfere. What only the stylesheet shows is not seen in the markup, what
only the markup shows is not seen in the stylesheet, and the depth of a page neither decides whether it
compiles nor shows anywhere but in the tag of the client script. -/
theorem documents_independent (placeholder : Placeholder) :
    (∀ (depth : Nat) (first second : Page) (one two : Documents),
      retouch unstyled first.root = retouch unstyled second.root → first.head = second.head →
      compile placeholder depth first = .ok one → compile placeholder depth second = .ok two →
      one.html = two.html) ∧
    (∀ (depth other : Nat) (first second : Page) (one two : Documents),
      retouch unfilled first.root = retouch unfilled second.root → first.fonts = second.fonts →
      first.properties = second.properties → first.classroom = second.classroom →
      compile placeholder depth first = .ok one → compile placeholder other second = .ok two →
      one.css = two.css) ∧
    ∀ (depth other : Nat) (page : Page),
      ((∃ one, compile placeholder depth page = .ok one) ↔
        ∃ two, compile placeholder other page = .ok two) ∧
      ∀ one two, compile placeholder depth page = .ok one → compile placeholder other page = .ok two →
        ∃ before after, one.html = before ++ scriptTag depth ++ after ∧
          two.html = before ++ scriptTag other ++ after := by
  refine ⟨?_, ?_, ?_⟩
  · intro depth first second one two trees head compiled again
    exact html_of_unstyled trees head compiled again
  · intro depth other first second one two trees fonts properties classroom compiled again
    exact css_of_unfilled trees fonts properties classroom compiled again
  · intro depth other page
    constructor
    · exact compiles_of_depth
    · intro one two compiled again
      exact html_of_depth compiled again

def poster (style text : String) : Page where
  root := {
    own := { tag := some "body" }
    blueprint := some {
      count := .literal 2
      template := {
        own := {
          tag := some "p", style := some style, text := some text
          attributes := .ofList [("id", .text text)] } } } }

def redPoster : Page := poster "color: red" "n-cwrapIndex"

def orderedPoster : Page := poster "order: cwrapIndex" "n-cwrapIndex"

def renamedPoster : Page := poster "color: red" "first"

private theorem collected_poster :
    collectStyles .standard redPoster.root = .ok { rules := .ofList [("body > p", "color: red")] } ∧
      collectStyles .standard orderedPoster.root = .ok { rules := .ofList [("body > p", "order: 1")] } ∧
      collectStyles .standard renamedPoster.root =
        .ok { rules := .ofList [("body > p", "color: red")] } := by
  refine ⟨?_, ?_, ?_⟩ <;> cbv

theorem documents_independent_poster :
    retouch unstyled redPoster.root = retouch unstyled orderedPoster.root ∧
      retouch unfilled redPoster.root = retouch unfilled renamedPoster.root ∧
      ∃ red ordered renamed deep,
        compile .standard 1 redPoster = .ok red ∧ compile .standard 1 orderedPoster = .ok ordered ∧
        compile .standard 2 renamedPoster = .ok renamed ∧ compile .standard 4 redPoster = .ok deep ∧
        red.html = ordered.html ∧ red.css = renamed.css ∧
        ∃ before after, red.html = before ++ scriptTag 1 ++ after ∧
          deep.html = before ++ scriptTag 4 ++ after := by
  obtain ⟨styling, content, depth⟩ := documents_independent .standard
  obtain ⟨redStyles, orderedStyles, renamedStyles⟩ := collected_poster
  obtain ⟨red, first⟩ := compiles_of_collected redStyles 1
  obtain ⟨ordered, second⟩ := compiles_of_collected orderedStyles 1
  obtain ⟨renamed, third⟩ := compiles_of_collected renamedStyles 2
  obtain ⟨compiles, same⟩ := depth 1 4 redPoster
  obtain ⟨deep, fourth⟩ := compiles.mp ⟨red, first⟩
  have bare : retouch unstyled redPoster.root = retouch unstyled orderedPoster.root := by cbv
  have empty : retouch unfilled redPoster.root = retouch unfilled renamedPoster.root := by cbv
  exact ⟨bare, empty, red, ordered, renamed, deep, first, second, third, fourth,
    styling 1 _ _ _ _ bare rfl first second, content 1 2 _ _ _ _ empty rfl rfl rfl first third,
    same _ _ first fourth⟩

end Pagewright.Markup
