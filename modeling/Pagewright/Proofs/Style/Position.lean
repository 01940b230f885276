import Mathlib
import Pagewright.Proofs.Style.Events
import Pagewright.Proofs.Markup.Written

/-! Elements on the printed page. An element stands below its printed ancestors and behind the
siblings printed before it; its position says both, compound by compound. Where no instance is a
`div`, the selector of every printed element is its position. -/

namespace Pagewright.Style

open Skeleton Expansion
open Markup (render writeRow)

variable {placeholder : Placeholder}

def isDiv (tree : Unrolled Placement) : Bool := tree.label.toMark.isDiv

/-- The trees printed inside a tree: its instances, then its children, and nothing inside a tag
that is written without content. -/
def content (tree : Unrolled Placement) : List (Unrolled Placement) :=
  if isSelfClosing tree.label.tag then [] else tree.copies ++ tree.children

/-- What an element adds to a position as the `number`th `div` below its parent. Other tags are
not numbered. -/
def compound (mark : Mark) (number : Nat) : String :=
  mark.tag ++
  (if mark.tag = "div" then ":nth-of-type(" ++ String.ofList (Text.writeNatural number) ++ ")"
    else "") ++
  classStep mark.own.className

/-- A printed element and its position: the compounds of its printed ancestors from the root
down, and its own. A `div` is numbered by the `div`s printed before it below the same parent. -/
inductive Stands (page : List (Unrolled Placement)) : List String → Unrolled Placement → Prop where
  | top {before after : List (Unrolled Placement)} {tree : Unrolled Placement}
      (printed : page = before ++ tree :: after) :
      Stands page [compound tree.label.toMark (1 + before.countP isDiv)] tree
  | inside {above : List String} {parent tree : Unrolled Placement}
      {before after : List (Unrolled Placement)} (stands : Stands page above parent)
      (printed : content parent = before ++ tree :: after) :
      Stands page (above ++ [compound tree.label.toMark (1 + before.countP isDiv)]) tree

section Placed

variable (parent : String) (count : Nat)

theorem placeTree_label (tree : Unrolled Mark) :
    (placeTree parent count tree).1.label = placeMark tree.label parent count := by
  cases tree
  rw [placeTree]
  rfl

theorem placeTree_copies (tree : Unrolled Mark) :
    (placeTree parent count tree).1.copies =
      (placeRow (placeMark tree.label parent count).selector (countAfter tree.label.tag count)
        tree.copies).1 := by
  cases tree
  rw [placeTree]
  rfl

theorem placeTree_children (tree : Unrolled Mark) :
    (placeTree parent count tree).1.children =
      (placeRow (placeMark tree.label parent count).selector 0 tree.children).1 := by
  cases tree
  rw [placeTree]
  rfl

theorem placeRow_marks (row : List (Unrolled Mark)) :
    (placeRow parent count row).1.map (·.label.toMark) = row.map (·.label) := by
  induction row generalizing count with
  | nil => rfl
  | cons tree rest ih =>
    simp only [placeRow, List.map_cons, placeTree_label, ih]
    rfl

theorem placeRow_append (front back : List (Unrolled Mark)) :
    placeRow parent count (front ++ back) =
      let placed := placeRow parent count front
      let others := placeRow parent placed.2 back
      (placed.1 ++ others.1, others.2) := by
  induction front generalizing count with
  | nil => rfl
  | cons tree front ih =>
    simp only [List.cons_append, placeRow, ih]

end Placed

/-- Whatever stands at a place of a placed row was placed there, after those before it. -/
theorem placeRow_split {parent : String} {count : Nat} {row : List (Unrolled Mark)}
    {before after : List (Unrolled Placement)} {tree : Unrolled Placement}
    (placed : (placeRow parent count row).1 = before ++ tree :: after) :
    ∃ front original back, row = front ++ original :: back ∧
      (placeRow parent count front).1 = before ∧
      tree = (placeTree parent (placeRow parent count front).2 original).1 := by
  induction before generalizing count row with
  | nil =>
    cases row with
    | nil => cases placed
    | cons first rest =>
      rw [placeRow] at placed
      simp only [List.nil_append, List.cons.injEq] at placed
      exact ⟨[], first, rest, rfl, rfl, placed.1.symm⟩
  | cons head before ih =>
    cases row with
    | nil => cases placed
    | cons first rest =>
      rw [placeRow] at placed
      simp only [List.cons_append, List.cons.injEq] at placed
      obtain ⟨front, original, back, rfl, same, found⟩ := ih placed.2
      refine ⟨first :: front, original, back, rfl, ?_, ?_⟩
      · simp only [placeRow, same, placed.1]
      · simpa only [placeRow] using found

theorem countP_placeRow (parent : String) (count : Nat) (row : List (Unrolled Mark)) :
    (placeRow parent count row).1.countP isDiv = (row.map (·.label)).countP Mark.isDiv := by
  rw [← placeRow_marks parent count row, List.countP_map]
  rfl

theorem countP_of_ne {row : List (Unrolled Mark)} (other : ∀ tree ∈ row, tree.label.tag ≠ "div") :
    (row.map (·.label)).countP Mark.isDiv = 0 := by
  rw [List.countP_eq_zero]
  intro mark member
  obtain ⟨tree, inside, rfl⟩ := List.mem_map.mp member
  simpa [Mark.isDiv] using other tree inside

/-- Without `div`s among the instances a row raises the count by its own `div`s. -/
theorem placeRow_count {row : List (Unrolled Mark)} (avoids : CopiesAvoid "div" row)
    (parent : String) (count : Nat) :
    (placeRow parent count row).2 = count + (row.map (·.label)).countP Mark.isDiv := by
  induction avoids generalizing parent count with
  | nil => rfl
  | @cons mark copies children rest other _ _ _ repeated _ others =>
    rw [placeRow_cons]
    simp only [others, repeated, countP_of_ne other, List.map_cons, List.countP_cons, placeMark,
      Unrolled.label_node, countAfter, Mark.isDiv, decide_eq_true_eq]
    split <;> omega

theorem selector_below {parent : String} (present : parent ≠ "") (mark : Mark) (count : Nat) :
    (placeMark mark parent count).selector =
      parent ++ " > " ++ compound mark (count + 1) := by
  have combinator : " > div:nth-of-type(" = " > " ++ ("div" ++ ":nth-of-type(") := by decide
  by_cases numbered : mark.tag = "div"
  · have plain : "div" ∉ landmarkTags := by decide
    simp only [placeMark, stepText, compound, numbered, if_neg plain, if_true, combinator,
      String.append_assoc]
  · by_cases landmark : mark.tag ∈ landmarkTags
    · have full : parent.isEmpty = false := by simpa using present
      simp only [placeMark, stepText, compound, numbered, landmark, full, if_true, if_false,
        Bool.false_eq_true, String.append_empty, String.append_assoc]
    · simp only [placeMark, stepText, compound, numbered, landmark, if_false, String.append_empty,
        String.append_assoc]

theorem selector_landmark {mark : Mark} (landmark : mark.tag ∈ landmarkTags) (count number : Nat) :
    (placeMark mark "" count).selector = compound mark number := by
  have plain : mark.tag ≠ "div" := by
    intro same
    rw [same] at landmark
    revert landmark
    decide
  simp [placeMark, stepText, compound, landmark, plain]

theorem compound_of_ne {mark : Mark} (other : mark.tag ≠ "div") (first second : Nat) :
    compound mark first = compound mark second := by
  simp only [compound, if_neg other]

theorem append_eq_split {α : Type} {front back before after : List α} {item : α}
    (same : front ++ back = before ++ item :: after) :
    (∃ later, front = before ++ item :: later) ∨
      ∃ earlier, before = front ++ earlier ∧ back = earlier ++ item :: after := by
  rcases List.append_eq_append_iff.mp same with ⟨earlier, behind, rest⟩ | ⟨later, inside, rest⟩
  · exact .inr ⟨earlier, behind, rest⟩
  · cases later with
    | nil => exact .inr ⟨[], by simpa using inside.symm, by simpa using rest.symm⟩
    | cons head later =>
      obtain ⟨rfl, _⟩ := List.cons.inj rest
      exact .inl ⟨later, inside⟩

/-- Instances that are no `div`s leave the numbers of the children as they would be alone. -/
theorem placed_inside {selector : String} {number : Nat} {copies children : List (Unrolled Mark)}
    (other : ∀ copy ∈ copies, copy.label.tag ≠ "div") (repeated : CopiesAvoid "div" copies)
    (below : CopiesAvoid "div" children) {before after : List (Unrolled Placement)}
    {tree : Unrolled Placement}
    (printed : (placeRow selector number copies).1 ++ (placeRow selector 0 children).1 =
      before ++ tree :: after) :
    ∃ count original, tree = (placeTree selector count original).1 ∧
      CopiesAvoid "div" [original] ∧
      compound original.label (count + 1) = compound original.label (1 + before.countP isDiv) := by
  rcases append_eq_split printed with ⟨later, inside⟩ | ⟨earlier, rfl, inside⟩
  · obtain ⟨front, original, back, rfl, _, found⟩ := placeRow_split inside
    exact ⟨_, original, found, repeated.split.2.single,
      compound_of_ne (other original (by simp)) _ _⟩
  · obtain ⟨front, original, back, rfl, rfl, found⟩ := placeRow_split inside
    refine ⟨_, original, found, below.split.2.single, ?_⟩
    rw [List.countP_append, countP_placeRow, countP_of_ne other, countP_placeRow,
      placeRow_count below.split.1]
    congr 1
    omega

/-- A tree in the place that its position says. -/
structure Positioned (path : List String) (tree : Unrolled Placement) : Prop where
  placed : ∃ parent count original, tree = (placeTree parent count original).1 ∧
    CopiesAvoid "div" [original]
  selector : tree.label.selector = " > ".intercalate path
  started : path ≠ []
  present : tree.label.selector ≠ ""

theorem Positioned.inside {path : List String} {parent tree : Unrolled Placement}
    {before after : List (Unrolled Placement)} (positioned : Positioned path parent)
    (printed : content parent = before ++ tree :: after) :
    Positioned (path ++ [compound tree.label.toMark (1 + before.countP isDiv)]) tree := by
  obtain ⟨⟨outer, count, ⟨mark, copies, children⟩, rfl, avoids⟩, selector, started, present⟩ :=
    positioned
  cases avoids with
  | cons other repeated below _ =>
    rw [content] at printed
    split at printed
    next => simp at printed
    next =>
      rw [placeTree_copies, placeTree_children, Unrolled.label_node] at printed
      rw [placeTree_label, Unrolled.label_node] at selector present
      obtain ⟨at_, original, rfl, avoids, same⟩ := placed_inside other repeated below printed
      have joined : (placeTree (placeMark mark outer count).selector at_ original).1.label.selector =
          " > ".intercalate (path ++ [compound original.label (1 + before.countP isDiv)]) := by
        rw [placeTree_label, selector_below present, same,
          String.intercalate_append_of_ne_nil started (by simp), ← selector]
        simp
      refine ⟨⟨_, at_, original, rfl, avoids⟩, ?_, by simp, ?_⟩
      · rw [joined, placeTree_label]
        rfl
      · rw [placeTree_label, selector_below present]
        simp

theorem Positioned.root {mark : Mark} {copies children : List (Unrolled Mark)}
    (landmark : mark.tag ∈ landmarkTags) (avoids : CopiesAvoid "div" [.node mark copies children]) :
    Positioned [compound mark 1] (placeTree "" 0 (.node mark copies children)).1 := by
  have selector := selector_landmark landmark 0 1
  refine ⟨⟨"", 0, _, rfl, avoids⟩, ?_, by simp, ?_⟩
  · rw [placeTree_label, Unrolled.label_node, selector, String.intercalate_singleton]
  · rw [placeTree_label, Unrolled.label_node, selector, compound]
    intro empty
    have untagged : mark.tag = "" := by simp_all
    rw [untagged] at landmark
    revert landmark
    decide

theorem Stands.positioned {page : List (Unrolled Placement)} {path : List String}
    {tree root : Unrolled Placement} (stands : Stands page path tree) (single : page = [root])
    (start : Positioned [compound root.label.toMark 1] root) : Positioned path tree := by
  induction stands with
  | @top before after tree printed =>
    obtain ⟨rfl, rfl, rfl⟩ : before = [] ∧ tree = root ∧ after = [] := by
      cases before <;> simp_all
    exact start
  | inside _ printed ih => exact ih.inside printed

theorem visitsTree_sublist {α : Type} {row : List (Unrolled α)} {tree : Unrolled α}
    (member : tree ∈ row) : (visitsTree tree).Sublist (visits row) := by
  induction row with
  | nil => cases member
  | cons first rest ih =>
    rw [visits]
    rcases List.mem_cons.mp member with rfl | later
    · exact List.sublist_append_left ..
    · exact (ih later).trans (List.sublist_append_right ..)

theorem visitsTree_copy {α : Type} {parent tree : Unrolled α} (member : tree ∈ parent.copies) :
    (visitsTree tree).Sublist (visitsTree parent) := by
  obtain ⟨label, copies, children⟩ := parent
  rw [visitsTree]
  exact ((visitsTree_sublist member).trans (List.sublist_append_left ..)).cons label

theorem visitsTree_child {α : Type} {parent tree : Unrolled α} (member : tree ∈ parent.children) :
    (visitsTree tree).Sublist (visitsTree parent) := by
  obtain ⟨label, copies, children⟩ := parent
  rw [visitsTree]
  exact ((visitsTree_sublist member).trans (List.sublist_append_right ..)).cons label

theorem visitsTree_content {parent tree : Unrolled Placement} (member : tree ∈ content parent) :
    (visitsTree tree).Sublist (visitsTree parent) := by
  rw [content] at member
  split at member
  next => cases member
  next => exact (List.mem_append.mp member).elim visitsTree_copy visitsTree_child

theorem Stands.mem_visits {page : List (Unrolled Placement)} {path : List String}
    {tree : Unrolled Placement} (stands : Stands page path tree) : tree.label ∈ visits page := by
  have below : (visitsTree tree).Sublist (visits page) := by
    induction stands with
    | top printed => exact visitsTree_sublist (by simp [printed])
    | inside _ printed ih => exact (visitsTree_content (by simp [printed])).trans ih
  apply below.subset
  cases tree
  simp [visitsTree]

/-- On a page below a landmark, without `div`s among its templates, the styles of every printed
element are recorded under the compounds of its printed ancestors and its own. -/
theorem selector_eq_position {root : Node} {tag : String} {styles : Styles}
    (tagged : root.own.tag = some tag) (landmark : tag ∈ landmarkTags)
    (avoids : AvoidsTemplate "div" root) (collected : collectStyles placeholder root = .ok styles) :
    ∃ trees, Unrolls placeholder [root] trees ∧ render placeholder root = .ok (writeRow trees) ∧
      let page := (placeRow "" 0 trees).1
      Folds {} ((visits page).flatMap Placement.events) styles ∧
        ∀ path tree, Stands page path tree →
          tree.label ∈ visits page ∧ tree.label.selector = " > ".intercalate path := by
  obtain ⟨trees, unrolled, same⟩ := collectStyles_eq_ok.mp collected
  refine ⟨trees, unrolled, Markup.render_of_unrolls unrolled, same ▸ folds_recordAll {} _, ?_⟩
  intro path tree stands
  refine ⟨stands.mem_visits, ?_⟩
  have copies : CopiesAvoid "div" trees := unrolled.copiesAvoid (by decide) (by simpa using avoids)
  cases unrolled with
  | inert untagged => cases untagged.symm.trans tagged
  | element tagged' _ _ _ others =>
    cases tagged.symm.trans tagged'
    cases others
    simp only [placeRow] at stands
    refine (stands.positioned rfl ?_).selector
    rw [placeTree_label]
    exact Positioned.root landmark copies

/-- A page with nested blueprints whose instances hold `div`s, an inert node, and content that
is not printed. -/
def gallery : Node where
  own := { tag := some "body", className := some "home" }
  blueprint := some {
    count := .literal 2
    template := {
      own := {
        tag := some "section"
        style := some "order: cwrapIndex"
        extensions := [⟨":hover", "h"⟩]
        mediaQueries := [⟨"print", "order: cwrapIndex"⟩] }
      blueprint := some {
        count := .expression "cwrapIndex+1"
        template := {
          own := { tag := some "p", className := some "n-cwrapIndex", style := some "p" } } }
      children := [{ own := { tag := some "div", style := some "a" } }] } }
  children := [
    { own := { tag := some "img" }
      children := [{ own := { tag := some "div", style := some "b" } }] },
    { children := [{ own := { tag := some "div" } }] },
    { own := { tag := some "div", style := some "c" } },
    { own := {
        tag := some "div"
        className := some "last"
        style := some "d"
        extensions := [⟨"::after", "e"⟩]
        mediaQueries := [⟨"tall", "f"⟩, ⟨"print", "g"⟩] } }]

def galleryStyles : Styles where
  rules := .ofList [
    ("body.home > section", "order: 1"),
    ("body.home > section:hover", "h"),
    ("body.home > section > p.n-0", "p"),
    ("body.home > section > div:nth-of-type(1)", "a"),
    ("body.home > section > p.n-1", "p"),
    ("body.home > img > div:nth-of-type(1)", "b"),
    ("body.home > div:nth-of-type(1)", "c"),
    ("body.home > div:nth-of-type(2).last", "d"),
    ("body.home > div:nth-of-type(2).last::after", "e")]
  media := .ofList [
    ("print", .ofList [("body.home > section", "order: 1"), ("body.home > div:nth-of-type(2).last", "g")]),
    ("tall", .ofList [("body.home > div:nth-of-type(2).last", "f")])]

theorem selector_eq_position_gallery :
    "body" ∈ landmarkTags ∧ AvoidsTemplate "div" gallery ∧
      collectStyles .standard gallery = .ok galleryStyles ∧
      ∃ trees, Unrolls .standard [gallery] trees ∧
        render .standard gallery = .ok (writeRow trees) ∧
        Folds {} ((visits (placeRow "" 0 trees).1).flatMap Placement.events) galleryStyles ∧
        ∀ path tree, Stands (placeRow "" 0 trees).1 path tree →
          tree.label ∈ visits (placeRow "" 0 trees).1 ∧
            tree.label.selector = " > ".intercalate path := by
  have landmark : "body" ∈ landmarkTags := by decide
  have avoids : AvoidsTemplate "div" gallery := .of_templates (by decide)
  have collected : collectStyles .standard gallery = .ok galleryStyles := by cbv
  exact ⟨landmark, avoids, collected, selector_eq_position rfl landmark avoids collected⟩

end Pagewright.Style
