import Pagewright.Proofs.Style.Position
import Pagewright.Proofs.Text.Digits
import Pagewright.Proofs.Text.Span

/-! Sibling `div`s. Those from one source, the instances of their parent or its children, are
numbered upwards and never share a selector. The two sources are counted apart, so an instance and
a child can meet under one selector, and then the later of them overwrites the other. -/

namespace Pagewright.Style

open Skeleton Expansion
open Markup (render writeRow)

variable {placeholder : Placeholder}

theorem classStep_injective {first second : Option String}
    (same : classStep first = classStep second) : first = second := by
  have dotted : ∀ name : String, "." ++ name ≠ "" := fun name empty => by simp at empty
  rcases first with _ | first <;> rcases second with _ | second
  · rfl
  · exact absurd same.symm (dotted second)
  · exact absurd same (dotted first)
  · exact congrArg some ((String.append_right_inj ".").mp same)

def divSelector (parent : String) (number : Nat) (className : Option String) : String :=
  parent ++ (" > div:nth-of-type(" ++ String.ofList (Text.writeNatural number) ++ ")") ++
    classStep className

/-- The selector of a `div` below a parent tells its number and its class. -/
theorem divSelector_inj {parent : String} {first second : Nat} {one other : Option String} :
    divSelector parent first one = divSelector parent second other ↔
      first = second ∧ one = other := by
  constructor
  · intro same
    have texts : Text.writeNatural first ++ ')' :: (classStep one).toList =
        Text.writeNatural second ++ ')' :: (classStep other).toList := by
      simpa [divSelector] using congrArg String.toList same
    have closed : Text.isAsciiDigit ')' = false := by decide
    obtain ⟨digits, classes⟩ := Text.span_inj (fun c member => Text.isAsciiDigit_of_mem_writeNatural member)
      (fun c member => Text.isAsciiDigit_of_mem_writeNatural member) (Text.stops_cons closed) (Text.stops_cons closed)
      texts
    exact ⟨Text.writeNatural_injective digits, classStep_injective (String.toList_inj.mp (List.cons.inj classes).2)⟩
  · intro given
    obtain ⟨rfl, rfl⟩ := given
    rfl

theorem selector_of_div {mark : Mark} (numbered : mark.isDiv = true) (parent : String)
    (count : Nat) :
    (placeMark mark parent count).selector =
      divSelector parent (placeMark mark parent count).number mark.own.className := by
  have plain : "div" ∉ landmarkTags := by decide
  rw [Mark.isDiv, decide_eq_true_eq] at numbered
  simp only [placeMark, stepText, divSelector, numbered, if_neg plain, if_true]

theorem div_in_row {parent : String} {count : Nat} {row : List (Unrolled Mark)}
    {tree : Unrolled Placement} (member : tree ∈ (placeRow parent count row).1)
    (numbered : isDiv tree = true) :
    count < tree.label.number ∧
      tree.label.selector = divSelector parent tree.label.number tree.label.own.className := by
  obtain ⟨before, after, placed⟩ := List.append_of_mem member
  obtain ⟨front, original, _, rfl, _, rfl⟩ := placeRow_split placed
  rw [isDiv, placeTree_label] at numbered
  rw [placeTree_label]
  refine ⟨?_, selector_of_div numbered parent _⟩
  have least := le_placeRow parent count front
  have tag : original.label.tag = "div" := of_decide_eq_true numbered
  simp only [placeMark, if_pos tag]
  omega

theorem number_le_placeTree (parent : String) (count : Nat) (tree : Unrolled Mark) :
    (placeTree parent count tree).1.label.number ≤ (placeTree parent count tree).2 := by
  obtain ⟨mark, copies, children⟩ := tree
  rw [placeTree]
  refine Nat.le_trans ?_ (le_placeRow _ (countAfter mark.tag count) copies)
  simp only [Unrolled.label_node, placeMark, countAfter]
  split <;> omega

theorem pairwise_number (parent : String) (count : Nat) (row : List (Unrolled Mark)) :
    ((placeRow parent count row).1.filter isDiv).Pairwise
      fun first second => first.label.number < second.label.number := by
  induction row generalizing count with
  | nil => exact .nil
  | cons first rest ih =>
    simp only [placeRow, List.filter_cons]
    split
    next =>
      refine List.pairwise_cons.mpr ⟨?_, ih _⟩
      intro tree member
      obtain ⟨inside, numbered⟩ := List.mem_filter.mp member
      have above := (div_in_row inside numbered).1
      have below := number_le_placeTree parent count first
      omega
    next => exact ih _

theorem pairwise_selector (parent : String) (count : Nat) (row : List (Unrolled Mark)) :
    ((placeRow parent count row).1.filter isDiv).Pairwise
      fun first second => first.label.selector ≠ second.label.selector := by
  refine (pairwise_number parent count row).imp_of_mem ?_
  intro first second one other less same
  obtain ⟨inside, numbered⟩ := List.mem_filter.mp one
  obtain ⟨inside', numbered'⟩ := List.mem_filter.mp other
  rw [(div_in_row inside numbered).2, (div_in_row inside' numbered').2, divSelector_inj] at same
  omega

theorem Stands.placed {row : List (Unrolled Mark)} {path : List String} {tree : Unrolled Placement}
    {parent : String} {count : Nat} (stands : Stands (placeRow parent count row).1 path tree) :
    ∃ above before original, tree = (placeTree above before original).1 := by
  generalize placed : (placeRow parent count row).1 = page at stands
  induction stands with
  | top printed =>
    obtain ⟨_, original, _, _, _, found⟩ := placeRow_split (placed.trans printed)
    exact ⟨parent, _, original, found⟩
  | inside _ printed ih =>
    obtain ⟨above, before, original, rfl⟩ := ih
    rw [content] at printed
    split at printed
    next => simp at printed
    next =>
      rw [placeTree_copies, placeTree_children] at printed
      rcases append_eq_split printed with ⟨_, copies⟩ | ⟨_, _, children⟩
      · obtain ⟨_, original, _, _, _, found⟩ := placeRow_split copies
        exact ⟨_, _, original, found⟩
      · obtain ⟨_, original, _, _, _, found⟩ := placeRow_split children
        exact ⟨_, _, original, found⟩

/-- No two `div`s that are printed below one parent have the same selector. -/
def SiblingDivsApart (page : List (Unrolled Placement)) : Prop :=
  ∀ path parent, Stands page path parent →
    ((content parent).filter isDiv).Pairwise
      fun first second => first.label.selector ≠ second.label.selector

/-- The instances of the inner element count on the level of the body, its child on its own. -/
def crossing : Node where
  own := { tag := some "body" }
  children := [{
    own := { tag := some "main" }
    blueprint := some { count := .literal 2, template := { own := { tag := some "div", style := some "bp" } } }
    children := [{ own := { tag := some "div", style := some "child" } }] }]

def crossingStyles : Styles where
  rules := .ofList [
    ("body > main > div:nth-of-type(1)", "child"),
    ("body > main > div:nth-of-type(2)", "bp")]

private def crossingCopy : Node where
  own := { tag := some "div", style := some "bp" }

private def crossingTrees : List (Unrolled Mark) :=
  [.node ⟨"body", { tag := some "body" }⟩ []
    [.node ⟨"main", { tag := some "main" }⟩
      [.node ⟨"div", crossingCopy.own⟩ [] [], .node ⟨"div", crossingCopy.own⟩ [] []]
      [.node ⟨"div", { tag := some "div", style := some "child" }⟩ [] []]]]

private theorem unrolls_crossing : Unrolls .standard [crossing] crossingTrees := by
  have alone : Unrolls .standard [] [] := .nil
  have copies : Unrolls .standard [crossingCopy, crossingCopy]
      [.node ⟨"div", crossingCopy.own⟩ [] [], .node ⟨"div", crossingCopy.own⟩ [] []] :=
    .element rfl rfl alone alone (.element rfl rfl alone alone alone)
  exact .element rfl rfl alone
    (.element rfl (by cbv) copies (.element rfl rfl alone alone alone) alone) alone

/-- The first instance and the child are both numbered one, so three `div`s are printed and two
rules are left. -/
theorem crossing_not_apart :
    collectStyles .standard crossing = .ok crossingStyles ∧
      render .standard crossing = .ok "<body><main><div></div><div></div><div></div></main></body>" ∧
      ∃ trees, Unrolls .standard [crossing] trees ∧ ¬ SiblingDivsApart (placeRow "" 0 trees).1 := by
  refine ⟨by cbv, by cbv, crossingTrees, unrolls_crossing, ?_⟩
  intro apart
  have pair := apart _ _ (.inside (.top (show _ = [] ++ _ :: [] from rfl)) (show _ = [] ++ _ :: [] from rfl))
  revert pair
  decide +kernel

/-- Two `div`s that both are instances of their parent, or both its children, never share a
selector. An instance and a child share one exactly when the two counts gave them the same number
and their classes agree. -/
theorem sibling_selectors {root : Node} {styles : Styles}
    (collected : collectStyles placeholder root = .ok styles) :
    ∃ trees, Unrolls placeholder [root] trees ∧ render placeholder root = .ok (writeRow trees) ∧
      let page := (placeRow "" 0 trees).1
      styles = recordAll {} (visits page) ∧
        ∀ path parent, Stands page path parent →
          (parent.copies.filter isDiv).Pairwise
            (fun first second => first.label.selector ≠ second.label.selector) ∧
          (parent.children.filter isDiv).Pairwise
            (fun first second => first.label.selector ≠ second.label.selector) ∧
          ∀ copy ∈ parent.copies, ∀ child ∈ parent.children, isDiv copy → isDiv child →
            (copy.label.selector = child.label.selector ↔
              copy.label.number = child.label.number ∧
                copy.label.own.className = child.label.own.className) := by
  obtain ⟨trees, unrolled, same⟩ := collectStyles_eq_ok.mp collected
  refine ⟨trees, unrolled, Markup.render_of_unrolls unrolled, same, ?_⟩
  intro path parent stands
  obtain ⟨above, before, original, rfl⟩ := stands.placed
  rw [placeTree_copies, placeTree_children]
  refine ⟨pairwise_selector .., pairwise_selector .., ?_⟩
  intro copy repeated child below numbered also
  rw [(div_in_row repeated numbered).2, (div_in_row below also).2, divSelector_inj]

theorem sibling_selectors_crossing :
    collectStyles .standard crossing = .ok crossingStyles ∧
      ∃ trees, Unrolls .standard [crossing] trees ∧
        render .standard crossing = .ok (writeRow trees) ∧
        crossingStyles = recordAll {} (visits (placeRow "" 0 trees).1) ∧
        ∀ path parent, Stands (placeRow "" 0 trees).1 path parent →
          (parent.copies.filter isDiv).Pairwise
            (fun first second => first.label.selector ≠ second.label.selector) ∧
          (parent.children.filter isDiv).Pairwise
            (fun first second => first.label.selector ≠ second.label.selector) ∧
          ∀ copy ∈ parent.copies, ∀ child ∈ parent.children, isDiv copy → isDiv child →
            (copy.label.selector = child.label.selector ↔
              copy.label.number = child.label.number ∧
                copy.label.own.className = child.label.own.className) := by
  have collected : collectStyles .standard crossing = .ok crossingStyles := by cbv
  exact ⟨collected, sibling_selectors collected⟩

end Pagewright.Style
