import Pagewright.Proofs.Style.Sibling

/-! The counters of the open levels. The level of a node holds its own element and the levels of its
instances, while its children have a level to themselves. A node that has been collected leaves the
innermost counter raised by the `div`s of its level, which have got the numbers in between, and all
other counters as they were. -/

namespace Pagewright.Expansion.Unrolled

variable {α : Type}

mutual

/-- What stands on the level of a tree, in the order in which it is visited. -/
def levelTree : Unrolled α → List α
  | .node label copies _ => label :: level copies

def level : List (Unrolled α) → List α
  | [] => []
  | tree :: rest => levelTree tree ++ level rest

end

theorem level_cons (label : α) (copies children rest : List (Unrolled α)) :
    level (.node label copies children :: rest) = label :: (level copies ++ level rest) := by
  rw [level, levelTree, List.cons_append]

/-- A tree that stands somewhere in a row or below it. -/
inductive Inside (row : List (Unrolled α)) : Unrolled α → Prop where
  | top {tree : Unrolled α} (member : tree ∈ row) : Inside row tree
  | copy {parent tree : Unrolled α} (inside : Inside row parent) (member : tree ∈ parent.copies) : Inside row tree
  | child {parent tree : Unrolled α} (inside : Inside row parent) (member : tree ∈ parent.children) : Inside row tree

end Pagewright.Expansion.Unrolled

namespace Pagewright.Style

open Skeleton Expansion
open Unrolled (level level_cons Inside)

variable {placeholder : Placeholder}

/-- The `div`s of a level. -/
def levelDivs (row : List (Unrolled Mark)) : List Mark := (level row).filter Mark.isDiv

/-- The numbers that the `div`s of a level have got. -/
def levelNumbers (row : List (Unrolled Placement)) : List Nat :=
  ((level row).filter (·.isDiv)).map (·.number)

theorem level_sublist_visits {α : Type} (row : List (Unrolled α)) : (level row).Sublist (visits row) := by
  induction row using Unrolled.rowInduction with
  | nil => exact .slnil
  | node label copies children rest repeated _ others =>
    rw [level_cons, visits, visitsTree, List.cons_append, List.append_assoc]
    exact .cons_cons label (repeated.append (others.trans (List.sublist_append_right ..)))

theorem levelDivs_cons (mark : Mark) (copies children rest : List (Unrolled Mark)) :
    levelDivs (.node mark copies children :: rest) =
      (if mark.tag = "div" then [mark] else []) ++ levelDivs copies ++ levelDivs rest := by
  by_cases numbered : mark.tag = "div" <;> simp [levelDivs, level_cons, Mark.isDiv, numbered]

theorem countAfter_eq (mark : Mark) (count : Nat) :
    countAfter mark.tag count = count + (if mark.tag = "div" then [mark] else []).length := by
  unfold countAfter
  split <;> rfl

/-- A row raises the count of its level by the `div`s on it. -/
theorem placeRow_levelDivs (parent : String) (count : Nat) (row : List (Unrolled Mark)) :
    (placeRow parent count row).2 = count + (levelDivs row).length := by
  induction row using Unrolled.rowInduction generalizing parent count with
  | nil => rfl
  | node mark copies children rest repeated _ others =>
    simp only [placeRow_cons, levelDivs_cons, others, repeated, countAfter_eq, List.length_append]
    omega

theorem levelNumbers_cons (placement : Placement) (copies children rest : List (Unrolled Placement)) :
    levelNumbers (.node placement copies children :: rest) =
      (if placement.tag = "div" then [placement.number] else []) ++ levelNumbers copies ++ levelNumbers rest := by
  by_cases numbered : placement.tag = "div" <;> simp [levelNumbers, level_cons, Mark.isDiv, numbered]

theorem number_placeMark (mark : Mark) (parent : String) (count : Nat) :
    (if mark.tag = "div" then [(placeMark mark parent count).number] else []) =
      List.range' (count + 1) (if mark.tag = "div" then [mark] else []).length := by
  by_cases numbered : mark.tag = "div" <;> simp [placeMark, numbered]

/-- The `div`s of a level get the numbers behind the count one after the other. -/
theorem levelNumbers_placeRow (parent : String) (count : Nat) (row : List (Unrolled Mark)) :
    levelNumbers (placeRow parent count row).1 = List.range' (count + 1) (levelDivs row).length := by
  induction row using Unrolled.rowInduction generalizing parent count with
  | nil => rfl
  | node mark copies children rest repeated _ others =>
    have own := number_placeMark mark parent count
    rw [placeRow_cons, levelNumbers_cons, levelDivs_cons]
    simp only [repeated, others, placeRow_levelDivs, countAfter_eq, List.length_append]
    rw [← List.range'_append_1, ← List.range'_append_1, ← own, ← Nat.add_assoc (count + 1),
      Nat.add_right_comm (count + _), Nat.add_right_comm count _ 1]
    rfl

theorem level_placeRow (parent : String) (count : Nat) (row : List (Unrolled Mark)) :
    (level (placeRow parent count row).1).map (·.toMark) = level row := by
  induction row using Unrolled.rowInduction generalizing parent count with
  | nil => rfl
  | node mark copies children rest repeated _ others =>
    rw [placeRow_cons, level_cons, level_cons, List.map_cons, List.map_append, repeated, others]
    rfl

theorem mem_placeRow {parent : String} {count : Nat} {row : List (Unrolled Mark)} {tree : Unrolled Placement}
    (member : tree ∈ (placeRow parent count row).1) :
    ∃ before original, tree = (placeTree parent before original).1 := by
  obtain ⟨before, after, placed⟩ := List.append_of_mem member
  obtain ⟨_, original, _, _, _, found⟩ := placeRow_split placed
  exact ⟨_, original, found⟩

theorem placed_of_inside {parent : String} {count : Nat} {row : List (Unrolled Mark)} {tree : Unrolled Placement}
    (inside : Inside (placeRow parent count row).1 tree) :
    ∃ above before original, tree = (placeTree above before original).1 := by
  induction inside with
  | top member => exact ⟨parent, mem_placeRow member⟩
  | copy _ member ih =>
    obtain ⟨above, before, original, rfl⟩ := ih
    rw [placeTree_copies] at member
    exact ⟨_, mem_placeRow member⟩
  | child _ member ih =>
    obtain ⟨above, before, original, rfl⟩ := ih
    rw [placeTree_children] at member
    exact ⟨_, mem_placeRow member⟩

/-- The `div`s of a row have their numbers in their selectors. -/
def Numbered (parent : String) (row : List (Unrolled Placement)) : Prop :=
  ∀ tree ∈ row, isDiv tree = true →
    tree.label.selector = divSelector parent tree.label.number tree.label.own.className

theorem numbered_placeRow (parent : String) (count : Nat) (row : List (Unrolled Mark)) :
    Numbered parent (placeRow parent count row).1 :=
  fun _ member numbered => (div_in_row member numbered).2

/-- What collecting the trees below a parent does to the counters, and the numbers that it gives. -/
structure Counts (parent : String) (trees : List (Unrolled Mark)) (page : List (Unrolled Placement))
    (start last : Collection) : Prop where
  styles : last.styles = recordAll start.styles (visits page)
  kept : levelDivs trees = [] → last.levels = start.levels
  raised : levelDivs trees ≠ [] → ∀ count outer, start.levels = count :: outer →
    last.levels = (count + (levelDivs trees).length) :: outer
  opened : levelDivs trees ≠ [] → start.levels = [] → last.levels = [(levelDivs trees).length]
  labels : (level page).map (·.toMark) = level trees
  order : (level page).Sublist (visits page)
  numbers : levelNumbers page = List.range' (innermost start.levels + 1) (levelDivs trees).length
  below : ∀ element, Inside page element →
    levelNumbers element.children = List.range' 1 (levelNumbers element.children).length
  selectors : Numbered parent page ∧ ∀ element, Inside page element →
    Numbered element.label.selector element.copies ∧ Numbered element.label.selector element.children

theorem visits_of_inside {row : List (Unrolled Placement)} {tree : Unrolled Placement} (inside : Inside row tree) :
    (visitsTree tree).Sublist (visits row) := by
  induction inside with
  | top member => exact visitsTree_sublist member
  | copy _ member ih => exact (visitsTree_copy member).trans ih
  | child _ member ih => exact (visitsTree_child member).trans ih

section Bounds

variable {parent : String} {trees : List (Unrolled Mark)} {page : List (Unrolled Placement)} {start last : Collection}

theorem length_levelNumbers_le (row : List (Unrolled Placement)) : (levelNumbers row).length ≤ (visits row).length := by
  rw [levelNumbers, List.length_map]
  exact (List.length_filter_le ..).trans (level_sublist_visits row).length_le

theorem Counts.length_levelDivs (counts : Counts parent trees page start last) :
    (levelDivs trees).length = (levelNumbers page).length := by
  rw [counts.numbers, List.length_range']

/-- A counter never goes beyond a bound that has room for the count it starts from and for all elements of the page,
so a word of a machine holds it wherever the page fits into its memory. -/
theorem Counts.lt {bound : Nat} (counts : Counts parent trees page start last)
    (given : ∀ count ∈ start.levels, count < bound) (room : innermost start.levels + (visits page).length < bound) :
    (∀ number ∈ levelNumbers page, number < bound) ∧
      (∀ element, Inside page element → ∀ number ∈ levelNumbers element.children, number < bound) ∧
      ∀ count ∈ last.levels, count < bound := by
  have divs : (levelDivs trees).length ≤ (visits page).length :=
    counts.length_levelDivs ▸ length_levelNumbers_le page
  refine ⟨fun number member => ?_, fun element inside number member => ?_, fun count member => ?_⟩
  · rw [counts.numbers, List.mem_range'_1] at member
    omega
  · have below : (visits element.children).length ≤ (visits page).length := by
      refine (List.Sublist.trans ?_ (visits_of_inside inside)).length_le
      cases element
      rw [visitsTree]
      exact (List.sublist_append_right ..).cons _
    have fewer := length_levelNumbers_le element.children
    rw [counts.below element inside, List.mem_range'_1] at member
    omega
  · by_cases none : levelDivs trees = []
    · exact given count (counts.kept none ▸ member)
    · cases levels : start.levels with
      | nil =>
        rw [counts.opened none levels, List.mem_singleton] at member
        omega
      | cons first outer =>
        have same : innermost start.levels = first := by rw [levels]; rfl
        rw [counts.raised none first outer levels] at member
        rcases List.mem_cons.mp member with rfl | rest
        · omega
        · exact given count (levels ▸ List.mem_cons_of_mem first rest)

end Bounds

theorem levelsAfter_raised (levels : List Nat) {number : Nat} (nonzero : number ≠ 0) :
    levelsAfter levels (innermost levels + number) = (innermost levels + number) :: levels.tail :=
  if_neg (by omega)

/-- A node that has been collected has counted the `div`s of its level on the innermost counter and
nothing anywhere else. They have the numbers from there on, and those of each list of children the
numbers from one. -/
theorem counters_kept {node : Node} {parent selector : String} {start last : Collection}
    (collected : outcome (collect placeholder parent node) start = (.ok selector, last)) :
    ∃ trees, Unrolls placeholder [node] trees ∧
      Counts parent trees (placeRow parent (innermost start.levels) trees).1 start last := by
  obtain ⟨trees, unrolled⟩ := unrolls_of_collect collected
  obtain ⟨_, same⟩ := outcome_collect unrolled parent start
  rw [collected] at same
  obtain ⟨_, rfl⟩ := Prod.mk.inj same
  refine ⟨trees, unrolled, ?_⟩
  have count := placeRow_levelDivs parent (innermost start.levels) trees
  have nonzero : levelDivs trees ≠ [] → (levelDivs trees).length ≠ 0 := fun present => by simpa using present
  exact {
    styles := rfl
    kept := fun empty => by
      rw [count, empty]
      exact levelsAfter_self _
    raised := fun present first outer levels => by
      rw [count, levelsAfter_raised _ (nonzero present), levels]
      rfl
    opened := fun present levels => by
      rw [count, levelsAfter_raised _ (nonzero present), levels]
      simp [innermost]
    labels := level_placeRow ..
    order := level_sublist_visits _
    numbers := levelNumbers_placeRow ..
    below := fun element inside => by
      obtain ⟨above, before, original, rfl⟩ := placed_of_inside inside
      rw [placeTree_children, levelNumbers_placeRow, List.length_range']
    selectors := by
      refine ⟨numbered_placeRow _ _ _, fun element inside => ?_⟩
      obtain ⟨above, before, original, rfl⟩ := placed_of_inside inside
      rw [placeTree_copies, placeTree_children, placeTree_label]
      exact ⟨numbered_placeRow _ _ _, numbered_placeRow _ _ _⟩ }

/-- On the level of the outer `div` stand its two instances and the `div` that each of them repeats. -/
def strip : Node where
  own := { tag := some "div", style := some "outer" }
  blueprint := some {
    count := .literal 2
    template := {
      own := { tag := some "div", className := some "card", style := some "card" }
      blueprint := some { count := .literal 1, template := { own := { tag := some "div", style := some "inner" } } }
      children := [{ own := { tag := some "div", style := some "text" } }] } }
  children := [{ own := { tag := some "div" } }, {}, { own := { tag := some "div", style := some "last" } }]

def stripStyles : Styles where
  rules := .ofList [
    ("body > div:nth-of-type(4)", "outer"),
    ("body > div:nth-of-type(4) > div:nth-of-type(5).card", "card"),
    ("body > div:nth-of-type(4) > div:nth-of-type(5).card > div:nth-of-type(6)", "inner"),
    ("body > div:nth-of-type(4) > div:nth-of-type(5).card > div:nth-of-type(1)", "text"),
    ("body > div:nth-of-type(4) > div:nth-of-type(7).card", "card"),
    ("body > div:nth-of-type(4) > div:nth-of-type(7).card > div:nth-of-type(8)", "inner"),
    ("body > div:nth-of-type(4) > div:nth-of-type(7).card > div:nth-of-type(1)", "text"),
    ("body > div:nth-of-type(4) > div:nth-of-type(2)", "last")]

theorem counters_kept_strip :
    outcome (collect .standard "body" strip) { levels := [3, 1] } =
        (.ok "body > div:nth-of-type(4)", { styles := stripStyles, levels := [8, 1] }) ∧
      ∃ trees, Unrolls .standard [strip] trees ∧
        Counts "body" trees (placeRow "body" 3 trees).1 { levels := [3, 1] } { styles := stripStyles, levels := [8, 1] } := by
  have collected : outcome (collect .standard "body" strip) { levels := [3, 1] } =
      (.ok "body > div:nth-of-type(4)", { styles := stripStyles, levels := [8, 1] }) := by cbv
  exact ⟨collected, counters_kept collected⟩

end Pagewright.Style
