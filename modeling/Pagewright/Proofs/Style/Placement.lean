import Pagewright.Proofs.Style.Walk

/-! Where the walk places the elements of an unrolled tree: under which selector each is
recorded, and what the counters are afterwards. Of all open levels only the innermost counts,
so one number stands for them. -/

namespace Pagewright.Style

open Skeleton Expansion

variable {placeholder : Placeholder}

/-- An element with the selector it is recorded under. A `div` is numbered by the count of its
level once it has been met; other tags are numbered zero. -/
structure Placement extends Mark where
  number : Nat
  selector : String

def countAfter (tag : String) (count : Nat) : Nat := if tag = "div" then count + 1 else count

/-- What a tag adds to the selector of its parent when the count of its level has become this. -/
def stepText (parent tag : String) (number : Nat) : String :=
  if tag ∈ landmarkTags then if parent.isEmpty then tag else " > " ++ tag
  else if tag = "div" then " > div:nth-of-type(" ++ String.ofList (Text.writeNatural number) ++ ")"
  else " > " ++ tag

def placeMark (mark : Mark) (parent : String) (count : Nat) : Placement :=
  let number := if mark.tag = "div" then count + 1 else 0
  { mark with
    number
    selector := parent ++ stepText parent mark.tag number ++ classStep mark.own.className }

mutual

/-- Places a tree below a parent on a level with a count, and gives the count afterwards. -/
def placeTree (parent : String) (count : Nat) : Unrolled Mark → Unrolled Placement × Nat
  | .node mark copies children =>
    let placement := placeMark mark parent count
    let (copies, after) := placeRow placement.selector (countAfter mark.tag count) copies
    (.node placement copies (placeRow placement.selector 0 children).1, after)

def placeRow (parent : String) (count : Nat) :
    List (Unrolled Mark) → List (Unrolled Placement) × Nat
  | [] => ([], count)
  | tree :: rest =>
    let (first, count) := placeTree parent count tree
    let (others, count) := placeRow parent count rest
    (first :: others, count)

end

mutual

def visitsTree {α : Type} : Unrolled α → List α
  | .node label copies children => label :: (visits copies ++ visits children)

def visits {α : Type} : List (Unrolled α) → List α
  | [] => []
  | tree :: rest => visitsTree tree ++ visits rest

end

def Placement.record (styles : Styles) (placement : Placement) : Styles :=
  (Collection.record { styles } placement.selector placement.own).styles

def recordAll (styles : Styles) (placements : List Placement) : Styles :=
  placements.foldl Placement.record styles

theorem recordAll_cons (styles : Styles) (placement : Placement) (rest : List Placement) :
    recordAll styles (placement :: rest) = recordAll (placement.record styles) rest := rfl

theorem recordAll_append (styles : Styles) (front back : List Placement) :
    recordAll styles (front ++ back) = recordAll (recordAll styles front) back := List.foldl_append

def innermost (levels : List Nat) : Nat := levels.headD 0

/-- The levels once the innermost has a count. An empty stack gets a level only to count on. -/
def levelsAfter (levels : List Nat) (count : Nat) : List Nat :=
  if count = innermost levels then levels else count :: levels.tail

theorem countAfter_le (tag : String) (count : Nat) : count ≤ countAfter tag count := by
  unfold countAfter
  split <;> omega

theorem placeRow_cons (parent : String) (count : Nat) (mark : Mark)
    (copies children rest : List (Unrolled Mark)) :
    placeRow parent count (.node mark copies children :: rest) =
      let placement := placeMark mark parent count
      let repeated := placeRow placement.selector (countAfter mark.tag count) copies
      let others := placeRow parent repeated.2 rest
      (.node placement repeated.1 (placeRow placement.selector 0 children).1 :: others.1,
        others.2) := by
  rw [placeRow, placeTree]

theorem le_placeRow (parent : String) (count : Nat) (row : List (Unrolled Mark)) :
    count ≤ (placeRow parent count row).2 := by
  induction row using Unrolled.rowInduction generalizing parent count with
  | nil => exact Nat.le_refl _
  | node mark copies children rest repeated _ others =>
    rw [placeRow_cons]
    exact Nat.le_trans (countAfter_le mark.tag count)
      (Nat.le_trans (repeated _ _) (others _ _))

theorem innermost_levelsAfter (levels : List Nat) (count : Nat) :
    innermost (levelsAfter levels count) = count := by
  unfold levelsAfter
  split
  next same => exact same.symm
  next => rfl

theorem levelsAfter_self (levels : List Nat) : levelsAfter levels (innermost levels) = levels :=
  if_pos rfl

theorem levelsAfter_trans (levels : List Nat) {first second : Nat}
    (least : innermost levels ≤ first) (more : first ≤ second) :
    levelsAfter (levelsAfter levels first) second = levelsAfter levels second := by
  by_cases kept : first = innermost levels
  · rw [kept, levelsAfter_self]
  have opened : levelsAfter levels first = first :: levels.tail := if_neg kept
  have grown : levelsAfter levels second = second :: levels.tail := if_neg (by omega)
  rw [opened, grown]
  by_cases same : second = first
  · rw [same]
    exact if_pos rfl
  · exact if_neg same

theorem levelsAfter_open (levels : List Nat) (count : Nat) :
    levelsAfter (0 :: levels) count = count :: levels := by
  unfold levelsAfter
  split
  next same => rw [same]; rfl
  next => rfl

theorem tagStep_eq (parent tag : String) (collection : Collection) :
    tagStep parent tag collection =
      let count := innermost collection.levels
      (stepText parent tag (if tag = "div" then count + 1 else 0),
        { collection with levels := levelsAfter collection.levels (countAfter tag count) }) := by
  obtain ⟨styles, levels⟩ := collection
  by_cases numbered : tag = "div"
  · subst numbered
    have plain : "div" ∉ landmarkTags := by decide
    have counted : levelsAfter levels (innermost levels + 1) =
        (innermost levels + 1) :: levels.tail := if_neg (by omega)
    simp only [tagStep, stepText, countAfter, if_neg plain, if_true, counted]
    cases levels <;> rfl
  · simp only [tagStep, stepText, countAfter, if_neg numbered, levelsAfter_self]
    split <;> rfl

theorem enter_eq (parent tag : String) (own : Element) (start : Collection) :
    enter parent tag own start =
      let count := innermost start.levels
      let placement := placeMark ⟨tag, own⟩ parent count
      (placement.selector,
        { styles := placement.record start.styles
          levels := levelsAfter start.levels (countAfter tag count) }) := by
  rw [enter, tagStep_eq]
  rfl

theorem visits_append {α : Type} (first second : List (Unrolled α)) :
    visits (first ++ second) = visits first ++ visits second := by
  induction first with
  | nil => rfl
  | cons tree first ih => rw [List.cons_append, visits, visits, ih, List.append_assoc]

/-- The level of the children is closed again, and without children none is opened. -/
private theorem outcome_children {nodes : List Node} {trees : List (Unrolled Mark)}
    (unrolled : Unrolls placeholder nodes trees) (selector : String) (start : Collection)
    (below : outcome (collectRow placeholder selector nodes) start.openLevel =
      let placed := placeRow selector (innermost start.openLevel.levels) trees
      (.ok ⟨⟩, {
        styles := recordAll start.openLevel.styles (visits placed.1)
        levels := levelsAfter start.openLevel.levels placed.2 })) :
    outcome (collectBelow placeholder selector nodes) start =
      (.ok ⟨⟩, {
        start with styles := recordAll start.styles (visits (placeRow selector 0 trees).1) }) := by
  cases nodes with
  | nil =>
    cases unrolled
    rfl
  | cons first rest =>
    rw [outcome_collectBelow (by simp), below]
    have closed : (levelsAfter (0 :: start.levels) (placeRow selector 0 trees).2).drop 1 =
        start.levels := by
      rw [levelsAfter_open]
      rfl
    simp only [Collection.openLevel, Collection.closeLevel, innermost, List.headD_cons, closed]

/-- The walk over a row records its elements where they are placed and leaves the count of the
innermost level raised by their number of `div`s. Levels opened on the way are closed again. -/
theorem outcome_collectRow {nodes : List Node} {trees : List (Unrolled Mark)}
    (unrolled : Unrolls placeholder nodes trees) (parent : String) (start : Collection) :
    outcome (collectRow placeholder parent nodes) start =
      let placed := placeRow parent (innermost start.levels) trees
      (.ok ⟨⟩, {
        styles := recordAll start.styles (visits placed.1)
        levels := levelsAfter start.levels placed.2 }) := by
  induction unrolled generalizing parent start with
  | nil =>
    simp only [outcome_collectRow_nil, placeRow, levelsAfter_self]
    rfl
  | @inert node rest trees untagged _ ih =>
    rw [outcome_collectRow_cons, outcome_collect_inert untagged]
    exact ih parent start
  | @element node rest instances tag copies children trees tagged expanded _ unrolled _
      repeated below others =>
    rw [outcome_collectRow_cons, outcome_collect_element tagged expanded, enter_eq, placeRow_cons]
    dsimp only
    generalize placed : placeMark ⟨tag, node.own⟩ parent (innermost start.levels) = placement
    -- Each part of the element starts on the count that the part before left on this level.
    have more := countAfter_le tag (innermost start.levels)
    have repeats := le_placeRow placement.selector (countAfter tag (innermost start.levels)) copies
    simp only [repeated, innermost_levelsAfter, levelsAfter_trans _ more repeats]
    rw [outcome_children unrolled _ _ (below _ _)]
    simp only [others, innermost_levelsAfter,
      levelsAfter_trans _ (Nat.le_trans more repeats) (le_placeRow parent _ trees)]
    simp only [visits, visitsTree, List.cons_append, recordAll_cons, recordAll_append]

private theorem unrolls_of_row {nodes : List Node}
    (each : ∀ node ∈ nodes, ∀ parent start value last,
      outcome (collect placeholder parent node) start = (.ok value, last) →
      ∃ trees, Unrolls placeholder [node] trees) {parent : String} {start last : Collection}
    (collected : outcome (collectRow placeholder parent nodes) start = (.ok ⟨⟩, last)) :
    ∃ trees, Unrolls placeholder nodes trees := by
  induction nodes generalizing start with
  | nil => exact ⟨[], .nil⟩
  | cons node rest ih =>
    rw [outcome_collectRow_cons] at collected
    split at collected
    next value middle first =>
      obtain ⟨trees, unrolled⟩ := each node (by simp) _ _ _ _ first
      obtain ⟨others, remaining⟩ := ih (fun other member => each other (by simp [member])) collected
      exact ⟨trees ++ others, unrolled.append remaining⟩
    next => cases collected

private theorem unrolls_of_below {nodes : List Node}
    (each : ∀ node ∈ nodes, ∀ parent start value last,
      outcome (collect placeholder parent node) start = (.ok value, last) →
      ∃ trees, Unrolls placeholder [node] trees) {parent : String} {start last : Collection}
    (collected : outcome (collectBelow placeholder parent nodes) start = (.ok ⟨⟩, last)) :
    ∃ trees, Unrolls placeholder nodes trees := by
  by_cases empty : nodes = []
  · exact ⟨[], empty ▸ .nil⟩
  · rw [outcome_collectBelow empty] at collected
    split at collected
    next middle row => exact unrolls_of_row each row
    next => cases collected

theorem unrolls_of_collect {node : Node} {parent value : String} {start last : Collection}
    (collected : outcome (collect placeholder parent node) start = (.ok value, last)) :
    ∃ trees, Unrolls placeholder [node] trees := by
  induction node using expansionInduction placeholder generalizing parent start value last with
  | step node copies children =>
    cases tagged : node.own.tag with
    | none => exact ⟨[], .inert tagged .nil⟩
    | some tag =>
      cases expanded : ownInstances placeholder node with
      | error cause =>
        rw [outcome_collect_failed tagged expanded] at collected
        cases collected
      | ok instances =>
        rw [outcome_collect_element tagged expanded] at collected
        simp only at collected
        split at collected
        next repeated first =>
          split at collected
          next collection second =>
            obtain ⟨copied, repeats⟩ := unrolls_of_row
              (fun copy member _ _ _ _ => copies instances expanded copy member) first
            obtain ⟨placed, below⟩ := unrolls_of_below
              (fun child member _ _ _ _ => children child member) second
            exact ⟨[.node ⟨tag, node.own⟩ copied placed], .element tagged expanded repeats below .nil⟩
          next => cases collected
        next => cases collected

theorem outcome_collect {root : Node} {trees : List (Unrolled Mark)}
    (unrolled : Unrolls placeholder [root] trees) (parent : String) (start : Collection) :
    ∃ selector, outcome (collect placeholder parent root) start =
      let placed := placeRow parent (innermost start.levels) trees
      (.ok selector, {
        styles := recordAll start.styles (visits placed.1)
        levels := levelsAfter start.levels placed.2 }) := by
  have row := outcome_collectRow unrolled parent start
  rw [outcome_collectRow_cons] at row
  rcases result : outcome (collect placeholder parent root) start with ⟨_ | selector, last⟩
  · rw [result] at row
    cases row
  · rw [result] at row
    simp only [outcome_collectRow_nil, Prod.mk.injEq, true_and] at row
    exact ⟨selector, by rw [row]⟩

theorem collectStyles_run (root : Node) :
    collectStyles placeholder root =
      (outcome (collect placeholder "" root) {}).1.map
        fun _ => (outcome (collect placeholder "" root) {}).2.styles := by
  unfold collectStyles outcome
  rcases (collect placeholder "" root).run {} with ⟨_ | _, _⟩ <;> rfl

/-- Styles are collected exactly when every blueprint on the way can be expanded, and then they
are those of the elements where they are placed. -/
theorem collectStyles_eq_ok {root : Node} {styles : Styles} :
    collectStyles placeholder root = .ok styles ↔
      ∃ trees, Unrolls placeholder [root] trees ∧
        styles = recordAll {} (visits (placeRow "" 0 trees).1) := by
  rw [collectStyles_run]
  constructor
  · intro collected
    rcases first : outcome (collect placeholder "" root) {} with ⟨_ | selector, last⟩
    · rw [first] at collected
      cases collected
    · obtain ⟨trees, unrolled⟩ := unrolls_of_collect first
      obtain ⟨_, same⟩ := outcome_collect unrolled "" {}
      rw [same] at collected
      cases collected
      exact ⟨trees, unrolled, rfl⟩
  · intro given
    obtain ⟨trees, unrolled, rfl⟩ := given
    obtain ⟨selector, same⟩ := outcome_collect unrolled "" {}
    rw [same]
    rfl

end Pagewright.Style
