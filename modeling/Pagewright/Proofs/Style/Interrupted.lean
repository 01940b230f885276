import Pagewright.Proofs.Style.Sibling

/-! Counters after a walk that has failed. A level is opened for a list of children and closed behind
it, but a failure leaves the list on another way. Each list of children around the blueprint that fails
so leaves its level on the stack, on top of the level on which the walk has begun. -/

namespace Pagewright.Style

open Skeleton Expansion

variable {placeholder : Placeholder}

/-- Where the walk over a row stops. The row stands below a parent on a level with a count. The walk
leaves the counts of the levels that it has opened for lists of children, innermost first, and the
count of the level of the row. -/
inductive Halts (placeholder : Placeholder) :
    String → Nat → List Node → CompileError → List Nat → Nat → Prop where
  | own {parent tag : String} {count : Nat} {node : Node} {rest : List Node} {cause : ExpansionError}
      {placement : Placement} (tagged : node.own.tag = some tag)
      (failed : ownInstances placeholder node = .error cause)
      (placed : placeMark ⟨tag, node.own⟩ parent count = placement) :
      Halts placeholder parent count (node :: rest) ⟨placement.selector, cause⟩ [] (countAfter tag count)
  | copy {parent tag : String} {count after : Nat} {node : Node} {rest instances : List Node}
      {placement : Placement} {error : CompileError} {opened : List Nat} (tagged : node.own.tag = some tag)
      (expanded : ownInstances placeholder node = .ok instances)
      (placed : placeMark ⟨tag, node.own⟩ parent count = placement)
      (inside : Halts placeholder placement.selector (countAfter tag count) instances error opened after) :
      Halts placeholder parent count (node :: rest) error opened after
  | child {parent tag : String} {count last : Nat} {node : Node} {rest instances : List Node}
      {placement : Placement} {trees : List (Unrolled Mark)} {error : CompileError} {opened : List Nat}
      (tagged : node.own.tag = some tag) (expanded : ownInstances placeholder node = .ok instances)
      (placed : placeMark ⟨tag, node.own⟩ parent count = placement)
      (repeated : Unrolls placeholder instances trees)
      (inside : Halts placeholder placement.selector 0 node.children error opened last) :
      Halts placeholder parent count (node :: rest) error (opened ++ [last])
        (placeRow placement.selector (countAfter tag count) trees).2
  | later {parent : String} {count after : Nat} {node : Node} {rest : List Node}
      {trees : List (Unrolled Mark)} {error : CompileError} {opened : List Nat}
      (first : Unrolls placeholder [node] trees)
      (behind : Halts placeholder parent (placeRow parent count trees).2 rest error opened after) :
      Halts placeholder parent count (node :: rest) error opened after

section Halts

variable {parent : String} {count after : Nat} {nodes : List Node} {error : CompileError} {opened : List Nat}

theorem Halts.le (halts : Halts placeholder parent count nodes error opened after) : count ≤ after := by
  induction halts with
  | own => exact countAfter_le _ _
  | copy _ _ _ _ ih => exact Nat.le_trans (countAfter_le _ _) ih
  | child => exact Nat.le_trans (countAfter_le _ _) (le_placeRow _ _ _)
  | later _ _ ih => exact Nat.le_trans (le_placeRow _ _ _) ih

theorem Halts.extend (halts : Halts placeholder parent count nodes error opened after) (more : List Node) :
    Halts placeholder parent count (nodes ++ more) error opened after := by
  induction halts with
  | own tagged failed placed => exact .own tagged failed placed
  | copy tagged expanded placed inside _ => exact .copy tagged expanded placed inside
  | child tagged expanded placed repeated inside _ => exact .child tagged expanded placed repeated inside
  | later first _ ih => exact .later first ih

/-- The walk over a row that halts fails, and no level it has opened is closed again. -/
theorem Halts.stops (halts : Halts placeholder parent count nodes error opened after) (start : Collection)
    (level : innermost start.levels = count) :
    ∃ styles, outcome (collectRow placeholder parent nodes) start =
      (.error error, { styles, levels := opened ++ levelsAfter start.levels after }) := by
  induction halts generalizing start with
  | own tagged failed placed =>
    subst level
    rw [outcome_collectRow_cons, outcome_collect_failed tagged failed, enter_eq, ← placed]
    exact ⟨_, rfl⟩
  | @copy parent tag count after node _ _ _ _ _ tagged expanded placed inside ih =>
    subst level placed
    obtain ⟨styles, stopped⟩ := ih (enter parent tag node.own start).2 (by rw [enter_eq, innermost_levelsAfter])
    rw [enter_eq, levelsAfter_trans _ (countAfter_le ..) inside.le] at stopped
    rw [outcome_collectRow_cons, outcome_collect_element tagged expanded, enter_eq]
    dsimp only
    rw [stopped]
    exact ⟨styles, rfl⟩
  | @child parent tag count last node _ _ placement trees _ opened tagged expanded placed repeated inside ih =>
    subst level
    rw [outcome_collectRow_cons, outcome_collect_element tagged expanded, enter_eq]
    dsimp only
    rw [placed, outcome_collectRow repeated]
    dsimp only
    have present : node.children ≠ [] := by
      intro empty
      rw [empty] at inside
      cases inside
    rw [outcome_collectBelow present]
    obtain ⟨styles, stopped⟩ := ih (Collection.openLevel _) rfl
    rw [stopped]
    refine ⟨styles, ?_⟩
    have bottom := levelsAfter_trans start.levels (countAfter_le tag (innermost start.levels))
      (le_placeRow placement.selector _ trees)
    simp only [Collection.openLevel, innermost_levelsAfter, levelsAfter_open, bottom, List.append_assoc,
      List.singleton_append]
  | @later parent count after node rest trees _ opened first behind ih =>
    subst level
    obtain ⟨selector, walked⟩ := outcome_collect first parent start
    let reached := levelsAfter start.levels (placeRow parent (innermost start.levels) trees).2
    have counted : innermost reached = (placeRow parent (innermost start.levels) trees).2 := innermost_levelsAfter ..
    obtain ⟨styles, stopped⟩ := ih { styles := _, levels := reached } counted
    rw [levelsAfter_trans _ (le_placeRow ..) behind.le] at stopped
    rw [outcome_collectRow_cons, walked]
    exact ⟨styles, stopped⟩

private theorem row_unrolls_or_halts
    (each : ∀ node ∈ nodes, ∀ parent count, (∃ trees, Unrolls placeholder [node] trees) ∨
      ∃ error opened after, Halts placeholder parent count [node] error opened after)
    (parent : String) (count : Nat) : (∃ trees, Unrolls placeholder nodes trees) ∨
      ∃ error opened after, Halts placeholder parent count nodes error opened after := by
  induction nodes generalizing count with
  | nil => exact .inl ⟨[], .nil⟩
  | cons node rest ih =>
    rcases each node List.mem_cons_self parent count with ⟨trees, first⟩ | ⟨error, opened, after, halts⟩
    · rcases ih (fun other member => each other (List.mem_cons_of_mem _ member)) (placeRow parent count trees).2
        with ⟨others, remaining⟩ | ⟨error, opened, after, halts⟩
      · exact .inl ⟨trees ++ others, first.append remaining⟩
      · exact .inr ⟨error, opened, after, .later first halts⟩
    · exact .inr ⟨error, opened, after, halts.extend rest⟩

/-- The walk from a node either comes to its end or halts somewhere. -/
theorem unrolls_or_halts (node : Node) (parent : String) (count : Nat) :
    (∃ trees, Unrolls placeholder [node] trees) ∨
      ∃ error opened after, Halts placeholder parent count [node] error opened after := by
  induction node using expansionInduction placeholder generalizing parent count with
  | step node copies children =>
    cases tagged : node.own.tag with
    | none => exact .inl ⟨[], .inert tagged .nil⟩
    | some tag =>
      cases expanded : ownInstances placeholder node with
      | error cause => exact .inr ⟨_, _, _, .own tagged expanded rfl⟩
      | ok instances =>
        let selector := (placeMark ⟨tag, node.own⟩ parent count).selector
        rcases row_unrolls_or_halts (copies instances expanded) selector (countAfter tag count)
          with ⟨trees, repeated⟩ | ⟨error, opened, after, halts⟩
        · rcases row_unrolls_or_halts children selector 0 with ⟨others, below⟩ | ⟨error, opened, last, halts⟩
          · exact .inl ⟨_, .element tagged expanded repeated below .nil⟩
          · exact .inr ⟨error, _, _, .child tagged expanded rfl repeated halts⟩
        · exact .inr ⟨error, opened, after, .copy tagged expanded rfl halts⟩

/-- A walk that has failed has halted, and its levels are those that were left there. -/
theorem halts_of_collect {node : Node} {start last : Collection}
    (failed : outcome (collect placeholder parent node) start = (.error error, last)) :
    ∃ opened after, Halts placeholder parent (innermost start.levels) [node] error opened after ∧
      last.levels = opened ++ levelsAfter start.levels after := by
  rcases unrolls_or_halts node parent (innermost start.levels) with ⟨trees, unrolled⟩ | ⟨_, opened, after, halts⟩
  · obtain ⟨selector, walked⟩ := outcome_collect unrolled parent start
    rw [walked] at failed
    cases failed
  · obtain ⟨styles, stopped⟩ := halts.stops start rfl
    rw [outcome_collectRow_cons, failed] at stopped
    cases stopped
    exact ⟨opened, after, halts, rfl⟩

end Halts

theorem levelsAfter_cons (count after : Nat) (outer : List Nat) :
    levelsAfter (count :: outer) after = after :: outer := by
  unfold levelsAfter
  split
  next same => rw [same]; rfl
  next => rfl

/-- A `div` is numbered on the innermost level, whatever has opened that. -/
theorem selector_of_collect {node : Node} {parent selector : String} {start last : Collection}
    (numbered : node.own.tag = some "div")
    (collected : outcome (collect placeholder parent node) start = (.ok selector, last)) :
    selector = divSelector parent (innermost start.levels + 1) node.own.className := by
  have named : (placeMark ⟨"div", node.own⟩ parent (innermost start.levels)).selector =
      divSelector parent _ node.own.className := selector_of_div rfl parent _
  cases expanded : ownInstances placeholder node with
  | error cause =>
    rw [outcome_collect_failed numbered expanded] at collected
    cases collected
  | ok instances =>
    rw [outcome_collect_element numbered expanded, enter_eq] at collected
    simp only at collected
    split at collected
    next =>
      split at collected
      next =>
        cases collected
        exact named
      next => cases collected
    next => cases collected

/-- A walk that fails leaves one level on the stack for each list of children around the blueprint that
has failed. The stack is as long as before exactly when there is none, and a `div` collected later has
the next number of whatever level is then the innermost. -/
theorem levels_after_failure {node : Node} {parent : String} {start last : Collection} {error : CompileError}
    {count : Nat} {outer : List Nat} (levels : start.levels = count :: outer)
    (failed : outcome (collect placeholder parent node) start = (.error error, last)) :
    ∃ opened after, Halts placeholder parent count [node] error opened after ∧ count ≤ after ∧
      last.levels = opened ++ after :: outer ∧
      (last.levels.length = start.levels.length ↔ opened = []) ∧
      ∀ other above selector final, other.own.tag = some "div" →
        outcome (collect placeholder above other) last = (.ok selector, final) →
        selector = divSelector above (opened.headD after + 1) other.own.className := by
  obtain ⟨opened, after, halts, left⟩ := halts_of_collect failed
  rw [levels] at halts left
  rw [levelsAfter_cons] at left
  refine ⟨opened, after, halts, halts.le, left, ?_, ?_⟩
  · rw [left, levels, List.length_append, List.length_cons, List.length_cons, Nat.add_eq_right,
      List.length_eq_zero_iff]
  · intro other above selector final numbered collected
    rw [selector_of_collect numbered collected, left]
    cases opened <;> rfl

/-- The list cannot be repeated, and stands among the children of the section. -/
def unclosed : Node where
  own := { tag := some "section" }
  children := [{
    own := { tag := some "ul" }
    blueprint := some { count := .expression "lots", template := { own := { tag := some "li" } } } }]

def card : Node where
  own := { tag := some "div", style := some "s" }

def unclosedError : CompileError where
  location := " > section > ul"
  cause := .countNotInteger "lots"

/-- Two `div`s have been counted, but the level of the section's children is still open, so the third is
numbered one. -/
theorem level_left_open :
    outcome (collect .standard "" unclosed) { levels := [2] } = (.error unclosedError, { levels := [0, 2] }) ∧
      (outcome (collect .standard "" card) { levels := [0, 2] }).1 = .ok " > div:nth-of-type(1)" ∧
      (outcome (collect .standard "" card) { levels := [2] }).1 = .ok " > div:nth-of-type(3)" := by
  refine ⟨?_, ?_, ?_⟩ <;> cbv

theorem levels_after_failure_unclosed :
    outcome (collect .standard "" unclosed) { levels := [2] } = (.error unclosedError, { levels := [0, 2] }) ∧
      ∃ opened after, Halts .standard "" 2 [unclosed] unclosedError opened after ∧
        [0, 2] = opened ++ after :: [] ∧ opened ≠ [] := by
  have failed : outcome (collect .standard "" unclosed) { levels := [2] } =
      (.error unclosedError, { levels := [0, 2] }) := by cbv
  obtain ⟨opened, after, halts, _, left, same, _⟩ := levels_after_failure rfl failed
  refine ⟨failed, opened, after, halts, left, fun none => ?_⟩
  have length := same.mpr none
  cases length

end Pagewright.Style
