import Mathlib
import Pagewright.Markup.Page
import Pagewright.Proofs.Markup.Written
import Pagewright.Proofs.Style.Placement

/-! Where a page fails. Both walks expand the same blueprints, and the walk that collects styles also
enters tags that are written without content, so it is the first to fail and the only one whose
failure a page ever reports. It stops at the first element on its way whose blueprint fails. -/

namespace Pagewright.Markup

open Skeleton Expansion Style

variable {placeholder : Placeholder}

/-- What the blueprint of a node itself fails with. -/
def ownFailure (placeholder : Placeholder) (node : Node) : Option ExpansionError :=
  match ownInstances placeholder node with
  | .ok _ => none
  | .error cause => some cause

/-- The instances of a node as far as there are any: a blueprint that fails has none. -/
def possibleInstances (placeholder : Placeholder) (node : Node) : List Node :=
  (ownInstances placeholder node).toOption.getD []

/-- An element on the way of a walk. -/
structure Attempt where
  selector : String
  failure : Option ExpansionError

def Attempt.error (attempt : Attempt) : Option CompileError :=
  attempt.failure.map fun cause => { location := attempt.selector, cause }

/-- The way of a walk that no failure ends: every element, then its instances in the order of their
indices, then its children. The row stands below a parent on a level with a count; the last number
is the count afterwards. -/
inductive Attempted (placeholder : Placeholder) :
    String → Nat → List Node → List Attempt → Nat → Prop where
  | nil {parent : String} {count : Nat} : Attempted placeholder parent count [] [] count
  | inert {parent : String} {count after : Nat} {node : Node} {rest : List Node}
      {later : List Attempt} (untagged : node.own.tag = none)
      (others : Attempted placeholder parent count rest later after) :
      Attempted placeholder parent count (node :: rest) later after
  | element {parent tag selector : String} {count middle last after : Nat} {node : Node}
      {rest : List Node} {copies inside later : List Attempt} (tagged : node.own.tag = some tag)
      (placed : (placeMark ⟨tag, node.own⟩ parent count).selector = selector)
      (repeated : Attempted placeholder selector (countAfter tag count)
        (possibleInstances placeholder node) copies middle)
      (below : Attempted placeholder selector 0 node.children inside last)
      (others : Attempted placeholder parent middle rest later after) :
      Attempted placeholder parent count (node :: rest)
        (⟨selector, ownFailure placeholder node⟩ :: (copies ++ inside ++ later)) after

theorem possibleInstances_of_ok {node : Node} {instances : List Node}
    (expanded : ownInstances placeholder node = .ok instances) :
    possibleInstances placeholder node = instances := by
  rw [possibleInstances, expanded]
  rfl

theorem ownFailure_eq_none {node : Node} :
    ownFailure placeholder node = none ↔
      ownInstances placeholder node = .ok (possibleInstances placeholder node) := by
  rw [ownFailure, possibleInstances]
  cases ownInstances placeholder node <;> simp [Except.toOption]

theorem ownFailure_eq_some {node : Node} {cause : ExpansionError} :
    ownFailure placeholder node = some cause ↔ ownInstances placeholder node = .error cause := by
  rw [ownFailure]
  cases ownInstances placeholder node <;> simp

theorem Attempted.append {parent : String} {count middle after : Nat} {front back : List Node}
    {early late : List Attempt} (attempted : Attempted placeholder parent count front early middle)
    (others : Attempted placeholder parent middle back late after) :
    Attempted placeholder parent count (front ++ back) (early ++ late) after := by
  induction attempted with
  | nil => exact others
  | inert untagged _ ih => exact .inert untagged (ih others)
  | element tagged placed repeated below _ _ _ ih =>
    rw [List.cons_append, List.cons_append, List.append_assoc]
    exact .element tagged placed repeated below (ih others)

private theorem attempted_row {nodes : List Node}
    (each : ∀ node ∈ nodes, ∀ parent count, ∃ attempts after,
      Attempted placeholder parent count [node] attempts after) (parent : String) (count : Nat) :
    ∃ attempts after, Attempted placeholder parent count nodes attempts after := by
  induction nodes generalizing count with
  | nil => exact ⟨[], count, .nil⟩
  | cons node rest ih =>
    obtain ⟨early, middle, first⟩ := each node List.mem_cons_self parent count
    obtain ⟨late, after, others⟩ := ih (fun other member => each other (List.mem_cons_of_mem _ member)) middle
    exact ⟨early ++ late, after, first.append others⟩

/-- The way of a walk is finite, wherever it starts. -/
theorem exists_attempted (node : Node) (parent : String) (count : Nat) :
    ∃ attempts after, Attempted placeholder parent count [node] attempts after := by
  induction node using expansionInduction placeholder generalizing parent count with
  | step node copies children =>
    cases tagged : node.own.tag with
    | none => exact ⟨[], count, .inert tagged .nil⟩
    | some tag =>
      have instances : ∀ copy ∈ possibleInstances placeholder node, ∀ parent count,
          ∃ attempts after, Attempted placeholder parent count [copy] attempts after := by
        intro copy member
        cases expanded : ownInstances placeholder node with
        | error cause => simp [possibleInstances, expanded, Except.toOption] at member
        | ok instances => exact copies instances expanded copy (possibleInstances_of_ok expanded ▸ member)
      obtain ⟨early, middle, repeated⟩ := attempted_row instances
        (placeMark ⟨tag, node.own⟩ parent count).selector (countAfter tag count)
      obtain ⟨inside, last, below⟩ := attempted_row children
        (placeMark ⟨tag, node.own⟩ parent count).selector 0
      exact ⟨_, _, .element tagged rfl repeated below .nil⟩

/-- The first error on a way of several parts is the first error of the first part that has one. -/
theorem firstError_element {selector : String} {failure : Option ExpansionError}
    {copies inside later : List Attempt} :
    List.findSome? Attempt.error (⟨selector, failure⟩ :: (copies ++ inside ++ later)) =
      (((failure.map (⟨selector, ·⟩)).or (copies.findSome? Attempt.error)).or
        (inside.findSome? Attempt.error)).or (later.findSome? Attempt.error) := by
  rw [List.findSome?_cons, Attempt.error]
  cases failure <;> simp [List.findSome?_append, Option.or_assoc]

/-- A way without failures is that of a row of trees. -/
theorem Attempted.unrolls {parent : String} {count after : Nat} {nodes : List Node}
    {attempts : List Attempt} (attempted : Attempted placeholder parent count nodes attempts after)
    (fine : attempts.findSome? Attempt.error = none) :
    ∃ trees, Unrolls placeholder nodes trees ∧ (placeRow parent count trees).2 = after := by
  induction attempted with
  | nil => exact ⟨[], .nil, rfl⟩
  | inert untagged _ ih =>
    obtain ⟨trees, unrolled, same⟩ := ih fine
    exact ⟨trees, .inert untagged unrolled, same⟩
  | element tagged placed _ _ _ repeated below others =>
    simp only [firstError_element, Option.or_eq_none_iff, Option.map_eq_none_iff] at fine
    obtain ⟨⟨⟨own, first⟩, second⟩, third⟩ := fine
    obtain ⟨copies, instances, rfl⟩ := repeated first
    obtain ⟨children, under, _⟩ := below second
    obtain ⟨trees, remaining, rfl⟩ := others third
    refine ⟨_, .element tagged (ownFailure_eq_none.mp own) instances under remaining, ?_⟩
    simp only [placeRow_cons, placed]

/-- An element hands its level on to its instances with itself counted. -/
theorem exists_entry {parent tag selector : String} {node : Node} {instances : List Node}
    {start : Collection} (tagged : node.own.tag = some tag)
    (expanded : ownInstances placeholder node = .ok instances)
    (placed : (placeMark ⟨tag, node.own⟩ parent (innermost start.levels)).selector = selector) :
    ∃ entry : Collection, innermost entry.levels = countAfter tag (innermost start.levels) ∧
      outcome (collect placeholder parent node) start =
        match outcome (collectRow placeholder selector instances) entry with
        | (.ok _, repeated) =>
          match outcome (collectBelow placeholder selector node.children) repeated with
          | (.ok _, collection) => (.ok selector, collection)
          | (.error error, collection) => (.error error, collection)
        | (.error error, collection) => (.error error, collection) := by
  subst placed
  have entered := outcome_collect_element tagged expanded parent start
  rw [enter_eq] at entered
  exact ⟨_, by exact innermost_levelsAfter _ _, entered⟩

/-- A failure among the children ends the level that was opened for them. -/
theorem collectBelow_fails {parent : String} {nodes : List Node} {error : CompileError}
    (fails : ∀ start : Collection, innermost start.levels = 0 →
      ∃ last, outcome (collectRow placeholder parent nodes) start = (.error error, last))
    (start : Collection) :
    ∃ last, outcome (collectBelow placeholder parent nodes) start = (.error error, last) := by
  obtain ⟨last, failed⟩ := fails start.openLevel rfl
  have present : nodes ≠ [] := by
    rintro rfl
    cases failed
  rw [outcome_collectBelow present, failed]
  exact ⟨last, rfl⟩

/-- The walk ends with the first failure on its way. -/
theorem Attempted.fails {parent : String} {count after : Nat} {nodes : List Node}
    {attempts : List Attempt} (attempted : Attempted placeholder parent count nodes attempts after)
    {error : CompileError} (first : attempts.findSome? Attempt.error = some error)
    (start : Collection) (level : innermost start.levels = count) :
    ∃ last, outcome (collectRow placeholder parent nodes) start = (.error error, last) := by
  induction attempted generalizing start with
  | nil => cases first
  | inert untagged _ ih =>
    rw [outcome_collectRow_cons, outcome_collect_inert untagged]
    exact ih first start level
  | @element parent tag selector count middle last after node rest copies inside later tagged placed
      repeated below others copiesFail insideFail othersFail =>
    subst level
    rw [firstError_element] at first
    rw [outcome_collectRow_cons]
    cases own : ownFailure placeholder node with
    | some cause =>
      rw [own] at first
      cases first
      rw [outcome_collect_failed tagged (ownFailure_eq_some.mp own), enter_eq, ← placed]
      exact ⟨_, rfl⟩
    | none =>
      have expanded := ownFailure_eq_none.mp own
      simp only [own, Option.map_none, Option.none_or, Option.or_eq_some_iff] at first
      obtain ⟨entry, counted, entered⟩ := exists_entry tagged expanded placed
      rcases first with (inCopies | ⟨fine, inChildren⟩) | ⟨fine, behind⟩
      · obtain ⟨last, failed⟩ := copiesFail inCopies entry counted
        rw [entered, failed]
        exact ⟨last, rfl⟩
      · obtain ⟨trees, unrolled, _⟩ := repeated.unrolls fine
        obtain ⟨last, failed⟩ := collectBelow_fails (insideFail inChildren) _
        rw [entered, outcome_collectRow unrolled]
        dsimp only
        rw [failed]
        exact ⟨last, rfl⟩
      · obtain ⟨noneInCopies, noneInChildren⟩ := Option.or_eq_none_iff.mp fine
        obtain ⟨trees, instances, same⟩ := repeated.unrolls noneInCopies
        obtain ⟨children, under, _⟩ := below.unrolls noneInChildren
        obtain ⟨value, collected⟩ :=
          outcome_collect (.element tagged expanded instances under .nil) parent start
        rw [collected]
        refine othersFail behind _ ?_
        simp only [innermost_levelsAfter, placeRow_cons, placed, same]
        rfl

/-- Styles fail to be collected with the first failure on the way through the tree. -/
theorem collectStyles_eq_error {root : Node} {attempts : List Attempt} {after : Nat}
    (attempted : Attempted placeholder "" 0 [root] attempts after) {error : CompileError} :
    collectStyles placeholder root = .error error ↔ attempts.findSome? Attempt.error = some error := by
  cases first : attempts.findSome? Attempt.error with
  | none =>
    obtain ⟨trees, unrolled, _⟩ := attempted.unrolls first
    rw [collectStyles_eq_ok.mpr ⟨trees, unrolled, rfl⟩]
    simp
  | some other =>
    obtain ⟨last, failed⟩ := attempted.fails first {} rfl
    have stopped : (outcome (collect placeholder "" root) {}).1 = .error other := by
      rw [outcome_collectRow_cons] at failed
      rcases result : outcome (collect placeholder "" root) {} with ⟨_ | _, _⟩
      · rw [result] at failed
        cases failed
        rfl
      · rw [result] at failed
        cases failed
    rw [collectStyles_run, stopped]
    simp [Except.map]

/-- A page compiles exactly when its tree can be unrolled, and both documents tell of that tree. -/
theorem compile_eq_ok {depth : Nat} {page : Page} {documents : Documents} :
    compile placeholder depth page = .ok documents ↔
      ∃ trees, Unrolls placeholder [page.root] trees ∧
        documents = {
          html := shell (renderHead (page.head.getD {})) (writeRow trees ++ scriptTag depth)
          css := Style.sheet page (recordAll {} (visits (placeRow "" 0 trees).1)) } := by
  simp only [compile, renderBody, bind_eq_ok, pure, Except.pure, Except.ok.injEq, collectStyles_eq_ok]
  constructor
  · intro given
    obtain ⟨_, ⟨trees, unrolled, rfl⟩, _, ⟨markup, rendered, rfl⟩, rfl⟩ := given
    rw [render_of_unrolls unrolled] at rendered
    cases rendered
    exact ⟨trees, unrolled, rfl⟩
  · intro given
    obtain ⟨trees, unrolled, rfl⟩ := given
    exact ⟨_, ⟨trees, unrolled, rfl⟩, _, ⟨_, render_of_unrolls unrolled, rfl⟩, rfl⟩

theorem compiles_of_collected {page : Page} {styles : Styles}
    (collected : collectStyles placeholder page.root = .ok styles) (depth : Nat) :
    ∃ documents, compile placeholder depth page = .ok documents := by
  obtain ⟨trees, unrolled, _⟩ := collectStyles_eq_ok.mp collected
  exact ⟨_, compile_eq_ok.mpr ⟨trees, unrolled, rfl⟩⟩

/-- Rendering never is what a page fails with. -/
theorem compile_eq_error {depth : Nat} {page : Page} {error : CompileError} :
    compile placeholder depth page = .error error ↔
      collectStyles placeholder page.root = .error error := by
  cases collected : collectStyles placeholder page.root with
  | error other => simp [compile, collected, bind, Except.bind]
  | ok styles =>
    obtain ⟨documents, compiled⟩ := compiles_of_collected collected depth
    simp [compiled]

/-- A tree whose tags without content have nothing to lose: neither a blueprint nor children, in
templates as well. -/
inductive Lossless : Node → Prop where
  | node {node : Node}
      (closed : ∀ tag, node.own.tag = some tag → isSelfClosing tag = true →
        node.blueprint = none ∧ node.children = [])
      (template : ∀ blueprint, node.blueprint = some blueprint → Lossless blueprint.template)
      (below : ∀ child ∈ node.children, Lossless child) : Lossless node

theorem no_digit_of_selfClosing {tag : String} (closed : isSelfClosing tag = true) :
    tag.toList.any Text.isAsciiDigit = false := by
  have listed : ∀ tag ∈ selfClosingTags, tag.toList.any Text.isAsciiDigit = false := by decide
  exact listed tag (List.contains_iff_mem.mp closed)

theorem Lossless.copy {node copy : Node} {index : Int} (lossless : Lossless node)
    (copied : mapNode (substitute placeholder index) node = .ok copy) : Lossless copy := by
  induction lossless generalizing copy with
  | node closed _ _ templates children =>
    obtain ⟨_, blueprints, below⟩ := mapNode_eq_ok.mp copied
    refine .node ?_ ?_ ?_
    · intro tag tagged selfClosing
      have original := tag_of_copy copied (no_digit_of_selfClosing selfClosing) tagged
      obtain ⟨alone, empty⟩ := closed tag original selfClosing
      rw [alone, mapOption, Except.ok.injEq] at blueprints
      rw [empty, mapList_nil_eq_ok] at below
      exact ⟨blueprints.symm, below⟩
    · intro blueprint repeats
      rw [repeats] at blueprints
      obtain ⟨original, present, changed⟩ := mapOption_eq_some.mp blueprints
      exact templates original present (mapBlueprint_eq_ok.mp changed).2
    · intro child member
      obtain ⟨original, inside, changed⟩ := mem_mapList below member
      exact children original inside changed

theorem exists_of_joinTexts {ε α : Type} {f : α → Except ε String} {parts : List α} {text : String}
    {part : α} (joined : joinTexts f parts = .ok text) (member : part ∈ parts) :
    ∃ written, f part = .ok written := by
  obtain ⟨texts, mapped, _⟩ := map_eq_ok.mp joined
  exact exists_of_mapList mapped member

/-- Where no tag hides anything from it, rendering expands every blueprint there is. -/
theorem unrolls_of_render {node : Node} {text : String} (lossless : Lossless node)
    (rendered : render placeholder node = .ok text) : ∃ trees, Unrolls placeholder [node] trees := by
  induction node using expansionInduction placeholder generalizing text with
  | step node copies children =>
    obtain ⟨closed, template, below⟩ := lossless
    cases tagged : node.own.tag with
    | none => exact ⟨[], .inert tagged .nil⟩
    | some tag =>
      cases selfClosing : isSelfClosing tag with
      | true =>
        obtain ⟨alone, empty⟩ := closed tag tagged selfClosing
        have childless : Unrolls placeholder node.children [] := by
          rw [empty]
          exact .nil
        exact ⟨_, .element tagged (ownInstances_of_none alone) .nil childless .nil⟩
      | false =>
        obtain ⟨instances, first, second, expanded, repeated, under, _⟩ :=
          (render_element tagged selfClosing).mp rendered
        obtain ⟨trees, unrolled⟩ : ∃ trees, Unrolls placeholder instances trees := by
          refine exists_unrolls fun copy member => ?_
          obtain ⟨blueprint, index, repeats, copied⟩ := mem_ownInstances expanded member
          obtain ⟨written, found⟩ := exists_of_joinTexts repeated member
          exact copies instances expanded copy member ((template blueprint repeats).copy copied) found
        obtain ⟨others, remaining⟩ : ∃ trees, Unrolls placeholder node.children trees := by
          refine exists_unrolls fun child member => ?_
          obtain ⟨written, found⟩ := exists_of_joinTexts under member
          exact children child member (below child member) found
        exact ⟨_, .element tagged expanded unrolled remaining .nil⟩

/-- The two walks agree on failure. A tree whose styles are collected is rendered as well, so a page
fails as the collecting of its styles does, which is at the first element on the way whose blueprint
fails. And where no tag without content has any to lose, what is rendered has its styles collected. -/
theorem failures_agree (placeholder : Placeholder) (page : Page) :
    (∀ styles, collectStyles placeholder page.root = .ok styles →
      ∃ markup, render placeholder page.root = .ok markup) ∧
    (∀ depth error, compile placeholder depth page = .error error ↔
      collectStyles placeholder page.root = .error error) ∧
    (∃ attempts after, Attempted placeholder "" 0 [page.root] attempts after) ∧
    (∀ attempts after, Attempted placeholder "" 0 [page.root] attempts after → ∀ error,
      (collectStyles placeholder page.root = .error error ↔
        attempts.findSome? Attempt.error = some error)) ∧
    (Lossless page.root → ∀ markup, render placeholder page.root = .ok markup →
      ∃ styles, collectStyles placeholder page.root = .ok styles) := by
  refine ⟨?_, fun depth error => compile_eq_error, exists_attempted page.root "" 0,
    fun attempts after attempted error => collectStyles_eq_error attempted, ?_⟩
  · intro styles collected
    obtain ⟨trees, unrolled, _⟩ := collectStyles_eq_ok.mp collected
    exact ⟨_, render_of_unrolls unrolled⟩
  · intro lossless markup rendered
    obtain ⟨trees, unrolled⟩ := unrolls_of_render lossless rendered
    exact ⟨_, collectStyles_eq_ok.mpr ⟨trees, unrolled, rfl⟩⟩

/-- The blueprint of an inert node is never expanded. Of the two others that fail, the walk meets first
the one inside the first instance of the second `div`. -/
def broken : Node where
  own := { tag := some "body" }
  children := [
    { blueprint := some { count := .expression "none", template := {} } },
    { own := { tag := some "div" } },
    { own := { tag := some "div" }
      blueprint := some {
        count := .literal 2
        template := {
          own := { tag := some "section", className := some "s-cwrapIndex" }
          children := [
            { own := { tag := some "p" } },
            { own := { tag := some "ul" }, blueprint := some { count := .expression "lots", template := {} } }] } }
      children := [
        { own := { tag := some "ol" }, blueprint := some { count := .expression "few", template := {} } }] }]

def brokenError : CompileError where
  location := "body > div:nth-of-type(2) > section.s-0 > ul"
  cause := .countNotInteger "lots"

def sound : Node where
  own := { tag := some "body" }
  blueprint := some {
    count := .literal 2
    template := { own := { tag := some "p", style := some "order: cwrapIndex" } } }
  children := [{ own := { tag := some "img" } }]

private theorem lossless_leaf (own : Element) : Lossless { own } :=
  .node (fun _ _ _ => ⟨rfl, rfl⟩) (by simp) (by simp)

private theorem lossless_sound : Lossless sound := by
  refine .node ?_ ?_ ?_
  · intro tag tagged closed
    cases tagged
    revert closed
    decide
  · intro blueprint repeats
    cases repeats
    exact lossless_leaf _
  · intro child member
    rw [List.mem_singleton.mp member]
    exact lossless_leaf _

theorem failures_agree_broken :
    (compile .standard 3 { root := broken } = .error brokenError ∧
      ∃ attempts after, Attempted .standard "" 0 [broken] attempts after ∧
        attempts.findSome? Attempt.error = some brokenError) ∧
    Lossless sound ∧ (∃ markup, render .standard sound = .ok markup) ∧
      ∃ styles, collectStyles .standard sound = .ok styles := by
  obtain ⟨_, fails, ⟨attempts, after, attempted⟩, located, _⟩ := failures_agree .standard { root := broken }
  obtain ⟨rendered, _, _, _, collected⟩ := failures_agree .standard { root := sound }
  have failed : collectStyles .standard broken = .error brokenError := by cbv
  have styles : collectStyles .standard sound =
      .ok { rules := .ofList [("body > p", "order: 1")] } := by cbv
  obtain ⟨markup, written⟩ := rendered _ styles
  exact ⟨⟨(fails 3 brokenError).mpr failed, attempts, after, attempted,
      (located attempts after attempted brokenError).mp failed⟩,
    lossless_sound, ⟨markup, written⟩, collected lossless_sound markup written⟩

end Pagewright.Markup
