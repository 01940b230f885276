import Pagewright.Proofs.Keyed
import Pagewright.Proofs.Markup.Failure

/-! Collecting styles is writing a stream of declarations. Every element on the way of the walk adds
its own declarations to the stream, the first one whose blueprint fails is the last to do so, and
what has been collected is what the stream leaves in the two tables. -/

namespace Pagewright.Style

open Skeleton Expansion
open Markup (Attempt Attempted exists_attempted ownFailure possibleInstances ownFailure_eq_none ownFailure_eq_some)

variable {placeholder : Placeholder}

/-- A declaration that is written for a selector, or for a selector under a media query. -/
inductive Event where
  | rule (selector style : String)
  | media (query selector style : String)

namespace Event

def write (styles : Styles) : Event → Styles
  | .rule selector style => styles.insertRule selector style
  | .media query selector style => styles.insertMedia query selector style

def rule? : Event → Option (String × String)
  | .rule selector style => some (selector, style)
  | .media .. => none

def query? : Event → Option String
  | .rule .. => none
  | .media query _ _ => some query

/-- What an event writes under a query. -/
def under? (query : String) : Event → Option (String × String)
  | .rule .. => none
  | .media other selector style => if other = query then some (selector, style) else none

end Event

/-- The declarations of an element: its style, its extensions, its media queries. -/
def Placement.events (placement : Placement) : List Event :=
  placement.own.style.toList.map (.rule placement.selector) ++
  placement.own.extensions.map (fun extension =>
    .rule (placement.selector ++ extension.suffix) extension.style) ++
  placement.own.mediaQueries.map fun media => .media media.query placement.selector media.style

theorem record_eq_foldl (styles : Styles) (placement : Placement) :
    placement.record styles = placement.events.foldl Event.write styles := by
  simp only [Placement.record, Collection.record, Placement.events, List.foldl_append, List.foldl_map,
    Event.write]
  cases placement.own.style <;> rfl

section Folding

variable {initial last : Styles} {events : List Event}

/-- The rules under a query. -/
def Styles.under (styles : Styles) (query : String) : Rules := (styles.media.get? query).getD ∅

/-- What a stream of events makes of the styles it starts from. Rules, queries and the rules under a
query all keep the order in which they first came, and a selector has the style it got last. -/
structure Folds (initial : Styles) (events : List Event) (last : Styles) : Prop where
  rules : Gathers (initial.rules.entries ++ events.filterMap Event.rule?) last.rules.entries
  queries : last.media.entries.map Prod.fst =
    (initial.media.entries.map Prod.fst ++ events.filterMap Event.query?).eraseDups
  media : ∀ query,
    Gathers ((initial.under query).entries ++ events.filterMap (Event.under? query)) (last.under query).entries

theorem folds_nil (styles : Styles) : Folds styles [] styles where
  rules := by simpa using styles.rules.gathers_entries
  queries := by simpa using (eraseDups_of_nodup styles.media.distinct).symm
  media query := by simpa using (styles.under query).gathers_entries

theorem under_insertMedia (styles : Styles) (query other selector style : String) :
    (styles.insertMedia query selector style).under other =
      if query = other then (styles.under query).insert selector style else styles.under other := by
  simp only [Styles.under, Styles.insertMedia, Keyed.get?_insert, eq_comm (a := other)]
  split <;> rfl

theorem filterMap_concat {α β : Type} (f : α → Option β) (items : List α) (item : α) :
    (items ++ [item]).filterMap f = items.filterMap f ++ (f item).toList := by
  cases found : f item <;> simp [found]

theorem Folds.write (folds : Folds initial events last) (event : Event) :
    Folds initial (events ++ [event]) (event.write last) := by
  cases event with
  | rule selector style =>
    refine ⟨?_, ?_, ?_⟩
    · rw [filterMap_concat, ← List.append_assoc]
      exact last.rules.gathers_insert folds.rules selector style
    · rw [filterMap_concat, Event.query?, Option.toList_none, List.append_nil]
      exact folds.queries
    · intro query
      rw [filterMap_concat, Event.under?, Option.toList_none, List.append_nil]
      exact folds.media query
  | media query selector style =>
    refine ⟨?_, ?_, ?_⟩
    · rw [filterMap_concat, Event.rule?, Option.toList_none, List.append_nil]
      exact folds.rules
    · have known : query ∈ last.media.entries.map Prod.fst ↔
          query ∈ initial.media.entries.map Prod.fst ++ events.filterMap Event.query? := by
        rw [folds.queries, List.mem_eraseDups]
      rw [filterMap_concat, ← List.append_assoc, Event.query?, Option.toList_some, eraseDups_concat, ← folds.queries]
      simp only [← known]
      exact keys_insertEntry query _ last.media.entries
    · intro other
      rw [Event.write, under_insertMedia, filterMap_concat, ← List.append_assoc, Event.under?]
      by_cases same : query = other
      · subst same
        rw [if_pos rfl, if_pos rfl]
        exact (last.under query).gathers_insert (folds.media query) selector style
      · rw [if_neg same, if_neg same, Option.toList_none, List.append_nil]
        exact folds.media other

theorem folds_foldl (initial : Styles) (events : List Event) :
    Folds initial events (events.foldl Event.write initial) := by
  induction events using List.reverseRecOn with
  | nil => exact folds_nil initial
  | append_singleton events event ih =>
    rw [List.foldl_append]
    exact ih.write event

theorem folds_recordAll (initial : Styles) (placements : List Placement) :
    Folds initial (placements.flatMap Placement.events) (recordAll initial placements) := by
  have recorded : Placement.record = fun styles placement => placement.events.foldl Event.write styles :=
    funext₂ record_eq_foldl
  rw [recordAll, recorded, ← List.foldl_flatMap]
  exact folds_foldl initial _

end Folding

/-- An element on the way of the walk, and what its blueprint fails with. -/
structure Visit extends Placement where
  failure : Option ExpansionError

def Visit.events (visit : Visit) : List Event := visit.toPlacement.events

/-- The elements of a row on the way of a walk that no failure ends: every element, then its instances
in the order of their indices, then its children. The row stands below a parent on a level with a
count; the last number is the count afterwards. A blueprint that fails has no instances. -/
inductive Visited (placeholder : Placeholder) : String → Nat → List Node → List Visit → Nat → Prop where
  | nil {parent : String} {count : Nat} : Visited placeholder parent count [] [] count
  | inert {parent : String} {count after : Nat} {node : Node} {rest : List Node} {later : List Visit}
      (untagged : node.own.tag = none) (others : Visited placeholder parent count rest later after) :
      Visited placeholder parent count (node :: rest) later after
  | element {parent tag : String} {count middle last after : Nat} {node : Node} {rest : List Node}
      {placement : Placement} {copies inside later : List Visit} (tagged : node.own.tag = some tag)
      (placed : placeMark ⟨tag, node.own⟩ parent count = placement)
      (repeated : Visited placeholder placement.selector (countAfter tag count)
        (possibleInstances placeholder node) copies middle)
      (below : Visited placeholder placement.selector 0 node.children inside last)
      (others : Visited placeholder parent middle rest later after) :
      Visited placeholder parent count (node :: rest)
        (⟨placement, ownFailure placeholder node⟩ :: (copies ++ inside ++ later)) after

theorem visited_of_attempted {parent : String} {count after : Nat} {nodes : List Node}
    {attempts : List Attempt} (attempted : Attempted placeholder parent count nodes attempts after) :
    ∃ visits, Visited placeholder parent count nodes visits after := by
  induction attempted with
  | nil => exact ⟨[], .nil⟩
  | inert untagged _ ih =>
    obtain ⟨later, others⟩ := ih
    exact ⟨later, .inert untagged others⟩
  | element tagged placed _ _ _ repeated below others =>
    subst placed
    obtain ⟨copies, repeated⟩ := repeated
    obtain ⟨inside, below⟩ := below
    obtain ⟨later, others⟩ := others
    exact ⟨_, .element tagged rfl repeated below others⟩

/-- Writes the declarations of visits up to the first that fails. -/
def runVisits (styles : Styles) : List Visit → Except CompileError Unit × Styles
  | [] => (.ok ⟨⟩, styles)
  | visit :: later =>
    let written := visit.record styles
    match visit.failure with
    | some cause => (.error { location := visit.selector, cause }, written)
    | none => runVisits written later

theorem runVisits_append (styles : Styles) (early late : List Visit) :
    runVisits styles (early ++ late) =
      match runVisits styles early with
      | (.ok _, written) => runVisits written late
      | (.error error, written) => (.error error, written) := by
  induction early generalizing styles with
  | nil => rfl
  | cons visit early ih =>
    rw [List.cons_append, runVisits, runVisits]
    cases visit.failure with
    | some cause => rfl
    | none => exact ih _

/-- A walk ends as its visits do and leaves the styles that they write. If it does not fail, it leaves these
levels. -/
def Walks (walk : Collecting Unit) (start : Collection) (visits : List Visit) (levels : List Nat) : Prop :=
  ∃ last, outcome walk start =
      ((runVisits start.styles visits).1, { styles := (runVisits start.styles visits).2, levels := last }) ∧
    ((runVisits start.styles visits).1 = .ok ⟨⟩ → last = levels)

/-- One walk after the other writes the visits of both. -/
theorem Walks.andThen {walk next : Collecting Unit} {start : Collection} {early late : List Visit}
    {levels after : List Nat} (first : Walks walk start early levels)
    (second : ∀ middle : Collection, middle.levels = levels → Walks next middle late after) :
    Walks (walk >>= fun _ => next) start (early ++ late) after := by
  obtain ⟨last, walked, reached⟩ := first
  unfold Walks
  rw [outcome_bind, walked, runVisits_append]
  rcases ended : runVisits start.styles early with ⟨error | ⟨⟩, written⟩
  · exact ⟨last, rfl, nofun⟩
  · rw [ended] at reached
    exact second _ (reached rfl)

/-- A walk that begins with a visit goes on from the declarations of that visit. -/
theorem Walks.enter {walk further : Collecting Unit} {start entry : Collection} {visit : Visit}
    {later : List Visit} {levels : List Nat} (fine : visit.failure = none)
    (entered : outcome walk start = outcome further entry) (written : entry.styles = visit.record start.styles)
    (walks : Walks further entry later levels) : Walks walk start (visit :: later) levels := by
  unfold Walks at walks ⊢
  rw [runVisits, fine, entered, ← written]
  exact walks

/-- The level of the children is closed again, and without children none is opened. -/
theorem walks_collectBelow {nodes : List Node} {selector : String} {visits : List Visit} {after : Nat}
    (visited : Visited placeholder selector 0 nodes visits after)
    (row : ∀ start : Collection, innermost start.levels = 0 →
      Walks (collectRow placeholder selector nodes) start visits (levelsAfter start.levels after))
    (start : Collection) : Walks (collectBelow placeholder selector nodes) start visits start.levels := by
  cases nodes with
  | nil =>
    cases visited
    exact ⟨start.levels, rfl, fun _ => rfl⟩
  | cons first rest =>
    obtain ⟨levels, walked, closed⟩ := row start.openLevel rfl
    have kept : start.openLevel.styles = start.styles := rfl
    unfold Walks
    rw [outcome_collectBelow (by simp), walked, kept]
    rw [kept] at closed
    cases ended : (runVisits start.styles visits).1 with
    | error error => exact ⟨levels, rfl, nofun⟩
    | ok value =>
      have opened := closed ended
      rw [show start.openLevel.levels = 0 :: start.levels from rfl, levelsAfter_open] at opened
      subst opened
      exact ⟨start.levels, rfl, fun _ => rfl⟩

theorem Visited.le {parent : String} {count after : Nat} {nodes : List Node} {visits : List Visit}
    (visited : Visited placeholder parent count nodes visits after) : count ≤ after := by
  induction visited with
  | nil => exact Nat.le_refl _
  | inert _ _ ih => exact ih
  | element _ _ _ _ _ repeated _ others =>
    exact Nat.le_trans (countAfter_le _ _) (Nat.le_trans repeated others)

/-- What is left of an element once it has been entered: its instances, then its children. -/
theorem discard_collect_element {node : Node} {tag : String} {instances : List Node} {placement : Placement}
    {parent : String} {start : Collection} (tagged : node.own.tag = some tag)
    (expanded : ownInstances placeholder node = .ok instances)
    (placed : placeMark ⟨tag, node.own⟩ parent (innermost start.levels) = placement) :
    outcome (discard (collect placeholder parent node)) start =
      outcome (collectRow placeholder placement.selector instances >>= fun _ =>
          collectBelow placeholder placement.selector node.children)
        { styles := placement.record start.styles
          levels := levelsAfter start.levels (countAfter tag (innermost start.levels)) } := by
  subst placed
  rw [outcome_discard, outcome_collect_element tagged expanded, enter_eq, outcome_bind]
  dsimp only
  rcases outcome (collectRow placeholder _ instances) _ with ⟨_ | _, repeated⟩
  · rfl
  · dsimp only
    rcases outcome (collectBelow placeholder _ node.children) repeated with ⟨_ | _, collection⟩ <;> rfl

/-- The walk over a row writes the declarations of its visits, whether it comes to its end or not. -/
theorem Visited.walks {parent : String} {count after : Nat} {nodes : List Node} {visits : List Visit}
    (visited : Visited placeholder parent count nodes visits after) (start : Collection)
    (level : innermost start.levels = count) :
    Walks (collectRow placeholder parent nodes) start visits (levelsAfter start.levels after) := by
  induction visited generalizing start with
  | nil =>
    subst level
    exact ⟨start.levels, rfl, fun _ => (levelsAfter_self _).symm⟩
  | inert untagged _ ih =>
    unfold Walks
    rw [outcome_collectRow_cons, outcome_collect_inert untagged]
    exact ih start level
  | @element parent tag count middle last after node rest placement copies inside later tagged placed
      instances children siblings repeated below others =>
    subst level
    cases own : ownFailure placeholder node with
    | some cause =>
      unfold Walks
      rw [outcome_collectRow_cons, runVisits, outcome_collect_failed tagged (ownFailure_eq_some.mp own), enter_eq,
        ← placed]
      exact ⟨_, rfl, nofun⟩
    | none =>
      have least := countAfter_le tag (innermost start.levels)
      have inner : Walks (discard (collect placeholder parent node)) start
          (⟨placement, none⟩ :: (copies ++ inside)) (levelsAfter start.levels middle) := by
        refine .enter rfl (discard_collect_element tagged (ownFailure_eq_none.mp own) placed) rfl
          ((repeated _ (innermost_levelsAfter ..)).andThen fun reached same => ?_)
        rw [levelsAfter_trans _ least instances.le] at same
        exact same ▸ walks_collectBelow children below reached
      have outer (reached : Collection) (same : reached.levels = levelsAfter start.levels middle) :
          Walks (collectRow placeholder parent rest) reached later (levelsAfter start.levels after) := by
        have walked := others reached (by rw [same, innermost_levelsAfter])
        rwa [same, levelsAfter_trans _ (Nat.le_trans least instances.le) siblings.le] at walked
      exact inner.andThen outer

theorem foldl_visit (styles : Styles) (visit : Visit) (later : List Visit) :
    ((visit :: later).flatMap Visit.events).foldl Event.write styles =
      (later.flatMap Visit.events).foldl Event.write (visit.record styles) := by
  rw [List.flatMap_cons, List.foldl_append, record_eq_foldl]
  rfl

theorem runVisits_ok {styles written : Styles} {visits : List Visit}
    (ended : runVisits styles visits = (.ok ⟨⟩, written)) :
    (∀ visit ∈ visits, visit.failure = none) ∧
      written = (visits.flatMap Visit.events).foldl Event.write styles := by
  induction visits generalizing styles with
  | nil =>
    cases ended
    exact ⟨by simp, rfl⟩
  | cons visit later ih =>
    rw [runVisits] at ended
    cases failure : visit.failure with
    | some cause =>
      rw [failure] at ended
      cases ended
    | none =>
      rw [failure] at ended
      obtain ⟨fine, same⟩ := ih ended
      exact ⟨List.forall_mem_cons.mpr ⟨failure, fine⟩, by rw [foldl_visit, same]⟩

/-- A run that fails has written the declarations up to those of the first visit that fails. -/
theorem runVisits_error {styles written : Styles} {visits : List Visit} {error : CompileError}
    (ended : runVisits styles visits = (.error error, written)) :
    ∃ before failed behind, visits = before ++ failed :: behind ∧
      (∀ visit ∈ before, visit.failure = none) ∧
      failed.failure = some error.cause ∧ failed.selector = error.location ∧
      written = ((before ++ [failed]).flatMap Visit.events).foldl Event.write styles := by
  induction visits generalizing styles with
  | nil => cases ended
  | cons visit later ih =>
    rw [runVisits] at ended
    cases failure : visit.failure with
    | some cause =>
      rw [failure] at ended
      cases ended
      exact ⟨[], visit, later, rfl, by simp, failure, rfl, by rw [List.nil_append, foldl_visit]; rfl⟩
    | none =>
      rw [failure] at ended
      obtain ⟨before, failed, behind, rfl, fine, cause, place, same⟩ := ih ended
      exact ⟨visit :: before, failed, behind, rfl, List.forall_mem_cons.mpr ⟨failure, fine⟩, cause, place,
        by rw [List.cons_append, foldl_visit, same]⟩

theorem exists_visited (node : Node) (parent : String) (count : Nat) :
    ∃ visits after, Visited placeholder parent count [node] visits after := by
  obtain ⟨attempts, after, attempted⟩ :
      ∃ attempts after, Attempted placeholder parent count [node] attempts after :=
    exists_attempted node parent count
  obtain ⟨visits, visited⟩ := visited_of_attempted attempted
  exact ⟨visits, after, visited⟩

/-- What the walk from a node has written is the stream of its visits: all of it where the walk comes
to its end, and otherwise as far as the visit whose blueprint fails. -/
theorem collection_folds_events (placeholder : Placeholder) (parent : String) (node : Node) (start : Collection) :
    (∃ visits after, Visited placeholder parent (innermost start.levels) [node] visits after) ∧
    ∀ visits after, Visited placeholder parent (innermost start.levels) [node] visits after →
      (∀ selector last, outcome (collect placeholder parent node) start = (.ok selector, last) →
        (∀ visit ∈ visits, visit.failure = none) ∧
          Folds start.styles (visits.flatMap Visit.events) last.styles) ∧
      ∀ error last, outcome (collect placeholder parent node) start = (.error error, last) →
        ∃ before failed behind, visits = before ++ failed :: behind ∧
          (∀ visit ∈ before, visit.failure = none) ∧
          failed.failure = some error.cause ∧ failed.selector = error.location ∧
          Folds start.styles ((before ++ [failed]).flatMap Visit.events) last.styles := by
  refine ⟨exists_visited node parent _, fun visits after visited => ?_⟩
  obtain ⟨levels, walked, _⟩ := visited.walks start rfl
  rw [outcome_collectRow_cons] at walked
  rcases written : runVisits start.styles visits with ⟨result, styles⟩
  rw [written] at walked
  refine ⟨fun selector last ended => ?_, fun error last ended => ?_⟩
  · rw [ended] at walked
    cases walked
    obtain ⟨fine, same⟩ := runVisits_ok written
    exact ⟨fine, same ▸ folds_foldl start.styles _⟩
  · rw [ended] at walked
    cases walked
    obtain ⟨before, failed, behind, split, fine, cause, place, same⟩ := runVisits_error written
    exact ⟨before, failed, behind, split, fine, cause, place, same ▸ folds_foldl start.styles _⟩

/-- The list cannot be repeated, so neither its items nor the paragraph behind it are reached. -/
def halted : Node where
  own := { tag := some "main", style := some "m" }
  children := [
    { own := { tag := some "p", style := some "first", mediaQueries := [⟨"print", "ink"⟩] } },
    { own := { tag := some "ul", className := some "list", style := some "u", extensions := [⟨":hover", "h"⟩] }
      blueprint := some { count := .expression "lots", template := { own := { tag := some "li", style := some "l" } } } },
    { own := { tag := some "p", style := some "late" } }]

def haltedStart : Collection where
  styles := {
    rules := .ofList [("body > main > p", "old"), ("body", "b")]
    media := .ofList [("print", .ofList [("body", "none")])] }
  levels := [2]

def haltedStyles : Styles where
  rules := .ofList [
    ("body > main > p", "first"), ("body", "b"), ("body > main", "m"), ("body > main > ul.list", "u"),
    ("body > main > ul.list:hover", "h")]
  media := .ofList [("print", .ofList [("body", "none"), ("body > main > p", "ink")])]

theorem collection_folds_events_halted :
    (∃ visits after, Visited .standard "body" 2 [halted] visits after ∧
      ∃ before failed behind, visits = before ++ failed :: behind ∧
        (∀ visit ∈ before, visit.failure = none) ∧
        failed.failure = some (.countNotInteger "lots") ∧ failed.selector = "body > main > ul.list" ∧
        Folds haltedStart.styles ((before ++ [failed]).flatMap Visit.events) haltedStyles) ∧
    ∃ visits after, Visited .standard "" 0 [Markup.sound] visits after ∧
      (∀ visit ∈ visits, visit.failure = none) ∧
      Folds {} (visits.flatMap Visit.events) { rules := .ofList [("body > p", "order: 1")] } := by
  obtain ⟨⟨visits, after, visited⟩, folds⟩ := collection_folds_events .standard "body" halted haltedStart
  obtain ⟨⟨others, last, sound⟩, complete⟩ := collection_folds_events .standard "" Markup.sound {}
  have stopped : outcome (collect .standard "body" halted) haltedStart =
      (.error ⟨"body > main > ul.list", .countNotInteger "lots"⟩, ⟨haltedStyles, [0, 2]⟩) := by cbv
  have ended : outcome (collect .standard "" Markup.sound) {} =
      (.ok "body", ⟨{ rules := .ofList [("body > p", "order: 1")] }, []⟩) := by cbv
  exact ⟨⟨visits, after, visited, (folds visits after visited).2 _ _ stopped⟩,
    others, last, sound, (complete others last sound).1 _ _ ended⟩

end Pagewright.Style
