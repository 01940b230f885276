import Pagewright.Proofs.Expansion.Unrolled
import Pagewright.Style.Selector

/-! One step of the walk that collects styles. The bound on the height of the tree is removed
first; what a step does is then read off as an outcome and a collection, errors included. -/

namespace Pagewright.Style

open Skeleton Expansion

variable {placeholder : Placeholder}

theorem forM_congr {m : Type → Type} [Monad m] {α : Type} {items : List α} {f g : α → m Unit}
    (same : ∀ item ∈ items, f item = g item) : items.forM f = items.forM g := by
  induction items with
  | nil => rfl
  | cons first rest ih =>
    rw [List.forM, List.forM, same first (by simp),
      ih (fun item member => same item (by simp [member]))]

private theorem collectWithin_stable (first second : Nat) (parent : String) (node : Node)
    (enough : height node ≤ first) (also : height node ≤ second) :
    collectWithin placeholder first parent node = collectWithin placeholder second parent node := by
  obtain ⟨below, equal⟩ := exists_height node
  induction first generalizing second parent node below with
  | zero => omega
  | succ first ih =>
    cases second with
    | zero => omega
    | succ second =>
      have lower : ∀ selector other, height other < height node →
          collectWithin placeholder first selector other =
            collectWithin placeholder second selector other := by
        intro selector other less
        obtain ⟨under, same⟩ := exists_height other
        exact ih second selector other (by omega) (by omega) under same
      rw [collectWithin, collectWithin]
      cases node.own.tag with
      | none => rfl
      | some tag =>
        cases expanded : ownInstances placeholder node with
        | error cause => rfl
        | ok instances =>
          have copies := fun selector => forM_congr (m := Collecting) fun copy member =>
            congrArg discard (lower selector copy (height_copy expanded member))
          have children := fun selector => forM_congr (m := Collecting) fun child member =>
            congrArg discard (lower selector child (height_child member))
          simp only [copies, children]

def collectRow (placeholder : Placeholder) (parent : String) (nodes : List Node) :
    Collecting Unit :=
  nodes.forM fun node => discard (collect placeholder parent node)

/-- Collects the styles of children on a level of their own. -/
def collectBelow (placeholder : Placeholder) (parent : String) (nodes : List Node) :
    Collecting Unit := do
  unless nodes.isEmpty do
    modify Collection.openLevel
    collectRow placeholder parent nodes
    modify Collection.closeLevel

/-- Collecting without a bound: instances and children are collected as any other node is. -/
theorem collect_eq (parent : String) (node : Node) :
    collect placeholder parent node = (do
      let some tag := node.own.tag | return parent
      let (step, collection) := tagStep parent tag (← get)
      let selector := parent ++ step ++ classStep node.own.className
      set (collection.record selector node.own)
      match ownInstances placeholder node with
      | .error cause => throw { location := selector, cause }
      | .ok instances =>
        collectRow placeholder selector instances
        collectBelow placeholder selector node.children
        return selector) := by
  obtain ⟨below, equal⟩ := exists_height node
  have lower : ∀ selector other, height other < height node →
      collectWithin placeholder below selector other = collect placeholder selector other :=
    fun selector other less => collectWithin_stable below _ selector other (by omega) (Nat.le_refl _)
  rw [collect, equal, collectWithin]
  cases node.own.tag with
  | none => rfl
  | some tag =>
    cases expanded : ownInstances placeholder node with
    | error cause => rfl
    | ok instances =>
      have copies := fun selector => forM_congr (m := Collecting) fun copy member =>
        congrArg discard (lower selector copy (height_copy expanded member))
      have children := fun selector => forM_congr (m := Collecting) fun child member =>
        congrArg discard (lower selector child (height_child member))
      simp only [copies, children, collectRow, collectBelow]
      cases node.children.isEmpty with
      | true => rfl
      | false => simp only [Bool.false_eq_true, if_false, bind_assoc]

def outcome {α : Type} (walk : Collecting α) (start : Collection) :
    Except CompileError α × Collection :=
  walk.run start

theorem outcome_bind {α β : Type} (walk : Collecting α) (next : α → Collecting β)
    (start : Collection) :
    outcome (walk >>= next) start =
      match outcome walk start with
      | (.ok value, collection) => outcome (next value) collection
      | (.error error, collection) => (.error error, collection) := by
  simp only [outcome, bind, ExceptT.run, ExceptT.bind, ExceptT.mk, StateT.bind]
  rcases walk start with ⟨_ | value, collection⟩ <;> rfl

theorem outcome_get (start : Collection) : outcome get start = (.ok start, start) := rfl

theorem outcome_set (collection start : Collection) :
    outcome (set collection) start = (.ok ⟨⟩, collection) := rfl

theorem outcome_modify (change : Collection → Collection) (start : Collection) :
    outcome (modify change) start = (.ok ⟨⟩, change start) := rfl

theorem outcome_discard {α : Type} (walk : Collecting α) (start : Collection) :
    outcome (discard walk) start =
      ((outcome walk start).1.map fun _ => ⟨⟩, (outcome walk start).2) := by
  have plain : discard walk = walk >>= fun _ => pure ⟨⟩ := by
    rw [bind_pure_comp]
    rfl
  rw [plain, outcome_bind]
  rcases outcome walk start with ⟨_ | value, collection⟩ <;> rfl

theorem outcome_collectRow_nil (parent : String) (start : Collection) :
    outcome (collectRow placeholder parent []) start = (.ok ⟨⟩, start) := rfl

theorem outcome_collectRow_cons (parent : String) (node : Node) (rest : List Node)
    (start : Collection) :
    outcome (collectRow placeholder parent (node :: rest)) start =
      match outcome (collect placeholder parent node) start with
      | (.ok _, collection) => outcome (collectRow placeholder parent rest) collection
      | (.error error, collection) => (.error error, collection) := by
  have step : collectRow placeholder parent (node :: rest) =
      discard (collect placeholder parent node) >>= fun _ => collectRow placeholder parent rest := rfl
  rw [step, outcome_bind, outcome_discard]
  rcases outcome (collect placeholder parent node) start with ⟨_ | value, collection⟩ <;> rfl

theorem outcome_collectBelow {nodes : List Node} (present : nodes ≠ []) (parent : String)
    (start : Collection) :
    outcome (collectBelow placeholder parent nodes) start =
      match outcome (collectRow placeholder parent nodes) start.openLevel with
      | (.ok _, collection) => (.ok ⟨⟩, collection.closeLevel)
      | (.error error, collection) => (.error error, collection) := by
  have opened : collectBelow placeholder parent nodes = (do
      modify Collection.openLevel
      collectRow placeholder parent nodes
      modify Collection.closeLevel) := if_neg (by simpa using present)
  simp only [opened, outcome_bind, outcome_modify]
  rcases outcome (collectRow placeholder parent nodes) start.openLevel with ⟨_ | _, collection⟩ <;> rfl

def enter (parent tag : String) (own : Element) (start : Collection) : String × Collection :=
  let (step, counted) := tagStep parent tag start
  let selector := parent ++ step ++ classStep own.className
  (selector, counted.record selector own)

theorem outcome_collect_inert {node : Node} (untagged : node.own.tag = none) (parent : String)
    (start : Collection) : outcome (collect placeholder parent node) start = (.ok parent, start) := by
  rw [collect_eq, untagged]
  rfl

/-- An element whose blueprint fails has recorded its own declarations by then. -/
theorem outcome_collect_failed {node : Node} {tag : String} {cause : ExpansionError}
    (tagged : node.own.tag = some tag) (failed : ownInstances placeholder node = .error cause)
    (parent : String) (start : Collection) :
    outcome (collect placeholder parent node) start =
      (.error { location := (enter parent tag node.own start).1, cause },
        (enter parent tag node.own start).2) := by
  rw [collect_eq, tagged, failed]
  rfl

theorem outcome_collect_element {node : Node} {tag : String} {instances : List Node}
    (tagged : node.own.tag = some tag) (expanded : ownInstances placeholder node = .ok instances)
    (parent : String) (start : Collection) :
    outcome (collect placeholder parent node) start =
      let entered := enter parent tag node.own start
      match outcome (collectRow placeholder entered.1 instances) entered.2 with
      | (.ok _, repeated) =>
        match outcome (collectBelow placeholder entered.1 node.children) repeated with
        | (.ok _, collection) => (.ok entered.1, collection)
        | (.error error, collection) => (.error error, collection)
      | (.error error, collection) => (.error error, collection) := by
  rw [collect_eq, tagged, expanded]
  simp only [outcome_bind, outcome_get, outcome_set, enter]
  rcases outcome (collectRow placeholder _ instances) _ with ⟨_ | _, repeated⟩
  · rfl
  · dsimp only
    rcases outcome (collectBelow placeholder _ node.children) repeated with ⟨_ | _, collection⟩ <;> rfl

end Pagewright.Style
