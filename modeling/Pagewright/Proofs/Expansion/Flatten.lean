import Pagewright.Proofs.Expansion.Unrolled

/-! Trees without blueprints. A tree is flattened by writing the instances of every blueprint in
front of the children beside it. Inert nodes are left as they are, apart from what stands below
them, because nothing of theirs is ever expanded. -/

namespace Pagewright.Expansion

open Skeleton

variable {placeholder : Placeholder}

/-- Flattens a tree of bounded height. Instances are lower than the node that they belong to. -/
def flattenWithin (placeholder : Placeholder) : Nat → Node → Except ExpansionError Node
  | 0, node => .ok node
  | bound + 1, node => do
    let children ← mapList (flattenWithin placeholder bound) node.children
    match node.own.tag with
    | none => return { node with children }
    | some _ =>
      let copies ← mapList (flattenWithin placeholder bound) (← ownInstances placeholder node)
      return { own := node.own, children := copies ++ children }

def flatten (placeholder : Placeholder) (node : Node) : Except ExpansionError Node :=
  flattenWithin placeholder (height node) node

private theorem flattenWithin_stable (first second : Nat) (node : Node)
    (enough : height node ≤ first) (also : height node ≤ second) :
    flattenWithin placeholder first node = flattenWithin placeholder second node := by
  obtain ⟨below, equal⟩ := exists_height node
  induction first generalizing second node below with
  | zero => omega
  | succ first ih =>
    cases second with
    | zero => omega
    | succ second =>
      have lower : ∀ other, height other < height node →
          flattenWithin placeholder first other = flattenWithin placeholder second other := by
        intro other less
        obtain ⟨under, same⟩ := exists_height other
        exact ih second other (by omega) (by omega) under same
      rw [flattenWithin, flattenWithin, mapList_congr fun child member => lower child (height_child member)]
      cases expanded : ownInstances placeholder node with
      | error cause => rfl
      | ok instances =>
        have copies := mapList_congr fun copy member => lower copy (height_copy expanded member)
        simp only [bind, Except.bind, copies]

/-- Flattening without a bound: instances and children are flattened as any other node is. -/
theorem flatten_eq (node : Node) :
    flatten placeholder node = (do
      let children ← mapList (flatten placeholder) node.children
      match node.own.tag with
      | none => return { node with children }
      | some _ =>
        let copies ← mapList (flatten placeholder) (← ownInstances placeholder node)
        return { own := node.own, children := copies ++ children }) := by
  obtain ⟨below, equal⟩ := exists_height node
  have lower : ∀ other, height other < height node →
      flattenWithin placeholder below other = flatten placeholder other :=
    fun other less => flattenWithin_stable below _ other (by omega) (Nat.le_refl _)
  rw [flatten, equal, flattenWithin, mapList_congr fun child member => lower child (height_child member)]
  cases expanded : ownInstances placeholder node with
  | error cause => rfl
  | ok instances =>
    have copies := mapList_congr fun copy member => lower copy (height_copy expanded member)
    simp only [bind, Except.bind, copies]

theorem flatten_inert {node flat : Node} (untagged : node.own.tag = none) :
    flatten placeholder node = .ok flat ↔
      ∃ children, mapList (flatten placeholder) node.children = .ok children ∧
        flat = { node with children } := by
  rw [flatten_eq, bind_eq_ok]
  simp only [untagged, pure, Except.pure, Except.ok.injEq, eq_comm]

theorem flatten_element {node flat : Node} {tag : String} (tagged : node.own.tag = some tag) :
    flatten placeholder node = .ok flat ↔
      ∃ instances copies children, ownInstances placeholder node = .ok instances ∧
        mapList (flatten placeholder) instances = .ok copies ∧
        mapList (flatten placeholder) node.children = .ok children ∧
        flat = { own := node.own, children := copies ++ children } := by
  rw [flatten_eq]
  simp only [tagged, bind_eq_ok, pure, Except.pure, Except.ok.injEq]
  constructor
  · intro given
    obtain ⟨children, below, instances, expanded, copies, repeated, rfl⟩ := given
    exact ⟨instances, copies, children, expanded, repeated, below, rfl⟩
  · intro given
    obtain ⟨instances, copies, children, expanded, repeated, below, rfl⟩ := given
    exact ⟨children, below, instances, expanded, copies, repeated, rfl⟩

/-- No element of the tree has a blueprint. -/
inductive Flat : Node → Prop where
  | node {node : Node} (plain : node.own.tag ≠ none → node.blueprint = none)
      (below : ∀ child ∈ node.children, Flat child) : Flat node

mutual

/-- The unrolled form of the flattened tree: what were instances are children. -/
def flattenTree : Unrolled Mark → Unrolled Mark
  | .node mark copies children => .node mark [] (flattenRow copies ++ flattenRow children)

def flattenRow : List (Unrolled Mark) → List (Unrolled Mark)
  | [] => []
  | tree :: rest => flattenTree tree :: flattenRow rest

end

theorem flattenRow_cons (mark : Mark) (copies children rest : List (Unrolled Mark)) :
    flattenRow (.node mark copies children :: rest) =
      .node mark [] (flattenRow copies ++ flattenRow children) :: flattenRow rest := by
  rw [flattenRow, flattenTree]

theorem flattenRow_append (front back : List (Unrolled Mark)) :
    flattenRow (front ++ back) = flattenRow front ++ flattenRow back := by
  induction front with
  | nil => rfl
  | cons tree front ih => rw [List.cons_append, flattenRow, flattenRow, ih, List.cons_append]

def FlattensTo (placeholder : Placeholder) (nodes others : List Node) : Prop :=
  ∃ trees, Unrolls placeholder nodes trees ∧ Unrolls placeholder others (flattenRow trees)

private theorem flat_of_mapList {nodes flats : List Node}
    (each : ∀ node ∈ nodes, ∀ flat, flatten placeholder node = .ok flat →
      Flat flat ∧ FlattensTo placeholder [node] [flat])
    (flattened : mapList (flatten placeholder) nodes = .ok flats) :
    (∀ flat ∈ flats, Flat flat) ∧ FlattensTo placeholder nodes flats := by
  induction nodes generalizing flats with
  | nil =>
    obtain rfl := mapList_nil_eq_ok.mp flattened
    exact ⟨by simp, [], .nil, .nil⟩
  | cons node rest ih =>
    obtain ⟨flat, others, found, remaining, rfl⟩ := mapList_cons_eq_ok.mp flattened
    obtain ⟨plain, first, unrolled, again⟩ := each node (by simp) flat found
    obtain ⟨plains, last, unrolleds, agains⟩ := ih (fun node member => each node (by simp [member])) remaining
    refine ⟨by simpa using ⟨plain, plains⟩, first ++ last, unrolled.append unrolleds, ?_⟩
    rw [flattenRow_append]
    exact again.append agains

/-- A flattened tree has no blueprints left and stands for the same elements in the same order. -/
theorem flat_of_flatten {node flat : Node} (flattened : flatten placeholder node = .ok flat) :
    Flat flat ∧ FlattensTo placeholder [node] [flat] := by
  induction node using expansionInduction placeholder generalizing flat with
  | step node copies children =>
    cases tagged : node.own.tag with
    | none =>
      obtain ⟨flats, below, rfl⟩ := (flatten_inert tagged).mp flattened
      have plains := (flat_of_mapList (fun child member _ => children child member) below).1
      exact ⟨.node (fun present => absurd tagged present) plains, [], .inert tagged .nil, .inert tagged .nil⟩
    | some tag =>
      obtain ⟨instances, fronts, flats, expanded, repeated, below, rfl⟩ := (flatten_element tagged).mp flattened
      obtain ⟨front, first, unrolled, again⟩ :=
        flat_of_mapList (fun copy member _ => copies instances expanded copy member) repeated
      obtain ⟨plain, second, unrolleds, agains⟩ :=
        flat_of_mapList (fun child member _ => children child member) below
      refine ⟨.node (fun _ => rfl) ?_, [.node ⟨tag, node.own⟩ first second],
        .element tagged expanded unrolled unrolleds .nil, ?_⟩
      · intro child member
        exact (List.mem_append.mp member).elim (front child) (plain child)
      · rw [flattenRow_cons]
        exact .element tagged rfl .nil (again.append agains) .nil

end Pagewright.Expansion
