import Pagewright.Proofs.Expansion.Copy

/-! Trees in which no blueprint is left to repeat. Every element keeps its instances apart from
its children, and inert nodes are gone. Both walks over a page see this tree and nothing else,
so what they have in common is said here once. -/

namespace Pagewright.Expansion

open Skeleton

inductive Unrolled (α : Type) where
  | node (label : α) (copies children : List (Unrolled α))

namespace Unrolled

variable {α β : Type}

def label : Unrolled α → α
  | .node label _ _ => label

def copies : Unrolled α → List (Unrolled α)
  | .node _ copies _ => copies

def children : Unrolled α → List (Unrolled α)
  | .node _ _ children => children

@[simp] theorem label_node (label : α) (copies children : List (Unrolled α)) :
    (node label copies children).label = label := rfl

mutual

theorem treeInduction {motive : List (Unrolled α) → Prop} (nil : motive [])
    (node : ∀ label copies children rest, motive copies → motive children → motive rest →
      motive (.node label copies children :: rest)) :
    ∀ (tree : Unrolled α) (rest : List (Unrolled α)), motive rest → motive (tree :: rest)
  | .node label copies children, rest, others =>
    node label copies children rest (rowInduction nil node copies) (rowInduction nil node children)
      others

/-- Induction over a row of trees: over what stands below the first one, and over the others. -/
theorem rowInduction {motive : List (Unrolled α) → Prop} (nil : motive [])
    (node : ∀ label copies children rest, motive copies → motive children → motive rest →
      motive (.node label copies children :: rest)) : ∀ row, motive row
  | [] => nil
  | tree :: rest => treeInduction nil node tree rest (rowInduction nil node rest)

end

end Unrolled

/-- What a document says of an element that has a tag. -/
structure Mark where
  tag : String
  own : Element

def Mark.isDiv (mark : Mark) : Bool := mark.tag = "div"

/-- The trees that a row of nodes stands for. -/
inductive Unrolls (placeholder : Placeholder) : List Node → List (Unrolled Mark) → Prop where
  | nil : Unrolls placeholder [] []
  | inert {node : Node} {rest : List Node} {trees : List (Unrolled Mark)}
      (untagged : node.own.tag = none) (others : Unrolls placeholder rest trees) :
      Unrolls placeholder (node :: rest) trees
  | element {node : Node} {rest instances : List Node} {tag : String}
      {copies children trees : List (Unrolled Mark)} (tagged : node.own.tag = some tag)
      (expanded : ownInstances placeholder node = .ok instances)
      (repeated : Unrolls placeholder instances copies)
      (below : Unrolls placeholder node.children children)
      (others : Unrolls placeholder rest trees) :
      Unrolls placeholder (node :: rest) (.node ⟨tag, node.own⟩ copies children :: trees)

variable {placeholder : Placeholder}

theorem Unrolls.append {front back : List Node} {first last : List (Unrolled Mark)}
    (unrolled : Unrolls placeholder front first) (others : Unrolls placeholder back last) :
    Unrolls placeholder (front ++ back) (first ++ last) := by
  induction unrolled with
  | nil => exact others
  | inert untagged _ ih => exact .inert untagged ih
  | element tagged expanded repeated below _ _ _ ih =>
    exact .element tagged expanded repeated below ih

theorem exists_unrolls {nodes : List Node} (each : ∀ node ∈ nodes, ∃ trees, Unrolls placeholder [node] trees) :
    ∃ trees, Unrolls placeholder nodes trees := by
  induction nodes with
  | nil => exact ⟨[], .nil⟩
  | cons node rest ih =>
    obtain ⟨trees, first⟩ := each node List.mem_cons_self
    obtain ⟨others, remaining⟩ := ih fun other member => each other (List.mem_cons_of_mem _ member)
    exact ⟨trees ++ others, first.append remaining⟩

theorem Unrolls.unique {nodes : List Node} {first second : List (Unrolled Mark)}
    (unrolled : Unrolls placeholder nodes first) (again : Unrolls placeholder nodes second) :
    first = second := by
  induction unrolled generalizing second with
  | nil =>
    cases again
    rfl
  | inert untagged _ ih =>
    cases again with
    | inert _ others => exact ih others
    | element tagged => cases untagged.symm.trans tagged
  | element tagged expanded _ _ _ repeated below others =>
    cases again with
    | inert untagged => cases untagged.symm.trans tagged
    | element tagged' expanded' repeated' below' others' =>
      cases tagged.symm.trans tagged'
      cases expanded.symm.trans expanded'
      rw [repeated repeated', below below', others others']

/-- No instance in a row of trees, however deep, has the tag. -/
inductive CopiesAvoid (tag : String) : List (Unrolled Mark) → Prop where
  | nil : CopiesAvoid tag []
  | cons {mark : Mark} {copies children rest : List (Unrolled Mark)}
      (other : ∀ copy ∈ copies, copy.label.tag ≠ tag) (repeated : CopiesAvoid tag copies)
      (below : CopiesAvoid tag children) (others : CopiesAvoid tag rest) :
      CopiesAvoid tag (.node mark copies children :: rest)

theorem CopiesAvoid.split {tag : String} {front back : List (Unrolled Mark)}
    (avoids : CopiesAvoid tag (front ++ back)) : CopiesAvoid tag front ∧ CopiesAvoid tag back := by
  induction front with
  | nil => exact ⟨.nil, avoids⟩
  | cons tree front ih =>
    cases avoids with
    | cons other repeated below others => exact ⟨.cons other repeated below (ih others).1, (ih others).2⟩

theorem CopiesAvoid.single {tag : String} {tree : Unrolled Mark} {rest : List (Unrolled Mark)}
    (avoids : CopiesAvoid tag (tree :: rest)) : CopiesAvoid tag [tree] := by
  cases avoids with
  | cons other repeated below _ => exact .cons other repeated below .nil

theorem CopiesAvoid.append {tag : String} {front back : List (Unrolled Mark)}
    (avoids : CopiesAvoid tag front) (others : CopiesAvoid tag back) :
    CopiesAvoid tag (front ++ back) := by
  induction avoids with
  | nil => exact others
  | cons other repeated below _ _ _ ih => exact .cons other repeated below ih

theorem Unrolls.tag_ne {nodes : List Node} {trees : List (Unrolled Mark)} {tag : String}
    (unrolled : Unrolls placeholder nodes trees)
    (other : ∀ node ∈ nodes, node.own.tag ≠ some tag) : ∀ tree ∈ trees, tree.label.tag ≠ tag := by
  induction unrolled with
  | nil => simp
  | inert _ _ ih => exact ih fun node member => other node (by simp [member])
  | @element node _ _ own _ _ _ tagged _ _ _ _ _ _ ih =>
    intro tree member
    rcases List.mem_cons.mp member with rfl | later
    · intro same
      subst same
      exact other node (by simp) tagged
    · exact ih (fun node inside => other node (by simp [inside])) tree later

theorem Unrolls.copiesAvoid {nodes : List Node} {trees : List (Unrolled Mark)} {tag : String}
    (unrolled : Unrolls placeholder nodes trees)
    (clean : tag.toList.any Text.isAsciiDigit = false)
    (avoids : ∀ node ∈ nodes, AvoidsTemplate tag node) : CopiesAvoid tag trees := by
  induction unrolled with
  | nil => exact .nil
  | inert _ _ ih => exact ih fun node member => avoids node (by simp [member])
  | @element node _ instances _ _ _ _ _ expanded copied _ _ repeated below others =>
    have copies : ∀ copy ∈ instances, copy.own.tag ≠ some tag ∧ AvoidsTemplate tag copy :=
      fun copy member => (avoids node (by simp)).copy clean expanded member
    exact .cons (copied.tag_ne fun copy member => (copies copy member).1)
      (repeated fun copy member => (copies copy member).2)
      (below fun child member => (avoids node (by simp)).child member)
      (others fun node member => avoids node (by simp [member]))

end Pagewright.Expansion
