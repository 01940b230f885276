import Pagewright.Proofs.Expansion.Unrolled
import Pagewright.Markup.Render

/-! The markup of a tree is the markup of its unrolled form. Rendering is first freed from the
bound on the height of the tree, which never cuts anything off. -/

namespace Pagewright.Markup

open Skeleton Expansion
open Style (CompileError)

variable {placeholder : Placeholder}

private theorem renderWithin_stable (first second : Nat) (node : Node)
    (enough : height node ≤ first) (also : height node ≤ second) :
    renderWithin placeholder first node = renderWithin placeholder second node := by
  obtain ⟨below, equal⟩ := exists_height node
  induction first generalizing second node below with
  | zero => omega
  | succ first ih =>
    cases second with
    | zero => omega
    | succ second =>
      rw [renderWithin, renderWithin]
      cases node.own.tag with
      | none => rfl
      | some tag =>
        cases expanded : ownInstances placeholder node with
        | error cause => rfl
        | ok instances =>
          have lower : ∀ other, height other < height node →
              renderWithin placeholder first other = renderWithin placeholder second other := by
            intro other less
            obtain ⟨under, same⟩ := exists_height other
            exact ih second other (by omega) (by omega) under same
          simp only [joinTexts,
            mapList_congr (fun copy member => lower copy (height_copy expanded member)),
            mapList_congr (fun child member => lower child (height_child member))]

/-- Rendering without a bound: instances and children are rendered as any other node is. -/
theorem render_eq (node : Node) :
    render placeholder node =
      match node.own.tag with
      | none => .ok ""
      | some tag =>
        if isSelfClosing tag then .ok (openingText tag node.own ++ " />")
        else
          match ownInstances placeholder node with
          | .error cause => .error { location := "<" ++ tag ++ ">", cause }
          | .ok instances => do
            let copies ← joinTexts (render placeholder) instances
            let children ← joinTexts (render placeholder) node.children
            return openingText tag node.own ++ ">" ++ node.own.text.getD "" ++ copies ++
              children ++ "</" ++ tag ++ ">" := by
  obtain ⟨below, equal⟩ := exists_height node
  rw [render, equal, renderWithin]
  cases node.own.tag with
  | none => rfl
  | some tag =>
    cases expanded : ownInstances placeholder node with
    | error cause => rfl
    | ok instances =>
      have lower : ∀ other, height other < height node →
          renderWithin placeholder below other = render placeholder other :=
        fun other less => renderWithin_stable below _ other (by omega) (Nat.le_refl _)
      simp only [joinTexts,
        mapList_congr (fun copy member => lower copy (height_copy expanded member)),
        mapList_congr (fun child member => lower child (height_child member))]

theorem render_selfClosing {node : Node} {tag : String} (tagged : node.own.tag = some tag)
    (closed : isSelfClosing tag = true) :
    render placeholder node = .ok (openingText tag node.own ++ " />") := by
  rw [render_eq, tagged]
  exact if_pos closed

/-- An element with content is rendered exactly when its instances and its children are. -/
theorem render_element {node : Node} {tag text : String} (tagged : node.own.tag = some tag)
    (content : isSelfClosing tag = false) :
    render placeholder node = .ok text ↔
      ∃ instances copies children, ownInstances placeholder node = .ok instances ∧
        joinTexts (render placeholder) instances = .ok copies ∧
        joinTexts (render placeholder) node.children = .ok children ∧
        text = openingText tag node.own ++ ">" ++ node.own.text.getD "" ++ copies ++ children ++
          "</" ++ tag ++ ">" := by
  rw [render_eq, tagged]
  cases ownInstances placeholder node with
  | error cause => simp [content]
  | ok instances =>
    simp only [content, Bool.false_eq_true, if_false, bind_eq_ok, pure, Except.pure, Except.ok.injEq]
    constructor
    · intro given
      obtain ⟨copies, repeated, children, below, rfl⟩ := given
      exact ⟨instances, copies, children, rfl, repeated, below, rfl⟩
    · intro given
      obtain ⟨_, copies, children, rfl, repeated, below, rfl⟩ := given
      exact ⟨copies, repeated, children, below, rfl⟩

mutual

def writeTree : Unrolled Mark → String
  | .node ⟨tag, own⟩ copies children =>
    if isSelfClosing tag then openingText tag own ++ " />"
    else openingText tag own ++ ">" ++ own.text.getD "" ++ writeRow copies ++ writeRow children ++
      "</" ++ tag ++ ">"

def writeRow : List (Unrolled Mark) → String
  | [] => ""
  | tree :: rest => writeTree tree ++ writeRow rest

end

theorem writeRow_append (front back : List (Unrolled Mark)) :
    writeRow (front ++ back) = writeRow front ++ writeRow back := by
  induction front with
  | nil => simp [writeRow]
  | cons tree front ih => simp [writeRow, ih, String.append_assoc]

theorem joinTexts_nil {ε : Type} (f : Node → Except ε String) : joinTexts f [] = .ok "" := rfl

theorem joinTexts_cons_eq_ok {ε : Type} {f : Node → Except ε String} {first : Node} {rest : List Node}
    {text : String} :
    joinTexts f (first :: rest) = .ok text ↔
      ∃ head others, f first = .ok head ∧ joinTexts f rest = .ok others ∧ text = head ++ others := by
  simp only [joinTexts, map_eq_ok, mapList_cons_eq_ok]
  constructor
  · intro given
    obtain ⟨_, ⟨head, tail, found, mapped, rfl⟩, rfl⟩ := given
    exact ⟨head, String.join tail, found, ⟨tail, mapped, rfl⟩, String.join_cons⟩
  · intro given
    obtain ⟨head, _, found, ⟨tail, mapped, rfl⟩, rfl⟩ := given
    exact ⟨head :: tail, ⟨head, tail, found, mapped, rfl⟩, String.join_cons⟩

/-- What is printed for a row of nodes is what is written for their trees. -/
theorem joinTexts_render {nodes : List Node} {trees : List (Unrolled Mark)}
    (unrolled : Unrolls placeholder nodes trees) :
    joinTexts (render placeholder) nodes = .ok (writeRow trees) := by
  induction unrolled with
  | nil => exact joinTexts_nil _
  | @inert node rest trees untagged _ ih =>
    have nothing : render placeholder node = .ok "" := by rw [render_eq, untagged]
    exact joinTexts_cons_eq_ok.mpr ⟨"", _, nothing, ih, String.empty_append.symm⟩
  | @element node rest instances tag copies children trees tagged expanded _ _ _ repeated below others =>
    refine joinTexts_cons_eq_ok.mpr ⟨_, _, ?_, others, rfl⟩
    rw [render_eq, tagged, expanded]
    simp only [repeated, below, writeTree]
    split <;> rfl

theorem render_of_unrolls {root : Node} {trees : List (Unrolled Mark)}
    (unrolled : Unrolls placeholder [root] trees) :
    render placeholder root = .ok (writeRow trees) := by
  have joined := joinTexts_render unrolled
  simp only [joinTexts, map_eq_ok, mapList_cons_eq_ok, mapList_nil_eq_ok] at joined
  obtain ⟨_, ⟨text, _, found, rfl, rfl⟩, same⟩ := joined
  rw [found, ← same]
  simp [String.join_cons]

end Pagewright.Markup
