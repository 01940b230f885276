import Pagewright.Proofs.Expansion.Flatten
import Pagewright.Proofs.Style.Position

/-! A blueprint abbreviates its instances. Writing them out as children leaves the markup as it
is. It also puts them on the level of the children, which no `div` may see: the styles stay the
same where no template is one. -/

namespace Pagewright.Style

open Skeleton Expansion
open Markup (render writeRow)

variable {placeholder : Placeholder}

theorem writeRow_flattenRow (row : List (Unrolled Mark)) : writeRow (flattenRow row) = writeRow row := by
  induction row using Unrolled.rowInduction with
  | nil => rfl
  | node mark copies children rest repeated below others =>
    rw [flattenRow_cons]
    simp only [Markup.writeRow, Markup.writeTree, Markup.writeRow_append, repeated, below, others,
      String.append_empty, String.append_assoc]

theorem flattenRow_labels (row : List (Unrolled Mark)) :
    (flattenRow row).map (·.label) = row.map (·.label) := by
  induction row with
  | nil => rfl
  | cons tree rest ih =>
    cases tree
    rw [flattenRow_cons, List.map_cons, List.map_cons, ih]
    rfl

theorem copiesAvoid_flattenRow (tag : String) (row : List (Unrolled Mark)) :
    CopiesAvoid tag (flattenRow row) := by
  induction row using Unrolled.rowInduction with
  | nil => exact .nil
  | node mark copies children rest repeated below others =>
    rw [flattenRow_cons]
    exact .cons (by simp) .nil (repeated.append below) others

theorem placeRow_flattenRow_count {row : List (Unrolled Mark)} (avoids : CopiesAvoid "div" row)
    (parent : String) (count : Nat) :
    (placeRow parent count (flattenRow row)).2 = (placeRow parent count row).2 := by
  rw [placeRow_count (copiesAvoid_flattenRow "div" row), placeRow_count avoids, flattenRow_labels]

theorem placeMark_of_ne {mark : Mark} (other : mark.tag ≠ "div") (parent : String)
    (first second : Nat) : placeMark mark parent first = placeMark mark parent second := by
  simp only [placeMark, if_neg other]

/-- A row without `div`s of its own is placed alike on every level. -/
theorem placeRow_of_ne {row : List (Unrolled Mark)} (avoids : CopiesAvoid "div" row)
    (other : ∀ tree ∈ row, tree.label.tag ≠ "div") (parent : String) (first second : Nat) :
    (placeRow parent first row).1 = (placeRow parent second row).1 := by
  induction avoids generalizing parent first second with
  | nil => rfl
  | @cons mark copies children rest apart _ _ _ repeated _ others =>
    have plain : mark.tag ≠ "div" := other _ List.mem_cons_self
    have later : ∀ tree ∈ rest, tree.label.tag ≠ "div" := fun tree member => other tree (by simp [member])
    rw [placeRow_cons, placeRow_cons]
    simp only [placeMark_of_ne plain parent first second, repeated apart _ (countAfter mark.tag first)
      (countAfter mark.tag second), List.cons.injEq, true_and]
    exact others later ..

/-- The walk meets the same elements in the same places when instances are written out. -/
theorem visits_flattenRow {row : List (Unrolled Mark)} (avoids : CopiesAvoid "div" row)
    (parent : String) (count : Nat) :
    visits (placeRow parent count (flattenRow row)).1 = visits (placeRow parent count row).1 := by
  induction avoids generalizing parent count with
  | nil => rfl
  | @cons mark copies children rest apart first _ _ repeated below others =>
    have still : ∀ selector count, (placeRow selector count copies).2 = count := by
      intro selector count
      rw [placeRow_count first, countP_of_ne apart, Nat.add_zero]
    have level : ∀ selector, (placeRow selector 0 (flattenRow copies)).2 = 0 := by
      intro selector
      rw [placeRow_flattenRow_count first, still]
    rw [flattenRow_cons, placeRow_cons, placeRow_cons]
    simp only [visits, visitsTree, placeRow, placeRow_append, visits_append, List.nil_append, level,
      still, repeated, below, others]
    rw [placeRow_of_ne first apart _ 0 (countAfter mark.tag count)]

/-- Flattening a page changes neither what is printed nor, without `div`s among its templates, the
styles and their order. -/
theorem abbreviates {root flat : Node} (flattened : flatten placeholder root = .ok flat) :
    Flat flat ∧
      (∃ markup, render placeholder root = .ok markup ∧ render placeholder flat = .ok markup) ∧
      (AvoidsTemplate "div" root → ∃ styles, collectStyles placeholder root = .ok styles ∧
        collectStyles placeholder flat = .ok styles) := by
  obtain ⟨plain, trees, unrolled, again⟩ := flat_of_flatten flattened
  refine ⟨plain, ⟨writeRow trees, Markup.render_of_unrolls unrolled, ?_⟩, ?_⟩
  · rw [Markup.render_of_unrolls again, writeRow_flattenRow]
  · intro avoids
    have copies : CopiesAvoid "div" trees := unrolled.copiesAvoid (by decide) (by simpa using avoids)
    refine ⟨_, collectStyles_eq_ok.mpr ⟨trees, unrolled, rfl⟩, collectStyles_eq_ok.mpr ⟨_, again, ?_⟩⟩
    rw [visits_flattenRow copies]

private def gallerySection (order className : String) (copies : Nat) : Node where
  own := {
    tag := some "section"
    style := some order
    extensions := [⟨":hover", "h"⟩]
    mediaQueries := [⟨"print", order⟩] }
  children := List.replicate copies { own := { tag := some "p", className := some className, style := some "p" } } ++
    [{ own := { tag := some "div", style := some "a" } }]

/-- The page with its blueprints written out, those inside its instances included. -/
def plainGallery : Node where
  own := gallery.own
  children := [gallerySection "order: 0" "n-0" 1, gallerySection "order: 1" "n-1" 2] ++ gallery.children

theorem abbreviates_gallery :
    flatten .standard gallery = .ok plainGallery ∧ AvoidsTemplate "div" gallery ∧ Flat plainGallery ∧
      (∃ markup, render .standard gallery = .ok markup ∧ render .standard plainGallery = .ok markup) ∧
      ∃ styles, collectStyles .standard gallery = .ok styles ∧
        collectStyles .standard plainGallery = .ok styles := by
  have flattened : flatten .standard gallery = .ok plainGallery := by cbv
  have avoids : AvoidsTemplate "div" gallery := .of_templates (by decide)
  obtain ⟨plain, markup, styles⟩ := abbreviates flattened
  exact ⟨flattened, avoids, plain, markup, styles avoids⟩

end Pagewright.Style
