import Mathlib.Data.List.Basic
import Mathlib.Data.List.Induction
import Pagewright.Files.Disk

/-! What a tree holds. A tree is told by what is at its locations, every name on the way to an entry is one
that an entry can have, and what lies below a location is listed once each. -/

namespace Pagewright.Files

variable {tree first second : FileTree} {location : Location} {name : String} {entry : Entry}

namespace IsEntryName

theorem ne_empty (proper : IsEntryName name) : name ≠ "" := fun same => proper.1 (by simp [same])

theorem ne_dot (proper : IsEntryName name) : name ≠ "." := fun same => proper.1 (by simp [same])

theorem ne_dots (proper : IsEntryName name) : name ≠ ".." := fun same => proper.1 (by simp [same])

theorem fits (proper : IsEntryName name) : name.utf8ByteSize ≤ longestName := proper.2.1

theorem not_mem_slash (proper : IsEntryName name) : '/' ∉ name.toList := proper.2.2.1

theorem not_mem_nul (proper : IsEntryName name) : '\x00' ∉ name.toList := proper.2.2.2

end IsEntryName

namespace FileTree

section Names

theorem at?_eq_getElem? (inner : location ≠ []) : tree.at? location = tree.entries[location]? := if_neg inner

theorem entries_root (tree : FileTree) : tree.entries[([] : Location)]? = none := by
  by_contra present
  have member : ([] : Location) ∈ tree.entries :=
    Std.ExtTreeMap.mem_iff_isSome_getElem?.mpr (Option.isSome_iff_ne_none.mpr present)
  obtain ⟨parent, name, same, _⟩ := tree.named _ member
  simp at same

theorem ext_at? (same : ∀ location, first.at? location = second.at? location) : first = second := by
  have entries : first.entries = second.entries := by
    refine Std.ExtTreeMap.ext_getElem? fun location => ?_
    by_cases root : location = []
    · rw [root, entries_root, entries_root]
    · rw [← at?_eq_getElem? root, ← at?_eq_getElem? root, same]
  cases first
  cases second
  cases entries
  rfl

theorem isEntryName (present : (tree.at? (location ++ [name])).isSome = true) : IsEntryName name := by
  rw [at?_eq_getElem? (by simp), ← Std.ExtTreeMap.mem_iff_isSome_getElem?] at present
  obtain ⟨parent, other, same, proper⟩ := tree.named _ present
  obtain ⟨_, alike⟩ := List.append_inj' same rfl
  cases alike
  exact proper

/-- What is below something lies in directories all the way. -/
theorem isDirectory_of_below {names : List String} (nonempty : names ≠ [])
    (present : (tree.at? (location ++ names)).isSome = true) : tree.at? location = some .directory := by
  induction names using List.reverseRecOn with
  | nil => exact absurd rfl nonempty
  | append_singleton front last ih =>
    rw [← List.append_assoc] at present
    have directory := tree.closed _ _ present
    by_cases empty : front = []
    · rwa [empty, List.append_nil] at directory
    · exact ih empty (by rw [at?, directory]; rfl)

theorem isEntryName_of_mem {names : List String} (present : (tree.at? (location ++ names)).isSome = true)
    (member : name ∈ names) : IsEntryName name := by
  obtain ⟨front, rest, rfl⟩ := List.append_of_mem member
  rw [List.append_cons, ← List.append_assoc, ← List.append_assoc] at present
  by_cases empty : rest = []
  · rw [empty, List.append_nil] at present
    exact isEntryName present
  · have directory := isDirectory_of_below empty present
    have present : (tree.at? (location ++ front ++ [name])).isSome = true := by rw [directory]; rfl
    exact isEntryName present

end Names

section Below

variable {β : Type} {names : List String}

theorem mem_below : (names, entry) ∈ tree.below location ↔ names ≠ [] ∧ tree.at? (location ++ names) = some entry := by
  simp only [below, List.mem_filterMap, Prod.exists]
  constructor
  · rintro ⟨other, found, listed, kept⟩
    split at kept
    next under =>
      simp only [Bool.and_eq_true, List.isPrefixOf_iff_prefix, decide_eq_true_eq] at under
      obtain ⟨⟨rest, rfl⟩, further⟩ := under
      have nonempty : rest ≠ [] := by simpa using further
      cases kept
      rw [List.drop_left]
      refine ⟨nonempty, ?_⟩
      rw [at?_eq_getElem? (by simp [nonempty])]
      exact Std.ExtTreeMap.mem_toList_iff_getElem?_eq_some.mp listed
    next => cases kept
  · rintro ⟨nonempty, found⟩
    rw [at?_eq_getElem? (by simp [nonempty])] at found
    exact ⟨location ++ names, entry, Std.ExtTreeMap.mem_toList_iff_getElem?_eq_some.mpr found, by simp [nonempty]⟩

theorem compare_append (location : Location) (one other : List String) :
    compare (location ++ one) (location ++ other) = compare one other := by
  induction location with
  | nil => rfl
  | cons name rest ih =>
    have same : compare name name = .eq := Std.ReflCmp.compare_self
    rw [List.cons_append, List.cons_append, List.compare_cons_cons, ih, same, Ordering.eq_then]

/-- A listing is in order. -/
theorem pairwise_below (tree : FileTree) (location : Location) :
    (tree.below location).Pairwise fun one other => compare one.1 other.1 = .lt := by
  rw [below, List.pairwise_filterMap]
  refine Std.ExtTreeMap.ordered_keys_toList.imp ?_
  rintro ⟨one, _⟩ ⟨other, _⟩ before kept found kept' also
  simp only [Option.ite_none_right_eq_some, Bool.and_eq_true, List.isPrefixOf_iff_prefix, Option.some.injEq] at found also
  obtain ⟨⟨⟨rest, rfl⟩, _⟩, rfl⟩ := found
  obtain ⟨⟨⟨others, rfl⟩, _⟩, rfl⟩ := also
  rw [compare_append] at before
  simpa only [List.drop_left] using before

/-- The order of a listing is that in which directories are walked: each of them comes before what is in it, and what
is in one of them comes by its name. -/
theorem lex_of_compare {one other : List String} (before : compare one other = .lt) : List.Lex (· < ·) one other := by
  induction one generalizing other with
  | nil =>
    cases other with
    | nil => cases before
    | cons => exact .nil
  | cons name rest ih =>
    cases other with
    | nil => cases before
    | cons next others =>
      rw [List.compare_cons_cons, Ordering.then_eq_lt] at before
      rcases before with less | ⟨same, less⟩
      · exact .rel (compareOfLessAndEq_eq_lt.mp less)
      · cases Std.LawfulEqOrd.eq_of_compare same
        exact .cons (ih less)

/-- What is chosen of a listing does not depend on entries that are not chosen. -/
theorem filterMap_below_congr {choose alike : Location × Entry → Option β}
    (same : ∀ names, names ≠ [] → (first.at? (location ++ names)).bind (fun entry => choose (names, entry)) =
      (second.at? (location ++ names)).bind fun entry => alike (names, entry)) :
    (first.below location).filterMap choose = (second.below location).filterMap alike := by
  let chosen (choose : Location × Entry → Option β) (other : Location) (entry : Entry) : Option β :=
    if location.isPrefixOf other && other ≠ location then choose (other.drop location.length, entry) else none
  have listed (tree : FileTree) (choose : Location × Entry → Option β) :
      (tree.below location).filterMap choose = (tree.entries.filterMap (chosen choose)).toList.map Prod.snd := by
    rw [Std.ExtTreeMap.toList_filterMap, List.map_filterMap, below, List.filterMap_filterMap]
    refine List.filterMap_congr ?_
    rintro ⟨other, entry⟩ _
    simp only [chosen]
    split <;> simp [Function.comp_def]
  have entries : first.entries.filterMap (chosen choose) = second.entries.filterMap (chosen alike) := by
    refine Std.ExtTreeMap.ext_getElem? fun other => ?_
    rw [Std.ExtTreeMap.getElem?_filterMap', Std.ExtTreeMap.getElem?_filterMap']
    by_cases under : (location.isPrefixOf other && other ≠ location) = true
    · have inside := under
      simp only [Bool.and_eq_true, List.isPrefixOf_iff_prefix, decide_eq_true_eq] at inside
      obtain ⟨⟨names, rfl⟩, further⟩ := inside
      have nonempty : names ≠ [] := by simpa using further
      have told := same names nonempty
      rw [at?_eq_getElem? (by simp [nonempty]), at?_eq_getElem? (by simp [nonempty])] at told
      simpa only [chosen, under, if_true, List.drop_left] using told
    · simp only [chosen, if_neg under, Option.bind_fun_none]
  rw [listed, listed, entries]

end Below

end FileTree

end Pagewright.Files
