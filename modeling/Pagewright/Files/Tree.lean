import Std.Data.ExtTreeMap

/-! The files of a machine, all of them directories or plain files: there are no links, and no
permissions either. A location is the list of names on the way from the root, and everything but
the root lies in a directory. Locations are ordered by their names, so a directory comes before
what it holds and its entries come sorted. -/

namespace Pagewright.Files

abbrev Location := List String

inductive Entry where
  | directory
  | file (content : ByteArray)

instance : DecidableEq Entry
  | .directory, .directory => isTrue rfl
  | .directory, .file _ | .file _, .directory => isFalse (by simp)
  | .file content, .file other =>
    match ByteArray.instDecidableEq content other with
    | isTrue same => isTrue (by rw [same])
    | isFalse different => isFalse (by simpa using different)

def Entry.isFile : Entry → Bool
  | .directory => false
  | .file _ => true

def longestName : Nat := 255

/-- What an entry of a directory can be called. -/
def IsEntryName (name : String) : Prop :=
  name ∉ ["", ".", ".."] ∧ name.utf8ByteSize ≤ longestName ∧ '/' ∉ name.toList ∧ '\x00' ∉ name.toList

instance : DecidablePred IsEntryName := fun _ => inferInstanceAs (Decidable (_ ∧ _))

/-- The root is always there and has no entry of its own. -/
def entryAt (entries : Std.ExtTreeMap Location Entry) (location : Location) : Option Entry :=
  if location = [] then some .directory else entries[location]?

structure FileTree where
  entries : Std.ExtTreeMap Location Entry
  closed : ∀ location name, (entryAt entries (location ++ [name])).isSome →
    entryAt entries location = some .directory
  named : ∀ location ∈ entries, ∃ parent name, location = parent ++ [name] ∧ IsEntryName name

namespace FileTree

def at? (tree : FileTree) (location : Location) : Option Entry := entryAt tree.entries location

def isDirectory (tree : FileTree) (location : Location) : Bool :=
  tree.at? location = some .directory

theorem entryAt_insert (entries : Std.ExtTreeMap Location Entry) {location : Location}
    (inner : location ≠ []) (entry : Entry) (other : Location) :
    entryAt (entries.insert location entry) other =
      if other = location then some entry else entryAt entries other := by
  unfold entryAt
  by_cases root : other = []
  · simp [root, Ne.symm inner]
  · by_cases same : other = location
    · simp [same, inner]
    · have : ¬ location = other := fun h => same h.symm
      simp [root, same, Std.ExtTreeMap.getElem?_insert, this]

/-- Writes an entry into a directory, unless that would replace a directory. -/
def put (tree : FileTree) (parent : Location) (name : String) (entry : Entry) : FileTree :=
  if fits : tree.at? parent = some .directory ∧
      tree.at? (parent ++ [name]) ≠ some .directory ∧ IsEntryName name then
    { entries := tree.entries.insert (parent ++ [name]) entry
      closed := by
        intro location child present
        have inner : parent ++ [name] ≠ [] := by simp
        rw [entryAt_insert _ inner] at present ⊢
        by_cases same : location = parent ++ [name]
        · exfalso
          have longer : ¬ location ++ [child] = parent ++ [name] := by
            intro equal
            have := congrArg List.length equal
            simp [same] at this
          rw [if_neg longer] at present
          have := tree.closed location child present
          exact fits.2.1 (same ▸ this)
        · rw [if_neg same]
          by_cases here : location ++ [child] = parent ++ [name]
          · obtain ⟨rfl, _⟩ := List.append_inj' here rfl
            exact fits.1
          · rw [if_neg here] at present
            exact tree.closed location child present
      named := by
        intro location member
        rcases Std.ExtTreeMap.mem_insert.mp member with same | known
        · exact ⟨parent, name, (Std.LawfulEqCmp.eq_of_compare same).symm, fits.2.2⟩
        · exact tree.named location known }
  else tree

theorem at?_put (tree : FileTree) (parent : Location) (name : String) (entry : Entry)
    (directory : tree.at? parent = some .directory)
    (free : tree.at? (parent ++ [name]) ≠ some .directory) (proper : IsEntryName name)
    (other : Location) :
    (tree.put parent name entry).at? other =
      if other = parent ++ [name] then some entry else tree.at? other := by
  unfold put
  rw [dif_pos ⟨directory, free, proper⟩]
  exact entryAt_insert _ (by simp) _ _

/-- Removes an entry with everything below it. -/
def remove (tree : FileTree) (location : Location) : FileTree where
  entries := tree.entries.filter fun other _ => !location.isPrefixOf other
  closed := by
    have kept : ∀ other, entryAt (tree.entries.filter fun other _ => !location.isPrefixOf other)
        other = if other = [] ∨ !location.isPrefixOf other then entryAt tree.entries other
          else none := by
      intro other
      unfold entryAt
      by_cases root : other = []
      · simp [root]
      · cases found : tree.entries[other]? <;>
          by_cases under : location.isPrefixOf other = true <;>
          simp [root, Std.ExtTreeMap.getElem?_filter, under, found]
    intro other name present
    rw [kept] at present ⊢
    split at present
    · next outside =>
      have free : other = [] ∨ !location.isPrefixOf other := by
        by_cases root : other = []
        · exact .inl root
        · right
          simp only [List.append_eq_nil_iff, List.cons_ne_self, and_false, false_or,
            Bool.not_eq_true'] at outside ⊢
          rw [Bool.eq_false_iff] at outside ⊢
          intro under
          apply outside
          rw [ List.isPrefixOf_iff_prefix] at under ⊢
          exact under.trans (List.prefix_append other [name])
      rw [if_pos free]
      exact tree.closed other name present
    · simp at present
  named location member := tree.named location (Std.ExtTreeMap.mem_of_mem_filter member)

/-- What lies below a location, as paths from there, directories before their entries. -/
def below (tree : FileTree) (location : Location) : List (Location × Entry) :=
  tree.entries.toList.filterMap fun (other, entry) =>
    if location.isPrefixOf other && other ≠ location then
      some (other.drop location.length, entry)
    else none

def empty : FileTree where
  entries := ∅
  closed := by simp [entryAt]
  named := by simp

/-- Puts the directories of a way into a tree that does not hold them yet. -/
def putDirectories (tree : FileTree) (parent : Location) : Location → FileTree
  | [] => tree
  | name :: rest =>
    let tree := if (tree.at? (parent ++ [name])).isNone then tree.put parent name .directory
      else tree
    tree.putDirectories (parent ++ [name]) rest

end FileTree
end Pagewright.Files
