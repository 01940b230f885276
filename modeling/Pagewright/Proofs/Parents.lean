import Pagewright.Proofs.Path

/-! The parent of a path that takes more than one step. It takes all of them but the last from the same start, and
its text begins that of the path. -/

namespace Pagewright

/-- The pieces that a path begins with for its lead. -/
def Lead.pieces : Lead → List String
  | .nothing => []
  | .current => ["."]
  | .root => [""]

namespace Path

variable {path : Path} {front parts : List String} {last : String} {lead : Lead}

section Trimming

theorem getLast?_trimVoid (parts : List String) : ∀ piece ∈ (trimVoid parts).getLast?, isVoid piece = false := by
  intro piece found
  rw [trimVoid, List.getLast?_reverse] at found
  have kept := List.head?_dropWhile_not isVoid parts.reverse
  rw [Option.mem_def.mp found] at kept
  simpa using kept

theorem filter_trimVoid (parts : List String) :
    (trimVoid parts).filter (!isVoid ·) = parts.filter (!isVoid ·) := by
  have whole : trimVoid parts ++ (parts.reverse.takeWhile isVoid).reverse = parts := by
    rw [trimVoid, ← List.reverse_append, List.takeWhile_append_dropWhile, List.reverse_reverse]
  have nothing : (parts.reverse.takeWhile isVoid).reverse.filter (!isVoid ·) = [] := by
    rw [List.filter_eq_nil_iff]
    intro piece member
    have void := List.all_eq_true.mp List.all_takeWhile piece (List.mem_reverse.mp member)
    simp [void]
  conv => rhs; rw [← whole, List.filter_append, nothing, List.append_nil]

theorem trimVoid_eq_nil {parts : List String} (void : parts.filter (!isVoid ·) = []) : trimVoid parts = [] := by
  rcases List.eq_nil_or_concat' (trimVoid parts) with none | ⟨front, last, same⟩
  · exact none
  · have kept := filter_trimVoid parts
    have named := getLast?_trimVoid parts last (by simp [same])
    rw [void, same, List.filter_append, List.filter_singleton, named] at kept
    simp at kept

end Trimming

section Leading

theorem pieces_split (path : Path) : path.pieces = path.split.1.pieces ++ path.split.2 := by
  unfold split
  split
  next same => exact same
  next same => exact same
  next => rfl

theorem pieces_ofSplit (nonempty : parts ≠ []) (plain : ∀ piece ∈ parts, '/' ∉ piece.toList) :
    (ofSplit lead parts).pieces = lead.pieces ++ parts := by
  cases lead with
  | nothing => exact pieces_ofPieces nonempty plain
  | current => exact pieces_ofPieces (by simp) (by simpa using plain)
  | root =>
    rw [ofSplit, if_neg (by simpa using nonempty)]
    exact pieces_ofPieces (by simp) (by simpa using plain)

theorem filter_leading (lead : Lead) : lead.pieces.filter (!isVoid ·) = [] := by
  cases lead <;> simp [Lead.pieces, isVoid]

end Leading

section Texts

theorem prefix_ofPieces (begins : front <+: parts) :
    (ofPieces front).text.toList <+: (ofPieces parts).text.toList := by
  obtain ⟨rest, rfl⟩ := begins
  rw [ofPieces, ofPieces, String.toList_intercalate, String.toList_intercalate, List.map_append]
  induction front with
  | nil => simp
  | cons piece front ih =>
    cases front with
    | nil =>
      cases rest with
      | nil => simp
      | cons next rest => simp [List.intercalate_cons_cons]
    | cons next front =>
      simp only [List.map_cons, List.cons_append, List.intercalate_cons_cons] at ih ⊢
      simpa using ih

/-- A path with the first pieces of another one has the beginning of its text. -/
theorem prefix_text {first : Path} (begins : first.pieces <+: path.pieces) :
    first.text.toList <+: path.text.toList := by
  have texts := prefix_ofPieces begins
  rwa [ofPieces_pieces, ofPieces_pieces] at texts

theorem size_le_of_prefix {first second : String} (begins : first.toList <+: second.toList) :
    first.utf8ByteSize ≤ second.utf8ByteSize := by
  obtain ⟨rest, same⟩ := begins
  have whole : second = first ++ String.ofList rest := String.toList_injective (by simp [same])
  rw [whole, String.utf8ByteSize_append]
  exact Nat.le_add_right _ _

theorem size_intercalate_cons (name : String) {rest : List String} (more : rest ≠ []) :
    ("/".intercalate (name :: rest)).utf8ByteSize = name.utf8ByteSize + 1 + ("/".intercalate rest).utf8ByteSize := by
  obtain ⟨next, rest, rfl⟩ := List.exists_cons_of_ne_nil more
  have slash : "/".utf8ByteSize = 1 := rfl
  rw [String.intercalate_cons_cons, String.utf8ByteSize_append, String.utf8ByteSize_append, slash]

theorem size_intercalate_le {names others : List String} (kept : names.Sublist others) :
    ("/".intercalate names).utf8ByteSize ≤ ("/".intercalate others).utf8ByteSize := by
  induction kept with
  | slnil => exact Nat.le_refl _
  | @cons names others name kept ih =>
    by_cases none : others = []
    · subst none
      cases List.sublist_nil.mp kept
      exact Nat.zero_le _
    · rw [size_intercalate_cons name none]
      omega
  | @cons_cons names others name kept ih =>
    by_cases none : others = []
    · subst none
      cases List.sublist_nil.mp kept
      exact Nat.le_refl _
    · rw [size_intercalate_cons name none]
      by_cases last : names = []
      · subst last
        rw [String.intercalate_singleton]
        omega
      · rw [size_intercalate_cons name last]
        omega

/-- Each name takes a character at least, and one more that separates it from the next. -/
theorem length_le_size {names : List String} (filled : "" ∉ names) :
    2 * names.length ≤ ("/".intercalate names).utf8ByteSize + 1 := by
  induction names with
  | nil => exact Nat.zero_le _
  | cons name rest ih =>
    rw [List.mem_cons, not_or] at filled
    have size : name.utf8ByteSize ≠ 0 := fun none => filled.1 (String.utf8ByteSize_eq_zero_iff.mp none).symm
    have shorter := ih filled.2
    rw [List.length_cons]
    by_cases last : rest = []
    · subst last
      rw [String.intercalate_singleton, List.length_nil]
      omega
    · rw [size_intercalate_cons name last]
      omega

theorem intercalate_pieces (path : Path) : "/".intercalate path.pieces = path.text :=
  congrArg Path.text (ofPieces_pieces path)

/-- The steps of a path take no more text than the path. -/
theorem size_steps_le (begins : front <+: path.steps) : ("/".intercalate front).utf8ByteSize ≤ path.text.utf8ByteSize := by
  have sizes := size_intercalate_le (begins.sublist.trans List.filter_sublist)
  rwa [intercalate_pieces] at sizes

theorem size_le_of_sublist {one other : Path} (kept : one.pieces.Sublist other.pieces) :
    one.text.utf8ByteSize ≤ other.text.utf8ByteSize := by
  have sizes := size_intercalate_le kept
  rwa [intercalate_pieces, intercalate_pieces] at sizes

end Texts

/-- A path that does not end in a dot for the place it has come to. -/
def Undotted (path : Path) : Prop := (path.pieces.filter (· ≠ "")).getLast? ≠ some "."

instance (path : Path) : Decidable path.Undotted := inferInstanceAs (Decidable (_ ≠ _))

/-- The path to the directory that another path has its last step in. -/
structure Above (parent path : Path) (front : List String) : Prop where
  steps : parent.steps = front
  start : parent.isAbsolute = path.isAbsolute
  pieces : parent.pieces <+: path.pieces
  undotted : parent.Undotted

/-- The parent of a path takes the pieces in front of the last step, up to the last of them that leads somewhere. -/
theorem parent?_eq_ofSplit (taken : path.steps = front ++ [last]) :
    ∃ before, path.parent? = some (ofSplit path.split.1 (trimVoid before)) ∧ before.filter (!isVoid ·) = front ∧
      before ++ [last] <+: path.split.2 := by
  have kept := filter_trimVoid path.split.2
  rw [filter_split, taken] at kept
  have ending := getLast?_trimVoid path.split.2
  -- what is left of the pieces ends in the last step
  obtain ⟨before, name, trimmed⟩ : ∃ before name, trimVoid path.split.2 = before ++ [name] :=
    (List.eq_nil_or_concat' _).resolve_left fun nothing => by simp [nothing] at kept
  have named : isVoid name = false := ending name (by simp [trimmed])
  rw [trimmed, List.filter_append, List.filter_singleton, named] at kept
  obtain ⟨earlier, same⟩ := List.append_inj' kept rfl
  cases same
  refine ⟨before, ?_, earlier, trimmed ▸ trimVoid_begins _⟩
  obtain ⟨piece, rest, same⟩ := List.exists_cons_of_ne_nil (l := before ++ [last]) (by simp)
  have front : (piece :: rest).dropLast = before := by rw [← same, List.dropLast_concat]
  rw [parent?]
  dsimp only
  rw [trimmed, same, ← front]
  cases path.split.1 <;> rfl

/-- The parent of a path with a single step is its start. -/
theorem parent?_alone (taken : path.steps = [last]) :
    path.parent? = some (ofSplit path.split.1 []) ∧ last ∈ path.split.2 := by
  obtain ⟨before, found, nothing, begins⟩ := parent?_eq_ofSplit (show path.steps = [] ++ [last] from taken)
  rw [trimVoid_eq_nil nothing] at found
  exact ⟨found, begins.subset (by simp)⟩

theorem exists_parent (taken : path.steps = front ++ [last]) (more : front ≠ []) :
    ∃ parent, path.parent? = some parent ∧ parent.Above path front := by
  obtain ⟨before, found, earlier, begins⟩ := parent?_eq_ofSplit taken
  have again := filter_trimVoid before
  rw [earlier] at again
  have nonempty : trimVoid before ≠ [] := fun nothing => more (by simpa [nothing] using again.symm)
  have within : trimVoid before <+: path.split.2 :=
    (trimVoid_begins before).trans ((List.prefix_append before [last]).trans begins)
  have whole := pieces_split path
  have plain : ∀ piece ∈ trimVoid before, '/' ∉ piece.toList := fun piece member =>
    not_mem_of_pieces (whole ▸ List.mem_append_right _ (within.subset member))
  have listed : (ofSplit path.split.1 (trimVoid before)).pieces = _ := pieces_ofSplit nonempty plain
  refine ⟨ofSplit path.split.1 (trimVoid before), found, ?_, ?_, ?_, ?_⟩
  · rw [steps, listed, List.filter_append, filter_leading, again, List.nil_append]
  · rw [Bool.eq_iff_iff, isAbsolute_iff, isAbsolute_iff_root, listed]
    cases lead : path.split.1 with
    | root =>
      obtain ⟨piece, rest, same⟩ := List.exists_cons_of_ne_nil nonempty
      exact iff_of_true ⟨piece, rest, by rw [same]; rfl⟩ rfl
    | current => simp [Lead.pieces]
    | nothing =>
      refine iff_of_false ?_ (by simp)
      rintro ⟨piece, rest, same⟩
      obtain ⟨others, along⟩ := within
      have absolute : path.isAbsolute = true := isAbsolute_iff.mpr ⟨piece, rest ++ others, by
        rw [whole, lead, ← along]
        exact congrArg (· ++ others) same⟩
      cases lead.symm.trans (isAbsolute_iff_root.mp absolute)
  · rw [listed, whole]
    exact (List.prefix_append_right_inj _).mpr within
  · obtain ⟨rest, final, same⟩ := (List.eq_nil_or_concat' (trimVoid before)).resolve_left nonempty
    have proper : isVoid final = false := getLast?_trimVoid before final (by simp [same])
    have filled : final ≠ "" ∧ final ≠ "." := by simpa [isVoid] using proper
    rw [Undotted, listed, same, ← List.append_assoc, List.filter_append]
    simp [filled]

end Path

end Pagewright
