import Mathlib.Data.List.Basic
import Pagewright.Path

/-! The steps of a path: the pieces between its slashes that lead somewhere. Joining two paths puts
their steps one after the other, and a parent takes the first steps of its path. -/

namespace Pagewright

section Slashes

theorem splitSlash_ne_nil (text : List Char) : splitSlash text ≠ [] := by
  induction text with
  | nil => simp [splitSlash]
  | cons c rest ih =>
    rw [splitSlash]
    split
    · simp
    · split <;> simp

theorem splitSlash_append (front back : List Char) :
    splitSlash (front ++ '/' :: back) = splitSlash front ++ splitSlash back := by
  induction front with
  | nil => simp [splitSlash]
  | cons c front ih =>
    by_cases slash : c = '/'
    · simp [splitSlash, slash, ih]
    · cases split : splitSlash front with
      | nil => exact absurd split (splitSlash_ne_nil front)
      | cons first others => simp [splitSlash, slash, ih, split]

theorem splitSlash_of_not_mem {piece : List Char} (plain : '/' ∉ piece) : splitSlash piece = [piece] := by
  induction piece with
  | nil => rfl
  | cons c rest ih =>
    rw [List.mem_cons, not_or] at plain
    obtain ⟨other, plain⟩ := plain
    rw [splitSlash, if_neg (Ne.symm other), ih plain]

theorem not_mem_of_splitSlash {text piece : List Char} (member : piece ∈ splitSlash text) : '/' ∉ piece := by
  induction text generalizing piece with
  | nil =>
    cases List.mem_singleton.mp member
    exact List.not_mem_nil
  | cons c rest ih =>
    rw [splitSlash] at member
    split at member
    next =>
      rcases List.mem_cons.mp member with rfl | later
      · exact List.not_mem_nil
      · exact ih later
    next other =>
      split at member
      next empty => exact absurd empty (splitSlash_ne_nil rest)
      next first others found =>
        rcases List.mem_cons.mp member with rfl | later
        · rw [List.mem_cons, not_or]
          exact ⟨Ne.symm other, ih (found ▸ List.mem_cons_self)⟩
        · exact ih (found ▸ List.mem_cons_of_mem _ later)

theorem mem_of_mem_splitSlash {text piece : List Char} (member : piece ∈ splitSlash text) {c : Char}
    (inside : c ∈ piece) : c ∈ text := by
  induction text generalizing piece with
  | nil =>
    cases List.mem_singleton.mp member
    cases inside
  | cons first rest ih =>
    rw [splitSlash] at member
    split at member
    next =>
      rcases List.mem_cons.mp member with rfl | later
      · cases inside
      · exact List.mem_cons_of_mem _ (ih later inside)
    next =>
      split at member
      next empty => exact absurd empty (splitSlash_ne_nil rest)
      next front others found =>
        rcases List.mem_cons.mp member with rfl | later
        · rcases List.mem_cons.mp inside with rfl | within
          · exact List.mem_cons_self
          · exact List.mem_cons_of_mem _ (ih (found ▸ List.mem_cons_self) within)
        · exact List.mem_cons_of_mem _ (ih (found ▸ List.mem_cons_of_mem _ later) inside)

theorem exists_piece_mem {text : List Char} {c : Char} (inside : c ∈ text) (other : c ≠ '/') :
    ∃ piece ∈ splitSlash text, c ∈ piece := by
  induction text with
  | nil => cases inside
  | cons first rest ih =>
    rw [splitSlash]
    rcases List.mem_cons.mp inside with rfl | later
    · rw [if_neg other]
      split <;> simp
    · obtain ⟨piece, member, within⟩ := ih later
      split
      · exact ⟨piece, List.mem_cons_of_mem _ member, within⟩
      · split
        next empty => exact absurd empty (splitSlash_ne_nil rest)
        next front others found =>
          rw [found] at member
          rcases List.mem_cons.mp member with rfl | behind
          · exact ⟨first :: piece, List.mem_cons_self, List.mem_cons_of_mem _ within⟩
          · exact ⟨piece, List.mem_cons_of_mem _ behind, within⟩

theorem splitSlash_intercalate {pieces : List (List Char)} (nonempty : pieces ≠ [])
    (plain : ∀ piece ∈ pieces, '/' ∉ piece) : splitSlash (['/'].intercalate pieces) = pieces := by
  induction pieces with
  | nil => exact absurd rfl nonempty
  | cons piece rest ih =>
    obtain ⟨first, others⟩ := List.forall_mem_cons.mp plain
    cases rest with
    | nil => simpa using splitSlash_of_not_mem first
    | cons next rest =>
      have again := ih (by simp) others
      rw [List.intercalate_cons_cons, List.append_assoc, List.singleton_append, splitSlash_append, again,
        splitSlash_of_not_mem first]
      rfl

theorem intercalate_splitSlash (text : List Char) : ['/'].intercalate (splitSlash text) = text := by
  induction text with
  | nil => rfl
  | cons c rest ih =>
    cases split : splitSlash rest with
    | nil => exact absurd split (splitSlash_ne_nil rest)
    | cons first others =>
      rw [split] at ih
      by_cases slash : c = '/'
      · simp [splitSlash, slash, split, List.intercalate_cons_cons, ih]
      · cases others <;> simp_all [splitSlash, List.intercalate_cons_cons]

end Slashes

namespace Path

variable {base path parent : Path}

theorem pieces_ne_nil (path : Path) : path.pieces ≠ [] := by
  simp [pieces, splitSlash_ne_nil]

theorem not_mem_of_pieces {piece : String} (member : piece ∈ path.pieces) : '/' ∉ piece.toList := by
  obtain ⟨characters, inside, rfl⟩ := List.mem_map.mp member
  rw [String.toList_ofList]
  exact not_mem_of_splitSlash inside

theorem mem_of_mem_pieces {piece : String} (member : piece ∈ path.pieces) {c : Char}
    (inside : c ∈ piece.toList) : c ∈ path.text.toList := by
  obtain ⟨characters, found, rfl⟩ := List.mem_map.mp member
  rw [String.toList_ofList] at inside
  exact mem_of_mem_splitSlash found inside

theorem pieces_append (front back : String) :
    (Path.mk (front ++ "/" ++ back)).pieces = (Path.mk front).pieces ++ (Path.mk back).pieces := by
  simp [pieces, splitSlash_append]

theorem getLast?_pieces_of_endsInSlash (slash : path.endsInSlash = true) : path.pieces.getLast? = some "" := by
  obtain ⟨front, same⟩ := List.getLast?_eq_some_iff.mp (of_decide_eq_true slash)
  rw [pieces, same, splitSlash_append]
  simp [splitSlash]

theorem pieces_ofPieces {pieces : List String} (nonempty : pieces ≠ [])
    (plain : ∀ piece ∈ pieces, '/' ∉ piece.toList) : (ofPieces pieces).pieces = pieces := by
  have split : splitSlash (['/'].intercalate (pieces.map String.toList)) = pieces.map String.toList :=
    splitSlash_intercalate (by simpa using nonempty) (by simpa using plain)
  have text : (ofPieces pieces).text.toList = ['/'].intercalate (pieces.map String.toList) := by
    simp [ofPieces, String.toList_intercalate]
  rw [Path.pieces, text, split, List.map_map]
  simp [Function.comp_def]

theorem ofPieces_pieces (path : Path) : ofPieces path.pieces = path := by
  have text : (ofPieces path.pieces).text.toList = path.text.toList := by
    simp [ofPieces, pieces, String.toList_intercalate, Function.comp_def, intercalate_splitSlash]
  cases path
  exact congrArg Path.mk (String.toList_injective text)

theorem isAbsolute_iff : path.isAbsolute = true ↔ ∃ piece rest, path.pieces = "" :: piece :: rest := by
  unfold isAbsolute pieces
  cases path.text.toList with
  | nil => simp [splitSlash]
  | cons c rest =>
    cases split : splitSlash rest with
    | nil => exact absurd split (splitSlash_ne_nil rest)
    | cons first others =>
      by_cases slash : c = '/' <;> simp [splitSlash, split, slash]

/-- The pieces that lead somewhere. -/
def steps (path : Path) : List String := path.pieces.filter (!isVoid ·)

/-- Only a step can hold a character other than slashes and dots. -/
theorem mem_text_iff {c : Char} (slash : c ≠ '/') (dot : c ≠ '.') :
    c ∈ path.text.toList ↔ ∃ step ∈ path.steps, c ∈ step.toList := by
  constructor
  · intro inside
    obtain ⟨piece, member, within⟩ := exists_piece_mem inside slash
    refine ⟨String.ofList piece, List.mem_filter.mpr ⟨List.mem_map_of_mem member, ?_⟩, by simpa using within⟩
    rw [Bool.not_eq_true', isVoid, Bool.or_eq_false_iff, decide_eq_false_iff_not, decide_eq_false_iff_not]
    constructor
    · rintro empty
      have none : piece = [] := by simpa using congrArg String.toList empty
      simp [none] at within
    · rintro only
      have same : piece = ['.'] := by simpa using congrArg String.toList only
      simp [same, dot] at within
  · rintro ⟨step, member, within⟩
    exact mem_of_mem_pieces (List.mem_filter.mp member).1 within

theorem filter_filter_pieces (path : Path) : (path.pieces.filter (· ≠ "")).filter (!isVoid ·) = path.steps := by
  rw [List.filter_filter, steps]
  refine List.filter_congr fun piece _ => ?_
  by_cases empty : piece = "" <;> simp [isVoid, empty]

theorem filter_split (path : Path) : path.split.2.filter (!isVoid ·) = path.steps := by
  unfold split steps
  split
  next same => simp [same, isVoid]
  next same => simp [same, isVoid]
  next => rfl

theorem split_fst : path.split.1 =
    if path.isAbsolute then .root else if path.pieces.head? = some "." then .current else .nothing := by
  have absolute := @isAbsolute_iff path
  unfold split
  split
  next same => simp [absolute.mpr ⟨_, _, same⟩]
  next same => simp_all
  next other dotted =>
    have relative : path.isAbsolute ≠ true := by
      intro given
      obtain ⟨piece, rest, same⟩ := absolute.mp given
      exact other piece rest same
    have plain : path.pieces.head? ≠ some "." := by
      intro given
      obtain ⟨rest, same⟩ := List.head?_eq_some_iff.mp given
      exact dotted rest same
    rw [if_neg relative, if_neg plain]

theorem isAbsolute_iff_root : path.isAbsolute = true ↔ path.split.1 = .root := by
  rw [split_fst]
  split
  next => simp_all
  next => split <;> simp_all

theorem split_snd (plain : path.split.1 = .nothing) : path.split.2 = path.pieces := by
  unfold split at plain ⊢
  split at plain <;> simp_all

theorem components_eq : path.components =
    (Lead.component? path.split.1).toList ++ path.steps.filterMap pieceComponent? := by
  have kept : path.split.2.filterMap pieceComponent? = path.steps.filterMap pieceComponent? := by
    rw [← filter_split, List.filterMap_filter]
    refine List.filterMap_congr fun piece _ => ?_
    cases void : isVoid piece <;> simp [pieceComponent?, void]
  rw [← kept]
  rfl

theorem components_of_isAbsolute (rooted : path.isAbsolute = true) :
    path.components = .root :: path.steps.filterMap pieceComponent? := by
  rw [components_eq, isAbsolute_iff_root.mp rooted]
  rfl

section Join

variable (relative : path.isAbsolute = false)
include relative

/-- A slash at the end of the left side is the one that joins. -/
theorem pieces_join (nonempty : base.isEmpty = false) :
    ∃ front ending, base.pieces = front ++ ending ∧ (base.join path).pieces = front ++ path.pieces ∧
      front ≠ [] ∧ ∀ piece ∈ ending, piece = "" := by
  unfold join
  rw [if_neg (by simp [relative])]
  by_cases slash : base.endsInSlash = true
  · obtain ⟨front, text⟩ : ∃ front : String, base.text = front ++ "/" := by
      obtain ⟨front, same⟩ := List.getLast?_eq_some_iff.mp (of_decide_eq_true slash)
      refine ⟨String.ofList front, String.toList_injective ?_⟩
      simpa using same
    have whole := pieces_append front ""
    refine ⟨(Path.mk front).pieces, [""], ?_, ?_, pieces_ne_nil _, by simp⟩
    · rw [String.append_empty, ← text] at whole
      exact whole
    · rw [if_pos (by simp [slash]), text, pieces_append]
  · refine ⟨base.pieces, [], (List.append_nil _).symm, ?_, pieces_ne_nil _, nofun⟩
    rw [if_neg (by simp [slash, nonempty]), pieces_append]

theorem join_of_relative : base.join path =
    if base.isEmpty || base.endsInSlash then ⟨base.text ++ path.text⟩ else ⟨base.text ++ "/" ++ path.text⟩ := by
  rw [join, if_neg (by simp [relative])]

theorem prefix_join : base.text.toList <+: (base.join path).text.toList := by
  rw [join_of_relative relative]
  split <;> simp [List.append_assoc]

theorem isEmpty_join_of_base (nonempty : base.isEmpty = false) : (base.join path).isEmpty = false := by
  have begins : base.text.toList <+: (base.join path).text.toList := prefix_join relative
  rw [← Bool.not_eq_true] at nonempty ⊢
  intro empty
  have text : (base.join path).text = "" := String.isEmpty_iff.mp empty
  rw [text, String.toList_empty, List.prefix_nil, String.toList_eq_nil_iff] at begins
  exact nonempty (String.isEmpty_iff.mpr begins)

theorem join_of_empty (empty : base.isEmpty = true) : base.join path = path := by
  have text : base.text = "" := String.isEmpty_iff.mp empty
  simp [join, relative, empty, text]

omit relative in
theorem steps_of_empty (empty : base.isEmpty = true) : base.steps = [] := by
  have text : base.text = "" := String.isEmpty_iff.mp empty
  simp [steps, pieces, text, splitSlash, isVoid]

theorem steps_join : (base.join path).steps = base.steps ++ path.steps := by
  cases empty : base.isEmpty with
  | true => rw [join_of_empty relative empty, steps_of_empty empty, List.nil_append]
  | false =>
    obtain ⟨front, ending, left, joined, _, void⟩ := pieces_join relative empty
    have nothing : ending.filter (!isVoid ·) = [] := by
      rw [List.filter_eq_nil_iff]
      intro piece member
      simp [void piece member, isVoid]
    rw [steps, steps, steps, left, joined, List.filter_append, List.filter_append, nothing, List.append_nil]

/-- Joining with nothing only adds the slash that the next path would be joined with. -/
theorem join_empty_join : (base.join ⟨""⟩).join path = base.join path := by
  have nothing : (Path.mk "").isAbsolute = false := rfl
  simp only [join, relative, nothing]
  cases empty : base.isEmpty <;> cases slash : base.endsInSlash <;> simp_all [isEmpty, endsInSlash]

theorem isAbsolute_join : (base.join path).isAbsolute = base.isAbsolute := by
  cases empty : base.isEmpty with
  | true =>
    have text : base.text = "" := String.isEmpty_iff.mp empty
    rw [join_of_empty relative empty, relative]
    simp [isAbsolute, text]
  | false =>
    obtain ⟨c, rest, text⟩ : ∃ c rest, base.text.toList = c :: rest :=
      List.exists_cons_of_ne_nil fun nothing => by simp_all [isEmpty]
    unfold join
    rw [if_neg (by simp [relative])]
    split <;> simp [isAbsolute, text]

theorem split_fst_join (plain : path.split.1 = .nothing) : (base.join path).split.1 = base.split.1 := by
  cases empty : base.isEmpty with
  | true =>
    have text : base.text = "" := String.isEmpty_iff.mp empty
    rw [join_of_empty relative empty, plain]
    simp [split, pieces, text, splitSlash]
  | false =>
    obtain ⟨front, ending, left, joined, begun, _⟩ := pieces_join relative empty
    have first : (base.join path).pieces.head? = base.pieces.head? := by
      rw [left, joined, List.head?_append_of_ne_nil _ begun, List.head?_append_of_ne_nil _ begun]
    rw [split_fst, split_fst, isAbsolute_join relative, first]

end Join

/-- The right side of a join counts alone where it is absolute. -/
theorem isAbsolute_join_eq : (base.join path).isAbsolute = (path.isAbsolute || base.isAbsolute) := by
  cases relative : path.isAbsolute with
  | true => simp [join, relative]
  | false => rw [isAbsolute_join relative, Bool.false_or]

theorem steps_join_eq :
    (base.join path).steps = if path.isAbsolute then path.steps else base.steps ++ path.steps := by
  cases relative : path.isAbsolute with
  | true => simp [join, relative]
  | false => simpa using steps_join relative

/-- Under an absolute path, the steps make the components. -/
theorem components_join_congr {one other : Path} (rooted : base.isAbsolute = true) (same : one.steps = other.steps)
    (start : one.isAbsolute = other.isAbsolute) : (base.join one).components = (base.join other).components := by
  rw [components_of_isAbsolute (by rw [isAbsolute_join_eq, rooted, Bool.or_true]),
    components_of_isAbsolute (by rw [isAbsolute_join_eq, rooted, Bool.or_true]), steps_join_eq, steps_join_eq, same,
    start]

section Parents

theorem trimVoid_begins (pieces : List String) : trimVoid pieces <+: pieces := by
  have suffix := List.dropWhile_suffix (l := pieces.reverse) isVoid
  rwa [← List.reverse_prefix, List.reverse_reverse] at suffix

/-- A path that takes the first steps of another one from the same start. An empty path is the start
itself. -/
structure Leads (first path : Path) : Prop where
  steps : first.steps <+: path.steps
  start : first.isEmpty = true ∨ first.isAbsolute = path.isAbsolute

theorem Leads.refl (path : Path) : path.Leads path := ⟨List.prefix_rfl, .inr rfl⟩

section Pieces

variable {front : List String} (plain : ∀ piece ∈ front, '/' ∉ piece.toList)
include plain

theorem steps_ofPieces : (ofPieces front).steps = front.filter (!isVoid ·) := by
  cases front with
  | nil => rfl
  | cons piece front => rw [steps, pieces_ofPieces (by simp) plain]

theorem isAbsolute_ofPieces :
    (ofPieces front).isAbsolute = true ↔ ∃ piece rest, front = "" :: piece :: rest := by
  cases front with
  | nil => simp [isAbsolute, ofPieces]
  | cons piece front => rw [isAbsolute_iff, pieces_ofPieces (by simp) plain]

end Pieces

theorem ofSplit_leads {front : List String} (begins : front <+: path.split.2) :
    (ofSplit path.split.1 front).Leads path := by
  have within : ∀ piece ∈ path.split.2, piece ∈ path.pieces := by
    unfold split
    split <;> simp_all
  have plain : ∀ piece ∈ front, '/' ∉ piece.toList :=
    fun piece member => not_mem_of_pieces (within piece (begins.subset member))
  have first : front.filter (!isVoid ·) <+: path.steps := filter_split path ▸ begins.filter _
  have absolute := @isAbsolute_iff_root path
  cases lead : path.split.1 with
  | root =>
    have rooted : ∀ piece ∈ "" :: (if front.isEmpty then [""] else front), '/' ∉ piece.toList := by
      split <;> simp_all
    refine ⟨?_, .inr ?_⟩
    · rw [ofSplit, steps_ofPieces rooted]
      split <;> simp_all [isVoid]
    · rw [absolute.mpr lead, ofSplit, isAbsolute_ofPieces rooted]
      cases front <;> simp
  | current =>
    have dotted : ∀ piece ∈ "." :: front, '/' ∉ piece.toList := by simp_all
    refine ⟨?_, .inr (Bool.eq_iff_iff.mpr ?_)⟩
    · rw [ofSplit, steps_ofPieces dotted]
      simpa [isVoid] using first
    · rw [absolute, lead, ofSplit, isAbsolute_ofPieces dotted]
      simp
  | nothing =>
    refine ⟨?_, .inr (Bool.eq_iff_iff.mpr ?_)⟩
    · rw [ofSplit, steps_ofPieces plain]
      exact first
    · rw [ofSplit, isAbsolute_ofPieces plain]
      constructor
      · rintro ⟨piece, rest, rfl⟩
        obtain ⟨others, same⟩ := begins
        rw [split_snd lead] at same
        exact isAbsolute_iff.mpr ⟨piece, rest ++ others, same.symm⟩
      · intro given
        cases lead.symm.trans (absolute.mp given)

theorem parent?_leads (found : path.parent? = some parent) : parent.Leads path := by
  have nowhere : (Path.mk "").Leads path := ⟨ List.nil_prefix, .inl rfl⟩
  have begins : ∀ pieces, pieces <+: path.split.2 → (ofSplit path.split.1 pieces).Leads path :=
    fun pieces => ofSplit_leads
  unfold parent? at found
  generalize path.split = taken at found begins
  obtain ⟨lead, pieces⟩ := taken
  dsimp only at found begins
  have trimmed : trimVoid (trimVoid pieces).dropLast <+: pieces :=
    (trimVoid_begins _).trans (( List.dropLast_prefix _).trans (trimVoid_begins _))
  split at found
  next =>
    cases found
    exact nowhere
  next => cases found
  next =>
    cases found
    exact begins _ trimmed

theorem parent?_of_empty (empty : path.isEmpty = true) : path.parent? = none := by
  have text : path.text = "" := String.isEmpty_iff.mp empty
  simp [parent?, split, pieces, text, splitSlash, trimVoid, isVoid]

theorem ancestorsWithin_lead (bound : Nat) (path : Path) :
    ∀ first ∈ ancestorsWithin bound path, first.Leads path := by
  induction bound generalizing path with
  | zero => simp [ancestorsWithin, Leads.refl]
  | succ bound ih =>
    rw [ancestorsWithin]
    split
    next => simp [Leads.refl]
    next parent found =>
      intro first member
      rcases List.mem_cons.mp member with rfl | later
      · exact .refl _
      · have nearer := ih parent first later
        have near := parent?_leads found
        refine ⟨nearer.steps.trans near.steps, ?_⟩
        rcases near.start with empty | same
        · have only : ancestorsWithin bound parent = [parent] := by
            cases bound <;> simp [ancestorsWithin, parent?_of_empty empty]
          rw [only, List.mem_singleton] at later
          exact .inl (later ▸ empty)
        · exact nearer.start.imp_right (·.trans same)

end Parents

section Names

variable {name next : String}

theorem pieces_name (plain : '/' ∉ name.toList) : (Path.mk name).pieces = [name] := by
  simp [pieces, splitSlash_of_not_mem plain]

theorem isAbsolute_name (plain : '/' ∉ name.toList) : (Path.mk name).isAbsolute = false := by
  rw [← Bool.not_eq_true, isAbsolute_iff, pieces_name plain]
  simp

theorem filter_pieces_join (plain : '/' ∉ name.toList) (filled : name ≠ "") :
    (base.join ⟨name⟩).pieces.filter (· ≠ "") = base.pieces.filter (· ≠ "") ++ [name] := by
  have relative := isAbsolute_name plain
  cases empty : base.isEmpty with
  | true =>
    have text : base.text = "" := String.isEmpty_iff.mp empty
    rw [join_of_empty relative empty, pieces_name plain]
    simp [pieces, text, splitSlash, filled]
  | false =>
    obtain ⟨front, ending, left, joined, _, void⟩ := pieces_join relative empty
    have nothing : ending.filter (· ≠ "") = [] := by simpa using void
    rw [left, joined, pieces_name plain, List.filter_append, List.filter_append, nothing, List.append_nil]
    simp [filled]

theorem isEmpty_join (filled : name ≠ "") : (base.join ⟨name⟩).isEmpty = false := by
  unfold join
  split
  · simpa [isEmpty] using filled
  · split <;> simp [isEmpty, filled]

theorem endsInSlash_join (plain : '/' ∉ name.toList) (named : isVoid name = false) :
    (base.join ⟨name⟩).endsInSlash = false := by
  have filled : name.toList ≠ [] := by
    intro empty
    have : name = "" := String.toList_eq_nil_iff.mp empty
    simp [this, isVoid] at named
  obtain ⟨front, text⟩ : ∃ front, (base.join ⟨name⟩).text.toList = front ++ name.toList := by
    unfold join
    rw [if_neg (by simp [isAbsolute_name plain])]
    split
    · exact ⟨base.text.toList, by simp⟩
    · exact ⟨base.text.toList ++ ['/'], by simp⟩
  rw [endsInSlash, text, List.getLast?_append_of_ne_nil _ filled, decide_eq_false_iff_not]
  exact fun slash => plain (List.mem_of_getLast? slash)

theorem exists_ancestors (path : Path) : ∃ parents, path.ancestors = path :: parents := by
  unfold ancestors ancestorsWithin
  split
  · exact ⟨[], rfl⟩
  · split
    · exact ⟨[], rfl⟩
    · exact ⟨_, rfl⟩

end Names

section Ending

variable {name : String}

theorem pieceComponent?_step {step : String} (member : step ∈ path.steps) :
    pieceComponent? step = some (if step = ".." then .parent else .name step) := by
  have named : isVoid step = false := by simpa using (List.mem_filter.mp member).2
  rw [pieceComponent?, if_neg (by simp [named])]
  split <;> rfl

theorem fileName?_eq_some : path.fileName? = some name ↔ path.steps.getLast? = some name ∧ name ≠ ".." := by
  rw [fileName?, components_eq]
  rcases List.eq_nil_or_concat' path.steps with none | ⟨front, last, taken⟩
  · rw [none]
    cases path.split.1 <;> simp [Lead.component?]
  · have component := pieceComponent?_step (show last ∈ path.steps by simp [taken])
    rw [taken, List.filterMap_append, List.filterMap_cons_some component, List.filterMap_nil, ← List.append_assoc,
      List.getLast?_concat, List.getLast?_concat, Option.some.injEq]
    by_cases back : last = ".."
    · simp only [back, if_true]
      constructor
      · nofun
      · rintro ⟨rfl, other⟩
        exact absurd rfl other
    · simp only [if_neg back, Option.some.injEq]
      exact ⟨fun same => ⟨same, same ▸ back⟩, And.left⟩

end Ending

end Path

end Pagewright
