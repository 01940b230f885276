import Pagewright.Proofs.Expansion.Settled

/-! Substitution by its grammar. A text is cut from left to right: at the leftmost place where the
placeholder stands, and behind the longest offset that follows it there. What lies between the tokens
is kept as it is, each token becomes a number in decimal, and the first that stands for none is the
error. -/

namespace Pagewright.Expansion

open Text

variable {placeholder : Placeholder} {index : Int} {name text gap : List Char}

section Offsets

variable {offset sign digits rest : List Char}

/-- An offset as it is written: a plus sign, a minus sign or none, and digits of any script, at least one. -/
inductive IsOffset : List Char → Prop where
  | written {sign digits : List Char} (signed : sign = [] ∨ sign = ['-']) (nonempty : digits ≠ [])
      (all : ∀ c ∈ digits, isDigit c = true) : IsOffset ('+' :: (sign ++ digits))

/-- The longest offset that a text begins with, or nothing where it begins with none. -/
inductive LongestOffset (text : List Char) : List Char → Prop where
  | absent (none : ∀ offset, IsOffset offset → ¬ offset <+: text) : LongestOffset text []
  | found {offset : List Char} (isOffset : IsOffset offset) (begins : offset <+: text)
      (longest : ∀ other, IsOffset other → other <+: text → other.length ≤ offset.length) :
      LongestOffset text offset

theorem LongestOffset.unique {first second : List Char} (one : LongestOffset text first)
    (other : LongestOffset text second) : first = second := by
  cases one with
  | absent none =>
    cases other with
    | absent => rfl
    | found isOffset begins => exact absurd begins (none second isOffset)
  | found isOffset begins longest =>
    cases other with
    | absent none => exact absurd begins (none first isOffset)
    | found isOffset' begins' longest' =>
      have within : first <+: second :=
        List.prefix_of_prefix_length_le begins begins' (longest' first isOffset begins)
      exact within.eq_of_length_le (longest second isOffset' begins')

theorem LongestOffset.begins (longest : LongestOffset text offset) : offset <+: text := by
  cases longest with
  | absent => exact List.nil_prefix
  | found _ begins => exact begins

theorem prefix_takeWhile {p : Char → Bool} {front : List Char} (begins : front <+: text)
    (all : ∀ c ∈ front, p c = true) : front <+: text.takeWhile p := by
  obtain ⟨rest, rfl⟩ := begins
  rw [List.takeWhile_append_of_pos all]
  exact List.prefix_append front _

/-- A digit is no sign, so a sign in front of a digit is the one that the text begins with. -/
theorem sign_eq {sign' behind : List Char} {c : Char} (signed : sign = [] ∨ sign = ['-'])
    (signed' : sign' = [] ∨ sign' = ['-']) (unsigned : sign = [] → rest.head? ≠ some '-') (digit : isDigit c = true)
    (same : sign' ++ c :: behind = sign ++ rest) : sign' = sign := by
  rcases signed with rfl | rfl <;> rcases signed' with rfl | rfl
  · rfl
  · rw [List.nil_append] at same
    exact absurd (by rw [← same]; rfl) (unsigned rfl)
  · have first : c = '-' := (List.cons.inj same).1
    subst first
    exact absurd digit (by decide)
  · rfl

/-- Behind its sign, an offset at the front of a text takes digits only. -/
theorem prefix_of_isOffset (signed : sign = [] ∨ sign = ['-']) (unsigned : sign = [] → rest.head? ≠ some '-')
    (isOffset : IsOffset offset) (begins : offset <+: '+' :: (sign ++ rest)) :
    rest.takeWhile isDigit ≠ [] ∧ offset <+: '+' :: (sign ++ rest.takeWhile isDigit) := by
  cases isOffset with
  | @written sign' digits signed' nonempty all =>
    obtain ⟨c, digits, rfl⟩ := List.exists_cons_of_ne_nil nonempty
    obtain rfl : sign' = sign := by
      obtain ⟨behind, same⟩ := begins
      rw [List.cons_append, List.cons_inj_right, List.append_assoc, List.cons_append] at same
      exact sign_eq signed signed' unsigned (all c List.mem_cons_self) same
    rw [List.cons_prefix_cons, List.prefix_append_right_inj] at begins
    have taken := prefix_takeWhile begins.2 all
    refine ⟨fun empty => by simp [empty] at taken, ?_⟩
    rwa [List.cons_prefix_cons, List.prefix_append_right_inj, eq_self, true_and]

theorem longestOffset_digits (signed : sign = [] ∨ sign = ['-']) (unsigned : sign = [] → rest.head? ≠ some '-') :
    LongestOffset ('+' :: (sign ++ rest))
      (if rest.takeWhile isDigit = [] then [] else '+' :: (sign ++ rest.takeWhile isDigit)) := by
  split
  next none => exact .absent fun offset isOffset begins => (prefix_of_isOffset signed unsigned isOffset begins).1 none
  next some =>
    refine .found (.written signed some fun c member => List.mem_takeWhile_imp member) ?_ ?_
    · rw [List.cons_prefix_cons, List.prefix_append_right_inj]
      exact ⟨rfl, List.takeWhile_prefix isDigit⟩
    · exact fun other isOffset begins => (prefix_of_isOffset signed unsigned isOffset begins).2.length_le

/-- The offset that is read, with its plus sign. -/
def offsetText : Option (List Char) → List Char
  | none => []
  | some offset => '+' :: offset

/-- An offset without its plus sign. -/
def bareOffset : List Char → Option (List Char)
  | [] => none
  | _ :: rest => some rest

theorem bareOffset_offsetText (offset : Option (List Char)) : bareOffset (offsetText offset) = offset := by
  cases offset <;> rfl

theorem length_offsetText (offset : Option (List Char)) : (offsetText offset).length = offsetLength offset := by
  cases offset <;> rfl

theorem longestOffset_read (text : List Char) : LongestOffset text (offsetText (readOffset text)) := by
  unfold readOffset
  split
  next rest =>
    have longest : LongestOffset ('+' :: (['-'] ++ rest)) _ := longestOffset_digits (.inr rfl) nofun
    generalize rest.takeWhile isDigit = digits at longest ⊢
    cases digits <;> exact longest
  next rest minus =>
    have longest : LongestOffset ('+' :: ([] ++ rest)) _ := longestOffset_digits (.inl rfl) fun _ starts => by
      obtain ⟨behind, rfl⟩ := List.head?_eq_some_iff.mp starts
      exact minus behind rfl
    generalize rest.takeWhile isDigit = digits at longest ⊢
    cases digits <;> exact longest
  next plain =>
    refine .absent fun offset isOffset begins => ?_
    obtain ⟨signed, nonempty, all⟩ := isOffset
    obtain ⟨behind, same⟩ := begins
    exact plain _ same.symm

instance : Decidable (LongestOffset text offset) :=
  decidable_of_iff (offsetText (readOffset text) = offset)
    ⟨fun read => read ▸ longestOffset_read text, (longestOffset_read text).unique⟩

end Offsets

section Cutting

/-- A token and the gap in front of it. The token is the placeholder with an offset, which is empty
where none follows. -/
structure Cut where
  gap : List Char
  offset : List Char

/-- No occurrence of the name starts further left than the one behind the gap. -/
def Leftmost (name gap after : List Char) : Prop :=
  ∀ front back, gap ++ (name ++ after) = front ++ (name ++ back) → gap.length ≤ front.length

/-- The cuts of a text, and what remains behind the last token. -/
inductive Cuts (name : List Char) : List Char → List Cut → List Char → Prop where
  | last {text : List Char} (absent : ¬ name <:+: text) : Cuts name text [] text
  | token {gap offset rest tail : List Char} {cuts : List Cut} (leftmost : Leftmost name gap (offset ++ rest))
      (longest : LongestOffset (offset ++ rest) offset) (others : Cuts name rest cuts tail) :
      Cuts name (gap ++ (name ++ (offset ++ rest))) (⟨gap, offset⟩ :: cuts) tail

theorem exists_leftmost (inside : name <:+: text) :
    ∃ gap after, text = gap ++ (name ++ after) ∧ Leftmost name gap after := by
  induction text with
  | nil =>
    obtain rfl := List.eq_nil_of_infix_nil inside
    exact ⟨[], [], rfl, fun _ _ _ => Nat.zero_le _⟩
  | cons c rest ih =>
    by_cases starts : name <+: c :: rest
    · obtain ⟨after, same⟩ := starts
      exact ⟨[], after, same.symm, fun _ _ _ => Nat.zero_le _⟩
    · obtain ⟨gap, after, rfl, leftmost⟩ := ih ((List.infix_cons_iff.mp inside).resolve_left starts)
      refine ⟨c :: gap, after, rfl, fun front back same => ?_⟩
      cases front with
      | nil => exact absurd ⟨back, same.symm⟩ starts
      | cons d front => exact Nat.succ_le_succ (leftmost front back (List.cons.inj same).2)

theorem leftmost_iff {after : List Char} :
    Leftmost name gap after ↔ ∀ k < gap.length, ¬ name <+: (gap ++ (name ++ after)).drop k := by
  constructor
  · rintro leftmost k before ⟨back, same⟩
    have place := leftmost ((gap ++ (name ++ after)).take k) back (by rw [same, List.take_append_drop])
    rw [List.length_take] at place
    omega
  · intro none front back same
    by_contra shorter
    refine none front.length (Nat.lt_of_not_le shorter) ⟨back, ?_⟩
    rw [same, List.drop_left]

instance {after : List Char} : Decidable (Leftmost name gap after) := decidable_of_iff _ leftmost_iff.symm

/-- Every text has its cuts. -/
theorem exists_cuts (nonempty : name ≠ []) (text : List Char) : ∃ cuts tail, Cuts name text cuts tail := by
  -- A cut takes several characters at once, so the induction is on the length of the text.
  induction length : text.length using Nat.strongRecOn generalizing text with
  | ind length ih =>
    subst length
    by_cases inside : name <:+: text
    · obtain ⟨gap, after, rfl, leftmost⟩ := exists_leftmost inside
      obtain ⟨offset, longest⟩ : ∃ offset, LongestOffset after offset := ⟨_, longestOffset_read after⟩
      obtain ⟨rest, rfl⟩ := longest.begins
      have shorter : rest.length < (gap ++ (name ++ (offset ++ rest))).length := by
        have := List.length_pos_iff.mpr nonempty
        simp only [List.length_append]
        omega
      obtain ⟨cuts, tail, others⟩ := ih _ shorter rest rfl
      exact ⟨_, tail, .token leftmost longest others⟩
    · exact ⟨[], text, .last inside⟩

theorem Cuts.without {cuts : List Cut} {tail : List Char} (cut : Cuts name text cuts tail) :
    cuts = [] ↔ ¬ name <:+: text := by
  cases cut with
  | last absent => exact iff_of_true rfl absent
  | token => exact iff_of_false nofun (not_not_intro ⟨_, _, List.append_assoc ..⟩)

theorem Leftmost.gap_eq {gap' after after' : List Char} (leftmost : Leftmost name gap after)
    (leftmost' : Leftmost name gap' after') (same : gap ++ (name ++ after) = gap' ++ (name ++ after')) :
    gap = gap' ∧ after = after' := by
  have length : gap.length = gap'.length :=
    Nat.le_antisymm (leftmost gap' after' same) (leftmost' gap after same.symm)
  obtain ⟨rfl, behind⟩ := List.append_inj same length
  exact ⟨rfl, List.append_cancel_left behind⟩

/-- There is one way to cut a text. -/
theorem Cuts.unique {cuts cuts' : List Cut} {tail tail' : List Char} (one : Cuts name text cuts tail)
    (other : Cuts name text cuts' tail') : cuts = cuts' ∧ tail = tail' := by
  induction one generalizing cuts' tail' with
  | last absent =>
    cases other with
    | last => exact ⟨rfl, rfl⟩
    | token => exact absurd ⟨_, _, List.append_assoc ..⟩ absent
  | @token gap offset rest tail cuts leftmost longest _ ih =>
    generalize same : gap ++ (name ++ (offset ++ rest)) = text at other
    cases other with
    | last absent => exact absurd ⟨gap, offset ++ rest, by rw [← same, List.append_assoc]⟩ absent
    | token leftmost' longest' others' =>
      obtain ⟨rfl, behind⟩ := leftmost.gap_eq leftmost' same
      obtain rfl := longest.unique (behind ▸ longest')
      obtain rfl := List.append_cancel_left behind
      obtain ⟨rfl, rfl⟩ := ih others'
      exact ⟨rfl, rfl⟩

theorem piecesAfter_drop (used : Nat) (text : List Char) :
    piecesAfter placeholder used text = piecesAfter placeholder 0 (text.drop used) := by
  induction used generalizing text with
  | zero => rfl
  | succ used ih =>
    cases text with
    | nil => rfl
    | cons c rest => exact ih rest

/-- A token is taken off a text that begins with it. -/
theorem pieces_name (after : List Char) :
    pieces placeholder (placeholder.name ++ after) =
      .token (readOffset after) :: pieces placeholder (after.drop (offsetLength (readOffset after))) := by
  obtain ⟨c, rest, name⟩ := List.exists_cons_of_ne_nil placeholder.nonempty
  have starts : placeholder.name.isPrefixOf (c :: (rest ++ after)) = true := by simp [name]
  have behind : (c :: (rest ++ after)).drop placeholder.name.length = after := by
    rw [← List.cons_append, ← name, List.drop_left]
  have whole : placeholder.name ++ after = c :: (rest ++ after) := by rw [name, List.cons_append]
  rw [whole, pieces, piecesAfter, if_pos starts, behind]
  dsimp only
  rw [piecesAfter_drop]
  congr 2
  rw [name, List.length_cons, Nat.add_right_comm, Nat.add_sub_cancel, ← List.drop_drop, List.drop_left]

/-- Nothing in front of the leftmost token is taken for one. -/
theorem pieces_gap {rest : List Char}
    (plain : ∀ front back, gap ++ rest = front ++ (placeholder.name ++ back) → gap.length ≤ front.length) :
    pieces placeholder (gap ++ rest) = gap.map .plain ++ pieces placeholder rest := by
  induction gap with
  | nil => rfl
  | cons c gap ih =>
    have other : placeholder.name.isPrefixOf (c :: (gap ++ rest)) = false := by
      rw [← Bool.not_eq_true, List.isPrefixOf_iff_prefix]
      rintro ⟨back, same⟩
      exact absurd (plain [] back same.symm) (by simp)
    rw [List.cons_append, pieces, piecesAfter, if_neg (by simp [other])]
    exact congrArg (Piece.plain c :: ·) (ih fun front back same => by
      simpa using plain (c :: front) back (by rw [List.cons_append, same, List.cons_append]))

/-- What is read behind the placeholder is the offset of the cut. -/
theorem LongestOffset.read {offset rest : List Char} (longest : LongestOffset (offset ++ rest) offset) :
    readOffset (offset ++ rest) = bareOffset offset ∧
      (offset ++ rest).drop (offsetLength (readOffset (offset ++ rest))) = rest := by
  have same := (longestOffset_read (offset ++ rest)).unique longest
  refine ⟨?_, by rw [← length_offsetText, same, List.drop_left]⟩
  rw [← bareOffset_offsetText (readOffset _), same]

def Cut.pieces (cut : Cut) : List Piece := cut.gap.map .plain ++ [.token (bareOffset cut.offset)]

theorem pieces_of_cuts {cuts : List Cut} {tail : List Char} (cut : Cuts placeholder.name text cuts tail) :
    pieces placeholder text = cuts.flatMap Cut.pieces ++ tail.map .plain := by
  induction cut with
  | last absent => exact piecesAfter_eq_plain (any_isToken_eq_false.mpr absent)
  | token leftmost longest _ ih =>
    obtain ⟨read, behind⟩ := longest.read
    rw [pieces_gap leftmost, pieces_name, behind, read, ih, List.flatMap_cons,
      Cut.pieces]
    simp only [List.append_assoc, List.cons_append, List.nil_append]

/-- What stands behind the placeholder in a cut. -/
def Cut.WellFormed (cut : Cut) : Prop := cut.offset = [] ∨ IsOffset cut.offset

theorem Cuts.wellFormed {cuts : List Cut} {tail : List Char} (cut : Cuts name text cuts tail) :
    ∀ cut ∈ cuts, cut.WellFormed := by
  induction cut with
  | last => simp
  | token _ longest _ ih =>
    refine List.forall_mem_cons.mpr ⟨?_, ih⟩
    cases longest with
    | absent => exact .inl rfl
    | found isOffset => exact .inr isOffset

end Cutting

section Replacing

variable {replaced tail : List Char} {value : Int} {cut : Cut} {cuts : List Cut}

/-- The number that a token stands for. Only the ten ASCII digits spell an offset, which has to fit 64 bits
as the number itself does. -/
inductive TokenNumber (index : Int) : List Char → Int → Prop where
  | alone : TokenNumber index [] index
  | up {digits : List Char} (nonempty : digits ≠ []) (ascii : ∀ c ∈ digits, isAsciiDigit c = true)
      (fits : InRange64 (readDigits digits)) (sum : InRange64 (index + readDigits digits)) :
      TokenNumber index ('+' :: digits) (index + readDigits digits)
  | down {digits : List Char} (nonempty : digits ≠ []) (ascii : ∀ c ∈ digits, isAsciiDigit c = true)
      (fits : InRange64 (-readDigits digits)) (sum : InRange64 (index + -readDigits digits)) :
      TokenNumber index ('+' :: '-' :: digits) (index + -readDigits digits)

/-- The text of cuts with every token replaced by its number in decimal. -/
inductive Filled (index : Int) : List Cut → List Char → Prop where
  | nil : Filled index [] []
  | cons {cut : Cut} {cuts : List Cut} {value : Int} {replaced : List Char}
      (number : TokenNumber index cut.offset value) (others : Filled index cuts replaced) :
      Filled index (cut :: cuts) (cut.gap ++ ((toString value).toList ++ replaced))

theorem Filled.number (filled : Filled index cuts replaced) :
    ∀ cut ∈ cuts, ∃ value, TokenNumber index cut.offset value := by
  induction filled with
  | nil => simp
  | cons number _ ih => exact List.forall_mem_cons.mpr ⟨⟨_, number⟩, ih⟩

/-- The first cut whose token stands for no number. -/
def FirstFailing (index : Int) (cuts : List Cut) (cut : Cut) : Prop :=
  ∃ before after, cuts = before ++ cut :: after ∧ (∀ fine ∈ before, ∃ value, TokenNumber index fine.offset value) ∧
    ¬ ∃ value, TokenNumber index cut.offset value

theorem writeInteger_eq_toString (value : Int) : writeInteger value = (toString value).toList := by
  have digits (n : Nat) : (Nat.repr n).toList = writeNatural n := by simp [Nat.repr, writeNatural]
  cases value with
  | ofNat n =>
    have plain : ¬ Int.ofNat n < 0 := Int.not_lt.mpr (Int.natCast_nonneg n)
    rw [writeInteger, if_neg plain]
    exact (digits n).symm
  | negSucc n =>
    rw [writeInteger, if_pos (Int.negSucc_lt_zero n)]
    change _ = ("-" ++ Nat.repr (n + 1)).toList
    rw [String.toList_append, digits]
    rfl

/-- A digit is no sign, so digits are read as they stand. -/
theorem readInteger_digits {digits : List Char} {shift : Int} (all : ∀ c ∈ digits, isDigit c = true) :
    readInteger digits = some shift ↔
      digits ≠ [] ∧ (∀ c ∈ digits, isAsciiDigit c = true) ∧ (readDigits digits : Int) = shift :=
  readInteger_unsigned (fun plus => absurd (all _ (List.mem_of_head? plus)) (by decide))
    fun minus => absurd (all _ (List.mem_of_head? minus)) (by decide)

theorem shiftedIndex_some {shift : List Char} :
    shiftedIndex index (some shift) = some value ↔
      ∃ n, readInteger shift = some n ∧ InRange64 n ∧ InRange64 (index + n) ∧ index + n = value := by
  simp [shiftedIndex, readInteger64, Option.filter_eq_some_iff, Option.bind_eq_some_iff, and_assoc]

theorem tokenNumber_iff (wellFormed : cut.WellFormed) :
    TokenNumber index cut.offset value ↔ shiftedIndex index (bareOffset cut.offset) = some value := by
  obtain ⟨gap, offset⟩ := cut
  dsimp only
  constructor
  · intro number
    cases number with
    | alone => rfl
    | up nonempty ascii fits sum =>
      have all := fun c member => isDigit_of_isAsciiDigit (ascii c member)
      exact shiftedIndex_some.mpr ⟨_, (readInteger_digits all).mpr ⟨nonempty, ascii, rfl⟩, fits, sum, rfl⟩
    | down nonempty ascii fits sum =>
      exact shiftedIndex_some.mpr ⟨_, readInteger_minus.mpr ⟨nonempty, ascii, rfl⟩, fits, sum, rfl⟩
  · intro shifted
    rcases wellFormed with empty | isOffset
    · cases empty
      cases shifted
      exact .alone
    · obtain ⟨signed, _, all⟩ := isOffset
      obtain ⟨shift, read, fits, sum, rfl⟩ := shiftedIndex_some.mp shifted
      rcases signed with rfl | rfl
      · obtain ⟨nonempty, ascii, rfl⟩ := (readInteger_digits all).mp read
        exact .up nonempty ascii fits sum
      · obtain ⟨nonempty, ascii, rfl⟩ := readInteger_minus.mp read
        exact .down nonempty ascii fits sum

theorem replacePieces_gap (rest : List Piece) :
    replacePieces placeholder index (gap.map .plain ++ rest) =
      (gap ++ ·) <$> replacePieces placeholder index rest := by
  induction gap with
  | nil => exact (id_map' _).symm
  | cons c gap ih =>
    rw [List.map_cons, List.cons_append, replacePieces, ih]
    cases replacePieces placeholder index rest <;> rfl

/-- A token with a number gives way to it. -/
theorem replacePieces_number (wellFormed : cut.WellFormed) (number : TokenNumber index cut.offset value)
    (rest : List Piece) :
    replacePieces placeholder index (cut.pieces ++ rest) =
      (fun replaced => cut.gap ++ ((toString value).toList ++ replaced)) <$> replacePieces placeholder index rest := by
  rw [tokenNumber_iff wellFormed] at number
  rw [Cut.pieces, List.append_assoc, replacePieces_gap, List.singleton_append, replacePieces, Piece.replace, number,
    ← writeInteger_eq_toString]
  cases replacePieces placeholder index rest <;> rfl

theorem tokenText_bareOffset (wellFormed : cut.WellFormed) :
    tokenText placeholder (bareOffset cut.offset) = placeholder.name ++ cut.offset := by
  obtain ⟨gap, offset⟩ := cut
  rcases wellFormed with empty | isOffset
  · cases empty
    exact (List.append_nil _).symm
  · cases isOffset
    rfl

/-- A token without a number is the error. -/
theorem replacePieces_failing (wellFormed : cut.WellFormed) (failing : ¬ ∃ value, TokenNumber index cut.offset value)
    (rest : List Piece) :
    replacePieces placeholder index (cut.pieces ++ rest) =
      .error (.offsetOutOfRange (String.ofList (placeholder.name ++ cut.offset))) := by
  have none : shiftedIndex index (bareOffset cut.offset) = none := by
    refine Option.eq_none_iff_forall_ne_some.mpr fun value found => failing ⟨value, ?_⟩
    exact (tokenNumber_iff wellFormed).mpr found
  rw [Cut.pieces, List.append_assoc, replacePieces_gap, List.singleton_append, replacePieces, Piece.replace, none,
    ← tokenText_bareOffset wellFormed]
  rfl

theorem replacePieces_of_filled (wellFormed : ∀ cut ∈ cuts, cut.WellFormed) (filled : Filled index cuts replaced)
    (tail : List Char) :
    replacePieces placeholder index (cuts.flatMap Cut.pieces ++ tail.map .plain) = .ok (replaced ++ tail) := by
  induction filled with
  | nil => exact replacePieces_plain tail
  | cons number _ ih =>
    obtain ⟨first, others⟩ := List.forall_mem_cons.mp wellFormed
    rw [List.flatMap_cons, List.append_assoc, replacePieces_number first number, ih others]
    simp [Functor.map, Except.map]

theorem replacePieces_of_firstFailing (wellFormed : ∀ cut ∈ cuts, cut.WellFormed)
    (failing : FirstFailing index cuts cut) (rest : List Piece) :
    replacePieces placeholder index (cuts.flatMap Cut.pieces ++ rest) =
      .error (.offsetOutOfRange (String.ofList (placeholder.name ++ cut.offset))) := by
  obtain ⟨before, after, rfl, fine, none⟩ := failing
  induction before with
  | nil =>
    have first := wellFormed cut List.mem_cons_self
    rw [List.nil_append, List.flatMap_cons, List.append_assoc, replacePieces_failing first none]
  | cons other before ih =>
    obtain ⟨first, others⟩ := List.forall_mem_cons.mp wellFormed
    obtain ⟨⟨value, number⟩, fine⟩ := List.forall_mem_cons.mp fine
    rw [List.cons_append, List.flatMap_cons, List.append_assoc, replacePieces_number first number, ih others fine]
    rfl

/-- Either every token stands for a number, or one is the first that does not. -/
theorem filled_or_firstFailing (index : Int) (cuts : List Cut) :
    (∃ replaced, Filled index cuts replaced) ∨ ∃ cut, FirstFailing index cuts cut := by
  induction cuts with
  | nil => exact .inl ⟨[], .nil⟩
  | cons first cuts ih =>
    by_cases number : ∃ value, TokenNumber index first.offset value
    · rcases ih with ⟨replaced, others⟩ | ⟨cut, before, after, rfl, fine, none⟩
      · obtain ⟨value, number⟩ := number
        exact .inl ⟨_, .cons number others⟩
      · exact .inr ⟨cut, first :: before, after, rfl, List.forall_mem_cons.mpr ⟨number, fine⟩, none⟩
    · exact .inr ⟨first, [], cuts, rfl, by simp, number⟩

theorem exists_firstFailing :
    (∃ cut, FirstFailing index cuts cut) ↔ ∃ cut ∈ cuts, ¬ ∃ value, TokenNumber index cut.offset value := by
  constructor
  · rintro ⟨cut, before, after, rfl, _, none⟩
    exact ⟨cut, List.mem_append_right _ List.mem_cons_self, none⟩
  · rintro ⟨cut, member, none⟩
    refine (filled_or_firstFailing index cuts).resolve_left ?_
    rintro ⟨replaced, fills⟩
    exact none (fills.number cut member)

section Outcomes

variable {text : String} (whole : Cuts placeholder.name text.toList cuts tail)
include whole

theorem substitute_of_filled (fills : Filled index cuts replaced) :
    substitute placeholder index text = .ok (String.ofList (replaced ++ tail)) := by
  rw [substitute, pieces_of_cuts whole, replacePieces_of_filled whole.wellFormed fills]
  rfl

theorem substitute_of_firstFailing {failed : Cut} (failing : FirstFailing index cuts failed) :
    substitute placeholder index text =
      .error (.offsetOutOfRange (String.ofList (placeholder.name ++ failed.offset))) := by
  rw [substitute, pieces_of_cuts whole, replacePieces_of_firstFailing whole.wellFormed failing]
  rfl

theorem substitute_eq_error {error : ExpansionError} : substitute placeholder index text = .error error ↔
    ∃ cut, FirstFailing index cuts cut ∧
      error = .offsetOutOfRange (String.ofList (placeholder.name ++ cut.offset)) := by
  constructor
  · intro found
    rcases filled_or_firstFailing index cuts with ⟨replaced, fills⟩ | ⟨failed, failing⟩
    · exact absurd (found.symm.trans (substitute_of_filled whole fills)) nofun
    · exact ⟨failed, failing, Except.error.inj (found.symm.trans (substitute_of_firstFailing whole failing))⟩
  · rintro ⟨failed, failing, rfl⟩
    exact substitute_of_firstFailing whole failing

theorem substitute_eq_filled {result : String} : substitute placeholder index text = .ok result ↔
    ∃ replaced, Filled index cuts replaced ∧ result = String.ofList (replaced ++ tail) := by
  constructor
  · intro found
    rcases filled_or_firstFailing index cuts with ⟨replaced, fills⟩ | ⟨failed, failing⟩
    · exact ⟨replaced, fills, Except.ok.inj (found.symm.trans (substitute_of_filled whole fills))⟩
    · exact absurd (found.symm.trans (substitute_of_firstFailing whole failing)) nofun
  · rintro ⟨replaced, fills, rfl⟩
    exact substitute_of_filled whole fills

end Outcomes

/-- What substitution makes of a text that falls into given cuts and a tail. -/
structure ByCuts (placeholder : Placeholder) (index : Int) (text : String) (cuts : List Cut)
    (tail : List Char) : Prop where
  fails : (∃ error, substitute placeholder index text = .error error) ↔
    ∃ cut ∈ cuts, ¬ ∃ value, TokenNumber index cut.offset value
  quotes : ∀ error, substitute placeholder index text = .error error ↔
    ∃ cut, FirstFailing index cuts cut ∧
      error = .offsetOutOfRange (String.ofList (placeholder.name ++ cut.offset))
  replaces : ∀ result, substitute placeholder index text = .ok result ↔
    ∃ replaced, Filled index cuts replaced ∧ result = String.ofList (replaced ++ tail)
  plain : isPlain placeholder text = true ↔ cuts = []
  without : cuts = [] ↔ ¬ placeholder.name <:+: text.toList

theorem byCuts {text : String} (whole : Cuts placeholder.name text.toList cuts tail) :
    ByCuts placeholder index text cuts tail where
  fails := by
    rw [← exists_firstFailing]
    constructor
    · rintro ⟨error, found⟩
      obtain ⟨failed, failing, _⟩ := (substitute_eq_error whole).mp found
      exact ⟨failed, failing⟩
    · rintro ⟨failed, failing⟩
      exact ⟨_, substitute_of_firstFailing whole failing⟩
  quotes error := substitute_eq_error whole
  replaces result := substitute_eq_filled whole
  plain := by rw [whole.without, isPlain, Bool.not_eq_true', pieces, any_isToken_eq_false]
  without := whole.without

/-- A text has one way to be cut, and substitution replaces its tokens by their numbers and keeps the rest. -/
theorem substitute_by_cuts (placeholder : Placeholder) (index : Int) (text : String) :
    (∃! cut : List Cut × List Char, Cuts placeholder.name text.toList cut.1 cut.2) ∧
      ∀ cuts tail, Cuts placeholder.name text.toList cuts tail → ByCuts placeholder index text cuts tail := by
  obtain ⟨cuts, tail, cut⟩ := exists_cuts placeholder.nonempty text.toList
  refine ⟨⟨(cuts, tail), cut, fun other cut' => ?_⟩, fun cuts tail cut => byCuts cut⟩
  obtain ⟨same, same'⟩ := cut'.unique cut
  exact Prod.ext same same'

/-- A name that overlaps itself: of three letters the first two are the token. Digits of another script
belong to an offset, which then is no number. -/
theorem substitute_by_cuts_overlapping :
    Cuts ['a', 'a'] "xaaa+2aa+-٣-aa+".toList [⟨['x'], []⟩, ⟨['a', '+', '2'], ['+', '-', '٣']⟩, ⟨['-'], []⟩] ['+'] ∧
      substitute ⟨['a', 'a'], nofun⟩ 4 "xaaa+2aa+-٣-aa+" = .error (.offsetOutOfRange "aa+-٣") := by
  have third : Cuts ['a', 'a'] (['-'] ++ (['a', 'a'] ++ ([] ++ ['+']))) [⟨['-'], []⟩] ['+'] :=
    .token (by decide) (by decide) (.last (by decide))
  have second : Cuts ['a', 'a'] (['a', '+', '2'] ++ (['a', 'a'] ++ (['+', '-', '٣'] ++ "-aa+".toList)))
      [⟨['a', '+', '2'], ['+', '-', '٣']⟩, ⟨['-'], []⟩] ['+'] :=
    .token (by decide) (by decide) third
  have cut : Cuts ['a', 'a'] (['x'] ++ (['a', 'a'] ++ ([] ++ "a+2aa+-٣-aa+".toList)))
      [⟨['x'], []⟩, ⟨['a', '+', '2'], ['+', '-', '٣']⟩, ⟨['-'], []⟩] ['+'] :=
    .token (by decide) (by decide) second
  have failing : FirstFailing 4 [⟨['x'], []⟩, ⟨['a', '+', '2'], ['+', '-', '٣']⟩, ⟨['-'], []⟩]
      ⟨['a', '+', '2'], ['+', '-', '٣']⟩ := by
    refine ⟨[⟨['x'], []⟩], [⟨['-'], []⟩], rfl, by simpa using ⟨4, .alone⟩, ?_⟩
    rintro ⟨value, number⟩
    cases number with
    | up _ ascii => exact absurd (ascii '-' List.mem_cons_self) (by decide)
    | down _ ascii => exact absurd (ascii '٣' List.mem_cons_self) (by decide)
  have result := (substitute_by_cuts ⟨['a', 'a'], nofun⟩ 4 "xaaa+2aa+-٣-aa+").2 _ _ cut
  exact ⟨cut, (result.quotes _).mpr ⟨_, failing, rfl⟩⟩

end Replacing

end Pagewright.Expansion
