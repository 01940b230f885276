import Pagewright.Proofs.Outcome
import Pagewright.Proofs.Text.Digits

/-! What replacing tokens does to a text. Every token leaves at least one digit behind, so a text
without digits can only have come from itself. No token reaches over a character that no token
holds, so the parts around such a character are replaced on their own. -/

namespace Pagewright.Expansion

open Text

variable {placeholder : Placeholder} {index : Int}

/-- A written number holds a digit. -/
theorem exists_digit_writeInteger (n : Int) : ∃ c ∈ writeInteger n, isAsciiDigit c = true := by
  obtain ⟨c, member⟩ := List.exists_mem_of_ne_nil _ (writeNatural_ne_nil n.natAbs)
  refine ⟨c, ?_, isAsciiDigit_of_mem_writeNatural member⟩
  unfold writeInteger
  split
  · exact List.mem_cons_of_mem _ member
  · exact member

theorem mem_writeInteger {n : Int} {c : Char} (member : c ∈ writeInteger n) :
    isAsciiDigit c = true ∨ c = '-' := by
  unfold writeInteger at member
  split at member
  · rcases List.mem_cons.mp member with sign | digit
    · exact .inr sign
    · exact .inl (isAsciiDigit_of_mem_writeNatural digit)
  · exact .inl (isAsciiDigit_of_mem_writeNatural member)

theorem replacePieces_cons_eq_ok {piece : Piece} {rest : List Piece} {replaced : List Char} :
    replacePieces placeholder index (piece :: rest) = .ok replaced ↔
      ∃ front back, piece.replace placeholder index = .ok front ∧
        replacePieces placeholder index rest = .ok back ∧ replaced = front ++ back := by
  simp only [replacePieces, bind_eq_ok, pure, Except.pure, Except.ok.injEq]
  constructor
  · intro given
    obtain ⟨front, found, back, others, rfl⟩ := given
    exact ⟨front, back, found, others, rfl⟩
  · intro given
    obtain ⟨front, back, found, others, rfl⟩ := given
    exact ⟨front, found, back, others, rfl⟩

theorem replacePieces_plain (text : List Char) :
    replacePieces placeholder index (text.map .plain) = .ok text := by
  induction text with
  | nil => rfl
  | cons c rest ih =>
    exact replacePieces_cons_eq_ok.mpr ⟨[c], rest, rfl, ih, rfl⟩

theorem exists_digit_replaceToken {offset : Option (List Char)} {replaced : List Char}
    (found : (Piece.token offset).replace placeholder index = .ok replaced) :
    ∃ c ∈ replaced, isAsciiDigit c = true := by
  simp only [Piece.replace] at found
  split at found
  · cases found
    exact exists_digit_writeInteger _
  · cases found

/-- Only the tokens of a text bring digits into it. -/
theorem not_isToken_of_no_digit {parts : List Piece} {replaced : List Char}
    (found : replacePieces placeholder index parts = .ok replaced)
    (clean : replaced.any isAsciiDigit = false) : parts.any Piece.isToken = false := by
  induction parts generalizing replaced with
  | nil => rfl
  | cons piece rest ih =>
    obtain ⟨front, back, first, others, rfl⟩ := replacePieces_cons_eq_ok.mp found
    rw [List.any_append, Bool.or_eq_false_iff] at clean
    have later := ih others clean.2
    cases piece with
    | plain c => simpa [Piece.isToken] using later
    | token offset =>
      obtain ⟨c, member, digit⟩ := exists_digit_replaceToken first
      exact absurd digit (List.any_eq_false.mp clean.1 c member)

theorem piecesAfter_eq_plain {text : List Char}
    (plain : (piecesAfter placeholder 0 text).any Piece.isToken = false) :
    piecesAfter placeholder 0 text = text.map .plain := by
  induction text with
  | nil => rfl
  | cons c rest ih =>
    rw [piecesAfter] at plain ⊢
    split
    next starts => simp [starts, Piece.isToken] at plain
    next other =>
      rw [if_neg other] at plain
      simp only [List.any_cons, Piece.isToken, Bool.false_or] at plain
      rw [ih plain, List.map_cons]

theorem substitute_eq_ok {text result : String} :
    substitute placeholder index text = .ok result ↔
      replacePieces placeholder index (pieces placeholder text.toList) = .ok result.toList := by
  simp only [substitute, map_eq_ok]
  constructor
  · intro given
    obtain ⟨replaced, found, rfl⟩ := given
    simpa using found
  · intro found
    exact ⟨result.toList, found, by simp⟩

/-- A substituted text without a digit is the text itself. -/
theorem eq_of_substitute_of_no_digit {text result : String}
    (found : substitute placeholder index text = .ok result)
    (clean : result.toList.any isAsciiDigit = false) : text = result := by
  have replaced := substitute_eq_ok.mp found
  have plain := piecesAfter_eq_plain (not_isToken_of_no_digit replaced clean)
  rw [pieces, plain, replacePieces_plain, Except.ok.injEq] at replaced
  exact String.toList_inj.mp replaced

theorem replacePieces_append_eq_ok {front back : List Piece} {replaced : List Char} :
    replacePieces placeholder index (front ++ back) = .ok replaced ↔
      ∃ first last, replacePieces placeholder index front = .ok first ∧
        replacePieces placeholder index back = .ok last ∧ replaced = first ++ last := by
  induction front generalizing replaced with
  | nil => simp [replacePieces]
  | cons piece front ih =>
    simp only [List.cons_append, replacePieces_cons_eq_ok, ih]
    constructor
    · intro given
      obtain ⟨head, tail, found, ⟨first, last, others, remaining, rfl⟩, rfl⟩ := given
      exact ⟨head ++ first, last, ⟨head, first, found, others, rfl⟩, remaining, by simp⟩
    · intro given
      obtain ⟨first, last, ⟨head, tail, found, others, rfl⟩, remaining, rfl⟩ := given
      exact ⟨head, tail ++ last, found, ⟨tail, last, others, remaining, rfl⟩, by simp⟩

/-- A character that stands in no token. -/
structure Separates (placeholder : Placeholder) (c : Char) : Prop where
  outside : c ∉ placeholder.name
  digit : isDigit c = false
  plus : c ≠ '+'
  minus : c ≠ '-'

theorem isPrefixOf_separated {c : Char} {name : List Char} (outside : c ∉ name)
    (text more : List Char) : name.isPrefixOf (text ++ c :: more) = name.isPrefixOf text := by
  induction name generalizing text with
  | nil => simp
  | cons first name ih =>
    have other : first ≠ c := fun same => outside (same ▸ List.mem_cons_self)
    cases text with
    | nil => simp [List.isPrefixOf, other]
    | cons head text =>
      simp only [List.cons_append, List.isPrefixOf, ih (fun member => outside (by simp [member]))]

theorem takeWhile_separated {c : Char} (digit : isDigit c = false) (text more : List Char) :
    (text ++ c :: more).takeWhile isDigit = text.takeWhile isDigit := by
  induction text with
  | nil => simp [digit]
  | cons head text ih => simp only [List.cons_append, List.takeWhile_cons, ih]

theorem readOffset_separated {c : Char} (separates : Separates placeholder c)
    (text more : List Char) : readOffset (text ++ c :: more) = readOffset text := by
  have refused : readOffset ('+' :: c :: more) = none := by
    simp [readOffset, separates.minus, separates.digit]
  match text with
  | [] => simp [readOffset, separates.plus]
  | ['+'] => rw [List.singleton_append, refused]; rfl
  | '+' :: '-' :: rest => simp only [List.cons_append, readOffset, takeWhile_separated separates.digit]
  | [x] => by_cases plus : x = '+' <;> simp_all [readOffset]
  | x :: y :: rest =>
    have same := takeWhile_separated separates.digit (y :: rest) more
    by_cases plus : x = '+'
    · by_cases minus : y = '-' <;> simp_all [readOffset, takeWhile_separated separates.digit]
    · simp [readOffset, plus]

theorem offsetLength_le (text : List Char) : offsetLength (readOffset text) ≤ text.length := by
  unfold readOffset
  split
  next rest =>
    have bound := (List.takeWhile_prefix isDigit (l := rest)).length_le
    split <;> simp_all [offsetLength]
  next rest _ =>
    have bound := (List.takeWhile_prefix isDigit (l := rest)).length_le
    split <;> simp_all [offsetLength]
  next => exact Nat.zero_le _

theorem piecesAfter_separated {c : Char} (separates : Separates placeholder c) {used : Nat}
    {text : List Char} (enough : used ≤ text.length) (more : List Char) :
    piecesAfter placeholder used (text ++ c :: more) =
      piecesAfter placeholder used text ++ .plain c :: piecesAfter placeholder 0 more := by
  induction text generalizing used with
  | nil =>
    obtain rfl : used = 0 := by simpa using enough
    have starts : placeholder.name.isPrefixOf (c :: more) = false := by
      obtain ⟨head, tail, name⟩ := List.exists_cons_of_ne_nil placeholder.nonempty
      have other : head ≠ c := fun same => separates.outside (by simp [name, same])
      simp [name, List.isPrefixOf, other]
    simp [piecesAfter, starts]
  | cons x rest ih =>
    cases used with
    | succ used => exact ih (by simpa using enough)
    | zero =>
      have starts := isPrefixOf_separated separates.outside (x :: rest) more
      rw [List.cons_append] at starts ⊢
      rw [piecesAfter, piecesAfter, starts]
      split
      next found =>
        have fits := (List.isPrefixOf_iff_prefix.mp found).length_le
        have behind : (x :: (rest ++ c :: more)).drop placeholder.name.length =
            (x :: rest).drop placeholder.name.length ++ c :: more := by
          rw [← List.cons_append, List.drop_append_of_le_length fits]
        have short := offsetLength_le ((x :: rest).drop placeholder.name.length)
        rw [List.length_drop, List.length_cons] at short
        rw [List.length_cons] at fits
        simp only [behind, readOffset_separated separates, List.cons_append]
        rw [ih (by omega)]
      next =>
        rw [ih (Nat.zero_le _), List.cons_append]

end Pagewright.Expansion
