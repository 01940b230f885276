import Pagewright.Proofs.Decimal.Rounding
import Pagewright.Proofs.Json.Printed

/-! The texts of numbers. A literal has one text but for the letter of its exponent and a plus sign there,
and the text is read as that literal. Of the digits the reader takes a value as long as they fit 64 bits. -/

namespace Pagewright.Json

open Text (Stops stops_cons takeWhile_span isAsciiDigit readDigits)
open Expansion (exponentSign exponentSign_of_ne scanExponent_eq scanFraction_of_ne tokensAfter_cons)

namespace Literal

/-- The digits that a literal may consist of. -/
structure Proper (literal : Literal) : Prop where
  whole : ∀ c ∈ literal.whole, isAsciiDigit c = true
  present : literal.whole ≠ []
  leading : ∀ tail, literal.whole = '0' :: tail → tail = []
  fraction : ∀ c ∈ literal.fraction, isAsciiDigit c = true
  exponent : ∀ negative digits, literal.exponent = some (negative, digits) →
    digits ≠ [] ∧ ∀ c ∈ digits, isAsciiDigit c = true

def sign (negative : Bool) : List Char := if negative then ['-'] else []

def point (fraction : List Char) : List Char := if fraction = [] then [] else '.' :: fraction

/-- All but the exponent. -/
def mantissa (literal : Literal) : List Char :=
  sign literal.negative ++ (literal.whole ++ point literal.fraction)

/-- The exponent with a small letter, and with a sign. -/
def exponentText : Option (Bool × List Char) → List Char
  | none => []
  | some (negative, digits) => 'e' :: (if negative then '-' else '+') :: digits

def text (literal : Literal) : List Char := literal.mantissa ++ exponentText literal.exponent

/-- All digits in a row. -/
def digits (literal : Literal) : Nat := readDigits (literal.whole ++ literal.fraction)

/-- Where the last digit stands. -/
def place (literal : Literal) : Int := literal.exponentValue - literal.fraction.length

end Literal

/-- The texts of an exponent. -/
inductive SpellsExponent : Option (Bool × List Char) → List Char → Prop where
  | absent : SpellsExponent none []
  | plain {e : Char} {digits : List Char} (letter : e = 'e' ∨ e = 'E') :
      SpellsExponent (some (false, digits)) (e :: digits)
  | plus {e : Char} {digits : List Char} (letter : e = 'e' ∨ e = 'E') :
      SpellsExponent (some (false, digits)) (e :: '+' :: digits)
  | minus {e : Char} {digits : List Char} (letter : e = 'e' ∨ e = 'E') :
      SpellsExponent (some (true, digits)) (e :: '-' :: digits)

structure Spells (literal : Literal) (text : List Char) : Prop where
  proper : literal.Proper
  split : ∃ exponent, SpellsExponent literal.exponent exponent ∧ text = literal.mantissa ++ exponent

theorem Literal.Proper.spells {literal : Literal} (proper : literal.Proper) : Spells literal literal.text := by
  refine ⟨proper, Literal.exponentText literal.exponent, ?_, rfl⟩
  rcases literal.exponent with _ | ⟨_ | _, digits⟩
  · exact .absent
  · exact .plus (.inl rfl)
  · exact .minus (.inl rfl)

section Reading

variable {literal other : Literal} {exponent : Option (Bool × List Char)} {text rest whole fraction : List Char}
  {used : Nat} {negative : Bool}

theorem exponentSign_plus (rest : List Char) : exponentSign ('+' :: rest) = (false, rest, 2) := rfl

theorem exponentSign_minus (rest : List Char) : exponentSign ('-' :: rest) = (true, rest, 2) := rfl

theorem scanExponent_digits {e : Char} {digits rest back : List Char} {length : Nat} (letter : e = 'e' ∨ e = 'E')
    (signed : exponentSign back = (negative, digits ++ rest, length)) (present : digits ≠ [])
    (ascii : ∀ c ∈ digits, isAsciiDigit c = true) (stops : Stops continuesNumber rest) :
    scanExponent literal used (e :: back) =
      (.number { literal with exponent := some (negative, digits) }, used + length + digits.length) := by
  rw [scanExponent_eq letter, signed]
  dsimp only
  rw [takeWhile_span ascii (stops_digit stops), if_neg (by simpa using present)]

theorem scanExponent_spelled (spelled : SpellsExponent exponent text) (none : literal.exponent = none)
    (digits : ∀ negative digits, exponent = some (negative, digits) →
      digits ≠ [] ∧ ∀ c ∈ digits, isAsciiDigit c = true) (stops : Stops continuesNumber rest) :
    scanExponent literal used (text ++ rest) = (.number { literal with exponent }, used + text.length) := by
  cases spelled with
  | absent =>
    rw [← none]
    exact scanExponent_stops stops literal used
  | @plain e shown letter =>
    obtain ⟨present, ascii⟩ := digits _ _ rfl
    obtain ⟨d, tail, rfl⟩ := List.exists_cons_of_ne_nil present
    have digit := ascii d List.mem_cons_self
    have minus : d ≠ '-' := by rintro rfl; cases digit
    have plus : d ≠ '+' := by rintro rfl; cases digit
    have signed := exponentSign_of_ne minus plus (tail ++ rest)
    refine (scanExponent_digits letter signed present ascii stops).trans ?_
    simp only [List.length_cons, Nat.add_assoc, Nat.add_comm 1]
  | @plus e shown letter =>
    obtain ⟨present, ascii⟩ := digits _ _ rfl
    refine (scanExponent_digits letter (exponentSign_plus _) present ascii stops).trans ?_
    simp only [List.length_cons, Nat.add_assoc, Nat.add_comm 2]
  | @minus e shown letter =>
    obtain ⟨present, ascii⟩ := digits _ _ rfl
    refine (scanExponent_digits letter (exponentSign_minus _) present ascii stops).trans ?_
    simp only [List.length_cons, Nat.add_assoc, Nat.add_comm 2]

/-- What can stand behind the digits of a number. -/
theorem SpellsExponent.stops (spelled : SpellsExponent exponent text) (stops : Stops continuesNumber rest) :
    Stops isAsciiDigit (text ++ rest) ∧ ∀ tail, text ++ rest ≠ '.' :: tail := by
  have letters {e : Char} (letter : e = 'e' ∨ e = 'E') : isAsciiDigit e = false ∧ e ≠ '.' := by
    rcases letter with rfl | rfl <;> decide
  cases spelled with
  | absent =>
    refine ⟨stops_digit stops, ?_⟩
    rintro tail rfl
    exact absurd (stops _ _ rfl) (by decide)
  | plain letter | plus letter | minus letter =>
    exact ⟨stops_cons (letters letter).1, fun tail same => (letters letter).2 (List.cons.inj same).1⟩

theorem scanFraction_spelled (spelled : SpellsExponent exponent text)
    (ascii : ∀ c ∈ fraction, isAsciiDigit c = true)
    (digits : ∀ negative digits, exponent = some (negative, digits) →
      digits ≠ [] ∧ ∀ c ∈ digits, isAsciiDigit c = true) (stops : Stops continuesNumber rest) :
    scanFraction ⟨negative, whole, [], none⟩ used (Literal.point fraction ++ (text ++ rest)) =
      (.number ⟨negative, whole, fraction, exponent⟩, used + (Literal.point fraction ++ text).length) := by
  obtain ⟨behind, noPoint⟩ := spelled.stops stops
  rw [Literal.point]
  split
  next empty =>
    subst empty
    rw [List.nil_append, List.nil_append]
    have skipped : scanFraction ⟨negative, whole, [], none⟩ used (text ++ rest) =
        scanExponent ⟨negative, whole, [], none⟩ used (text ++ rest) := by
      cases same : text ++ rest with
      | nil => rfl
      | cons c tail => exact scanFraction_of_ne (fun dot => noPoint tail (by rw [same, dot])) tail
    rw [skipped, scanExponent_spelled spelled rfl digits stops]
  next present =>
    rw [List.cons_append, scanFraction]
    rw [takeWhile_span ascii behind, Text.dropWhile_span ascii behind]
    dsimp only
    rw [if_neg (by simpa using present), scanExponent_spelled spelled rfl digits stops]
    simp only [List.cons_append, List.length_cons, List.length_append, Prod.mk.injEq, true_and]
    omega

/-- The text of a number is one token, which is its literal. -/
theorem tokens_spelled (spelled : Spells literal text) (stops : Stops continuesNumber rest) :
    tokensAfter 0 (text ++ rest) = .number literal :: tokensAfter 0 rest := by
  obtain ⟨negative, whole, fraction, exponent⟩ := literal
  obtain ⟨⟨digits, present, leading, behind, powers⟩, back, spelled, rfl⟩ := spelled
  dsimp only at *
  have stop : Stops isAsciiDigit (Literal.point fraction ++ (back ++ rest)) := by
    rw [Literal.point]
    split
    next => exact (spelled.stops stops).1
    next => exact stops_cons (by decide)
  have scanned := (scanNumber_whole digits present leading stop negative).trans
    (scanFraction_spelled spelled behind powers stops)
  rw [← List.length_append] at scanned
  have length : (whole ++ (Literal.point fraction ++ (back ++ rest))).drop
      (whole ++ (Literal.point fraction ++ back)).length = rest := by
    simp only [← List.append_assoc, List.drop_left]
  rw [Literal.mantissa, List.append_assoc, List.append_assoc, List.append_assoc]
  dsimp only
  cases negative with
  | true =>
    change tokensAfter 0 ('-' :: (whole ++ (Literal.point fraction ++ (back ++ rest)))) = _
    have token : scanToken '-' (whole ++ (Literal.point fraction ++ (back ++ rest))) = _ := scanned
    rw [tokensAfter_cons rfl token rfl, length]
  | false =>
    change tokensAfter 0 (whole ++ (Literal.point fraction ++ (back ++ rest))) = _
    obtain ⟨d, tail, rfl⟩ := List.exists_cons_of_ne_nil present
    have digit := digits d List.mem_cons_self
    have token := scanToken_digit digit (tail ++ (Literal.point fraction ++ (back ++ rest)))
    rw [← List.cons_append, scanned] at token
    rw [List.cons_append, tokensAfter_cons (isSpace_digit digit) token rfl]
    refine congrArg (fun more => Token.number _ :: tokensAfter 0 more) ?_
    exact length

theorem Spells.unique (first : Spells literal text) (second : Spells other text) : literal = other := by
  have none : Stops continuesNumber [] := fun _ _ same => nomatch same
  have tokens := (tokens_spelled first none).symm.trans (tokens_spelled second none)
  exact Token.number.inj (List.cons.inj tokens).1

theorem document_spelled (spelled : Spells literal text) :
    Document.ofText (String.ofList text) = ⟨.number literal, false⟩ := by
  have none : Stops continuesNumber [] := fun _ _ same => nomatch same
  have cut := tokens_spelled spelled none
  rw [List.append_nil] at cut
  rw [Document.ofText, String.toList_ofList, tokens, cut]
  rfl

end Reading

section Values

variable {literal : Literal} {number : Number}

/-- What is taken of the digits fits 64 bits, and is their number when all of them are taken. -/
theorem appendDigits_spec {value used : Nat} {digits : List Char} (small : value < 0x10000000000000000) :
    (appendDigits value used digits).1 < 0x10000000000000000 ∧
      (appendDigits value used digits).2 ≤ used + digits.length ∧
      ((appendDigits value used digits).2 = used + digits.length → (appendDigits value used digits).1 =
        digits.foldl (fun value c => 10 * value + Text.digitValue c) value) := by
  induction digits generalizing value used with
  | nil => exact ⟨small, Nat.le_refl _, fun _ => rfl⟩
  | cons d rest ih =>
    simp only [appendDigits, List.length_cons, List.foldl_cons]
    split
    next fits =>
      have step : used + 1 + rest.length = used + (rest.length + 1) := by omega
      rw [← step]
      exact ih fits
    next => exact ⟨small, Nat.le_add_right _ _, fun same => absurd same (by dsimp only; omega)⟩

/-- A number is an integer of 64 bits that has no sign at its zero, or it is binary. -/
theorem value_cases (found : literal.value = some number) :
    (∃ x, number = .real x ∧ x.Normal ∧ x.negative = literal.negative) ∨
      literal.IsWhole ∧ ¬ (literal.negative = true ∧ readDigits literal.whole = 0) ∧
        number = .integer (if literal.negative then -readDigits literal.whole else readDigits literal.whole) := by
  obtain ⟨negative, whole, fraction, exponent⟩ := literal
  obtain ⟨bound, used, all⟩ := @appendDigits_spec 0 0 whole (by decide)
  rw [Literal.value] at found
  generalize appendDigits 0 0 whole = taken at found bound used all
  obtain ⟨value, count⟩ := taken
  dsimp only at found bound used all
  have binary {digits : Nat} {place : Int}
      (read : (Decimal.Binary64.ofDecimal negative digits place).map Number.real = some number) :
      ∃ x, number = .real x ∧ x.Normal ∧ x.negative = negative := by
    obtain ⟨x, rounded, rfl⟩ := Option.map_eq_some_iff.mp read
    obtain ⟨normal, sign⟩ := Decimal.Binary64.ofDecimal_normal rounded
    exact ⟨x, rfl, normal, sign⟩
  split at found
  next plain =>
    simp only [Bool.and_eq_true, List.isEmpty_iff, Option.isNone_iff_eq_none, beq_iff_eq] at plain
    obtain ⟨⟨rfl, rfl⟩, dropped⟩ := plain
    have same : value = readDigits whole := all (by omega)
    rw [← same]
    cases negative with
    | false =>
      cases found
      refine .inr ⟨⟨rfl, rfl, ?_⟩, by simp, rfl⟩
      simpa [← same] using bound
    | true =>
      simp only [Bool.not_true, Bool.false_eq_true, if_false] at found
      split at found
      next => exact .inl (binary found)
      next inside =>
        cases found
        rw [not_or] at inside
        refine .inr ⟨⟨rfl, rfl, ?_⟩, fun zero => inside.1 zero.2, rfl⟩
        simpa [← same] using inside.2
  next => exact .inl (binary found)

/-- With a fraction or an exponent a number is binary. -/
theorem value_of_fraction (parts : ¬ (literal.fraction = [] ∧ literal.exponent = none))
    (fits : literal.digits < 0x10000000000000000) :
    literal.value = (Decimal.Binary64.ofDecimal literal.negative literal.digits literal.place).map .real := by
  obtain ⟨negative, whole, fraction, exponent⟩ := literal
  have split : Literal.digits ⟨negative, whole, fraction, exponent⟩ =
      fraction.foldl (fun value c => 10 * value + Text.digitValue c) (readDigits whole) := List.foldl_append
  have front : readDigits whole < 0x10000000000000000 := by
    refine Nat.lt_of_le_of_lt ?_ fits
    rw [split]
    exact foldl_digits_ge _ fraction
  have first : appendDigits 0 0 whole = (readDigits whole, whole.length) := by
    rw [appendDigits_eq front, Nat.zero_add]
    rfl
  have second : appendDigits (readDigits whole) 0 fraction =
      (Literal.digits ⟨negative, whole, fraction, exponent⟩, fraction.length) := by
    rw [split] at fits ⊢
    rw [appendDigits_eq fits, Nat.zero_add]
  have binary : (fraction.isEmpty && exponent.isNone && whole.length - whole.length == 0) = false := by
    rw [Bool.eq_false_iff]
    intro plain
    simp only [Bool.and_eq_true, List.isEmpty_iff, Option.isNone_iff_eq_none] at plain
    exact parts plain.1
  rw [Literal.value]
  dsimp only
  rw [first, second]
  dsimp only
  rw [binary, if_neg Bool.false_ne_true, Literal.place]
  dsimp only
  congr 2
  omega

end Values

end Pagewright.Json
