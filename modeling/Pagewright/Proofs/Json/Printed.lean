import Pagewright.Json.Printer
import Pagewright.Proofs.Expansion.Scan
import Pagewright.Proofs.Text.Span

/-! The text of a printed value, read again. Every part of it is cut into the tokens it was written
from, whatever stands behind it, and the tokens are put together to the value. This holds where
all numbers are written with all their digits, and wherever the value came from a text itself. -/

namespace Pagewright.Json

open Text (Stops stops_cons takeWhile_span dropWhile_span isAsciiDigit_of_mem_writeNatural
  writeNatural_ne_nil writeNatural_zero_cons readDigits_writeNatural)
open Expansion (scanFraction_of_ne scanExponent_of_ne scanString_cons scanWord_append tokensAfter_cons)

section Numbers

/-- A literal of an integer that fits 64 bits. -/
structure Literal.IsWhole (literal : Literal) : Prop where
  fraction : literal.fraction = []
  exponent : literal.exponent = none
  fits : if literal.negative then Text.readDigits literal.whole ≤ 0x8000000000000000
    else Text.readDigits literal.whole < 0x10000000000000000

instance (literal : Literal) : Decidable literal.IsWhole :=
  decidable_of_iff
    (literal.fraction = [] ∧ literal.exponent = none ∧
      if literal.negative then Text.readDigits literal.whole ≤ 0x8000000000000000
      else Text.readDigits literal.whole < 0x10000000000000000)
    ⟨fun given => ⟨given.1, given.2.1, given.2.2⟩, fun whole => ⟨whole.fraction, whole.exponent, whole.fits⟩⟩

/-- The numbers that such literals stand for. The zero with a sign is no integer to the reader. -/
inductive Number.IsWhole : Number → Prop where
  | integer {n : Int} (least : -0x8000000000000000 ≤ n) (greatest : n < 0x10000000000000000) :
      IsWhole (.integer n)
  | zero : IsWhole (.real (.zero true))

theorem foldl_digits_ge (value : Nat) (digits : List Char) :
    value ≤ digits.foldl (fun value c => 10 * value + Text.digitValue c) value := by
  induction digits generalizing value with
  | nil => exact Nat.le_refl _
  | cons d rest ih =>
    have step := ih (10 * value + Text.digitValue d)
    rw [List.foldl_cons]
    omega

/-- Digits of a number that fits are all used. -/
theorem appendDigits_eq {value used : Nat} {digits : List Char}
    (fits : digits.foldl (fun value c => 10 * value + Text.digitValue c) value < 0x10000000000000000) :
    appendDigits value used digits =
      (digits.foldl (fun value c => 10 * value + Text.digitValue c) value, used + digits.length) := by
  induction digits generalizing value used with
  | nil => rfl
  | cons d rest ih =>
    rw [List.foldl_cons] at fits ⊢
    have here : 10 * value + Text.digitValue d < 0x10000000000000000 :=
      Nat.lt_of_le_of_lt (foldl_digits_ge _ rest) fits
    simp only [appendDigits, if_pos here, ih fits, List.length_cons, Prod.mk.injEq, true_and]
    omega

theorem ofDecimal_zero (negative : Bool) (exponent : Int) :
    Decimal.Binary64.ofDecimal negative 0 exponent = some (.zero negative) := rfl

theorem value_eq_of_isWhole {literal : Literal} (whole : literal.IsWhole) :
    literal.value = some (
      if !literal.negative then .integer (Text.readDigits literal.whole)
      else if Text.readDigits literal.whole = 0 then .real (.zero true)
      else .integer (-(Text.readDigits literal.whole : Int))) := by
  obtain ⟨negative, digits, fraction, exponent⟩ := literal
  obtain ⟨rfl, rfl, fits⟩ := whole
  have small : Text.readDigits digits < 0x10000000000000000 := by
    cases negative <;> simp only [if_true, Bool.false_eq_true, if_false] at fits <;> omega
  have used : appendDigits 0 0 digits = (Text.readDigits digits, digits.length) := by
    rw [appendDigits_eq small, Nat.zero_add]
    rfl
  cases negative with
  | false => simp [Literal.value, used]
  | true =>
    simp only [if_true] at fits
    by_cases zero : Text.readDigits digits = 0
    · simp [Literal.value, used, zero, ofDecimal_zero]
    · have least : ¬ 0x8000000000000000 < Text.readDigits digits := by omega
      simp [Literal.value, used, zero, least]

theorem isWhole_of_value {literal : Literal} {number : Number} (whole : literal.IsWhole)
    (found : literal.value = some number) : number.IsWhole := by
  rw [value_eq_of_isWhole whole] at found
  obtain ⟨_, _, fits⟩ := whole
  cases found
  cases negative : literal.negative with
  | false =>
    simp only [negative, Bool.false_eq_true, if_false] at fits
    exact .integer (by omega) (by omega)
  | true =>
    simp only [negative, if_true] at fits
    simp only [Bool.not_true, Bool.false_eq_true, if_false]
    split
    · exact .zero
    · exact .integer (by omega) (by omega)

/-- The literal that a number is written as. -/
def Number.literal : Number → Literal
  | .integer n => ⟨decide (n < 0), Text.writeNatural n.natAbs, [], none⟩
  | .real x => ⟨x.negative, ['0'], ['0'], none⟩

theorem value_literal {number : Number} (whole : number.IsWhole) : number.literal.value = some number := by
  cases whole with
  | zero => rfl
  | @integer n least greatest =>
    have digits := readDigits_writeNatural n.natAbs
    have written : (Number.literal (.integer n)).IsWhole := by
      refine ⟨rfl, rfl, ?_⟩
      simp only [Number.literal, digits, decide_eq_true_eq]
      split <;> omega
    rw [value_eq_of_isWhole written]
    simp only [Number.literal, digits]
    by_cases negative : n < 0
    · have inside : n.natAbs ≠ 0 := by omega
      simp only [negative, decide_true, Bool.not_true, Bool.false_eq_true, if_false, if_neg inside,
        Option.some.injEq, Number.integer.injEq]
      omega
    · simp only [negative, decide_false, Bool.not_false, if_true, Option.some.injEq, Number.integer.injEq]
      omega

/-- The characters with which a number could go on. -/
def continuesNumber (c : Char) : Bool := Text.isAsciiDigit c || c == '.' || c == 'e' || c == 'E'

theorem stops_digit {text : List Char} (stops : Stops continuesNumber text) : Stops Text.isAsciiDigit text := by
  intro c rest same
  have other := stops c rest same
  simp only [continuesNumber, Bool.or_eq_false_iff] at other
  exact other.1.1.1

theorem scanExponent_stops {text : List Char} (stops : Stops continuesNumber text) (literal : Literal)
    (used : Nat) : scanExponent literal used text = (.number literal, used) := by
  cases text with
  | nil => rfl
  | cons c rest =>
    have other := stops c rest rfl
    simp only [continuesNumber, Bool.or_eq_false_iff, beq_eq_false_iff_ne] at other
    exact scanExponent_of_ne ⟨other.1.2, other.2⟩ rest

theorem scanFraction_stops {text : List Char} (stops : Stops continuesNumber text) (literal : Literal)
    (used : Nat) : scanFraction literal used text = (.number literal, used) := by
  cases text with
  | nil => rfl
  | cons c rest =>
    have other := stops c rest rfl
    simp only [continuesNumber, Bool.or_eq_false_iff, beq_eq_false_iff_ne] at other
    rw [scanFraction_of_ne other.1.1.2]
    exact scanExponent_stops stops literal used

/-- Digits are the integer part of a number, unless a zero stands in front of others. -/
theorem scanNumber_whole {digits rest : List Char} (all : ∀ c ∈ digits, Text.isAsciiDigit c = true)
    (present : digits ≠ []) (leading : ∀ tail, digits = '0' :: tail → tail = [])
    (stops : Stops Text.isAsciiDigit rest) (negative : Bool) :
    scanNumber negative (digits ++ rest) = scanFraction ⟨negative, digits, [], none⟩ digits.length rest := by
  unfold scanNumber
  rw [takeWhile_span all stops, dropWhile_span all stops]
  dsimp only
  split
  next => exact absurd rfl present
  next d tail => cases leading _ rfl
  next => rfl

theorem scanNumber_digits {digits : List Char} (rest : List Char) (all : ∀ c ∈ digits, Text.isAsciiDigit c = true)
    (present : digits ≠ []) (leading : ∀ tail, digits = '0' :: tail → tail = [])
    (stops : Stops continuesNumber rest) (negative : Bool) :
    scanNumber negative (digits ++ rest) = (.number ⟨negative, digits, [], none⟩, digits.length) := by
  rw [scanNumber_whole all present leading (stops_digit stops), scanFraction_stops stops]

theorem scanToken_digit {c : Char} (digit : Text.isAsciiDigit c = true) (rest : List Char) :
    scanToken c rest = ((scanNumber false (c :: rest)).1, (scanNumber false (c :: rest)).2 - 1) := by
  unfold scanToken
  split
  all_goals first
    | exact absurd digit (by decide)
    | rw [if_pos digit]

theorem isSpace_digit {c : Char} (digit : Text.isAsciiDigit c = true) : isSpace c = false := by
  rw [Bool.eq_false_iff]
  intro space
  simp only [isSpace, Bool.or_eq_true, decide_eq_true_eq] at space
  rcases space with ((rfl | rfl) | rfl) | rfl <;> exact absurd digit (by decide)

theorem tokens_number {number : Number} (whole : number.IsWhole) {rest : List Char}
    (stops : Stops continuesNumber rest) :
    tokensAfter 0 (number.write ++ rest) = .number number.literal :: tokensAfter 0 rest := by
  cases whole with
  | zero =>
    have zero : ∀ c ∈ ['0'], Text.isAsciiDigit c = true := List.forall_mem_singleton.mpr rfl
    have digits : ('0' :: rest).takeWhile Text.isAsciiDigit = ['0'] := takeWhile_span zero (stops_digit stops)
    have behind : ('0' :: rest).dropWhile Text.isAsciiDigit = rest := dropWhile_span zero (stops_digit stops)
    have token : scanToken '-' ('0' :: '.' :: '0' :: rest) = (.number ⟨true, ['0'], ['0'], none⟩, 3) := by
      change scanFraction ⟨true, ['0'], [], none⟩ 1 ('.' :: '0' :: rest) = _
      rw [scanFraction, digits, behind]
      exact scanExponent_stops stops _ _
    have written : Number.write (.real (.zero true)) = ['-', '0', '.', '0'] := rfl
    rw [written]
    exact tokensAfter_cons rfl token rfl
  | @integer n least greatest =>
    have scanned := fun negative => scanNumber_digits rest
      (fun c member => isAsciiDigit_of_mem_writeNatural member) (writeNatural_ne_nil n.natAbs)
      (fun tail => writeNatural_zero_cons) stops negative
    by_cases negative : n < 0
    · have written : Number.write (.integer n) = '-' :: Text.writeNatural n.natAbs := if_pos negative
      have token : scanToken '-' (Text.writeNatural n.natAbs ++ rest) = _ := scanned true
      rw [written, List.cons_append, tokensAfter_cons rfl token rfl]
      simp [Number.literal, negative]
    · have written : Number.write (.integer n) = Text.writeNatural n.natAbs := if_neg negative
      obtain ⟨d, digits, same⟩ := List.exists_cons_of_ne_nil (writeNatural_ne_nil n.natAbs)
      have member : d ∈ Text.writeNatural n.natAbs := by simp [same]
      have digit : Text.isAsciiDigit d = true := isAsciiDigit_of_mem_writeNatural member
      have token := scanToken_digit digit (digits ++ rest)
      rw [← List.cons_append, ← same, scanned false] at token
      rw [written, same, List.cons_append, tokensAfter_cons (isSpace_digit digit) token rfl]
      simp [Number.literal, negative, same]

end Numbers

section Strings

variable {c : Char} {characters rest : List Char} {used : Nat}

theorem hexValue_hexDigit : ∀ n < 16, Text.hexValue? (hexDigit n) = some n := by decide

theorem push_characters (characters : List Char) (c : Char) :
    StringSoFar.push { characters } c = { characters := c :: characters } := rfl

theorem scanString_simple {e : Char} (escaped : simpleEscape? e = some c) (other : e ≠ 'u') :
    scanString { characters } used ('\\' :: e :: rest) =
      scanString { characters := c :: characters } (used + 2) rest := by
  rw [scanString]
  · rw [escaped]
    rfl
  · simp_all
  · simp_all

theorem scanString_control (control : c.toNat < 0x20) :
    scanString { characters } used
        ('\\' :: 'u' :: '0' :: '0' :: hexDigit (c.toNat / 16) :: hexDigit (c.toNat % 16) :: rest) =
      scanString { characters := c :: characters } (used + 6) rest := by
  have unit : hexUnit ['0', '0', hexDigit (c.toNat / 16), hexDigit (c.toNat % 16)] = .ok (c.toNat, []) := by
    have zero : Text.hexValue? '0' = some 0 := by decide
    simp only [hexUnit, zero, hexValue_hexDigit (c.toNat / 16) (by omega),
      hexValue_hexDigit (c.toNat % 16) (by omega), Except.ok.injEq, Prod.mk.injEq, and_true]
    omega
  have pushed : StringSoFar.pushUnit { characters } c.toNat = { characters := c :: characters } := by
    rw [StringSoFar.pushUnit, if_neg (by omega), if_neg (by omega), Char.ofNat_toNat, push_characters]
  rw [scanString, unit]
  exact congrArg (scanString · (used + 6) rest) pushed

/-- A character is read back from what is written for it. -/
theorem scanString_escape :
    scanString { characters } used (escape c ++ rest) =
      scanString { characters := c :: characters } (used + (escape c).length) rest := by
  unfold escape
  split
  next quote => exact scanString_simple (by rw [quote]; rfl) (by decide)
  split
  next slash => exact scanString_simple (by rw [slash]; rfl) (by decide)
  split
  next same => exact scanString_simple (by rw [same]; rfl) (by decide)
  split
  next same => exact scanString_simple (by rw [same]; rfl) (by decide)
  split
  next same => exact scanString_simple (by rw [same]; rfl) (by decide)
  split
  next same => exact scanString_simple (by rw [same]; rfl) (by decide)
  split
  next same => exact scanString_simple (by rw [same]; rfl) (by decide)
  split
  next control => exact scanString_control control
  next quote slash _ _ _ _ _ visible =>
    rw [List.singleton_append, scanString_cons quote slash, if_neg visible, push_characters]
    rfl

theorem scanString_quoted (text : List Char) :
    scanString { characters } used (text.flatMap escape ++ '"' :: rest) =
      (.string (some (String.ofList (characters.reverse ++ text))),
        used + (text.flatMap escape).length + 1) := by
  induction text generalizing characters used with
  | nil => simp [scanString, StringSoFar.close, StringSoFar.settle]
  | cons c text ih =>
    rw [List.flatMap_cons, List.append_assoc, scanString_escape, ih]
    simp only [List.reverse_cons, List.append_assoc, List.singleton_append, List.length_append,
      Prod.mk.injEq, true_and]
    omega

theorem tokens_quote (text : String) (rest : List Char) :
    tokensAfter 0 (quote text ++ rest) = .string (some text) :: tokensAfter 0 rest := by
  have token : scanToken '"' (text.toList.flatMap escape ++ '"' :: rest) =
      (.string (some text), (text.toList.flatMap escape).length + 1) := by
    have scanned := @scanString_quoted [] rest 0 text.toList
    rw [List.reverse_nil, List.nil_append, String.ofList_toList, Nat.zero_add] at scanned
    exact scanned
  have written : quote text ++ rest = '"' :: (text.toList.flatMap escape ++ '"' :: rest) := by
    simp [quote]
  rw [written, tokensAfter_cons rfl token rfl, ← List.drop_drop, List.drop_left]
  rfl

end Strings

section Values

mutual

/-- The tokens that a value is written as. -/
def Value.tokens : Value → List Token
  | .null => [.null]
  | .bool value => [.bool value]
  | .number value => [.number value.literal]
  | .string text => [.string (some text)]
  | .array [] => [.arrayOpen, .arrayClose]
  | .array (item :: rest) => .arrayOpen :: (item.tokens ++ (itemTokens rest ++ [.arrayClose]))
  | .object [] => [.objectOpen, .objectClose]
  | .object ((key, value) :: rest) =>
    .objectOpen :: .string (some key) :: .colon :: (value.tokens ++ (memberTokens rest ++ [.objectClose]))

/-- The tokens of the items after the first one. -/
def itemTokens : List Value → List Token
  | [] => []
  | item :: rest => .comma :: (item.tokens ++ itemTokens rest)

def memberTokens : List (String × Value) → List Token
  | [] => []
  | (key, value) :: rest => .comma :: .string (some key) :: .colon :: (value.tokens ++ memberTokens rest)

end

mutual

/-- The reading of a printed value. -/
def Value.reading : Value → Reading
  | .null => .null
  | .bool value => .bool value
  | .number value => .number value.literal
  | .string text => .string (some text)
  | .array items => .array (itemReadings items) none
  | .object members => .object (memberReadings members) none

def itemReadings : List Value → List Reading
  | [] => []
  | item :: rest => item.reading :: itemReadings rest

def memberReadings : List (String × Value) → List (Option String × Reading)
  | [] => []
  | (key, value) :: rest => (some key, value.reading) :: memberReadings rest

end

/-- A value that a text can hold: keys are distinct, numbers keep all their digits, and no more
containers stand in one another than a reader opens. -/
inductive Storable : Nat → Value → Prop where
  | null {room : Nat} : Storable room .null
  | bool {room : Nat} (value : Bool) : Storable room (.bool value)
  | number {room : Nat} {value : Number} (whole : value.IsWhole) : Storable room (.number value)
  | string {room : Nat} (text : String) : Storable room (.string text)
  | array {room : Nat} {items : List Value} (each : ∀ item ∈ items, Storable room item) :
      Storable (room + 1) (.array items)
  | object {room : Nat} {members : List (String × Value)} (distinct : (members.map Prod.fst).Nodup)
      (each : ∀ member ∈ members, Storable room member.2) : Storable (room + 1) (.object members)

variable {layout : Layout} {level room : Nat} {value : Value} {rest : List Char} {more : List Token}
  {frames : List Frame}

/-- The characters that are tokens by themselves. -/
def marks : List (Char × Token) := [('[', .arrayOpen), (']', .arrayClose), ('{', .objectOpen),
  ('}', .objectClose), (':', .colon), (',', .comma)]

theorem tokens_mark {c : Char} (token : Token) (mark : (c, token) ∈ marks) (rest : List Char) :
    tokensAfter 0 (c :: rest) = token :: tokensAfter 0 rest := by
  simp only [marks, List.mem_cons, Prod.mk.injEq, List.not_mem_nil, or_false] at mark
  rcases mark with ⟨rfl, rfl⟩ | ⟨rfl, rfl⟩ | ⟨rfl, rfl⟩ | ⟨rfl, rfl⟩ | ⟨rfl, rfl⟩ | ⟨rfl, rfl⟩ <;> rfl

theorem tokens_space {c : Char} (space : isSpace c = true) : tokensAfter 0 (c :: rest) = tokensAfter 0 rest := by
  rw [tokensAfter, if_pos space]

theorem tokens_line : tokensAfter 0 (layout.line level ++ rest) = tokensAfter 0 rest := by
  cases layout with
  | compact => rfl
  | indented =>
    have blanks : ∀ count, tokensAfter 0 (List.replicate count ' ' ++ rest) = tokensAfter 0 rest := by
      intro count
      induction count with
      | zero => rfl
      | succ count ih =>
        rw [List.replicate_succ, List.cons_append, tokens_space rfl, ih]
    rw [Layout.line, List.cons_append, tokens_space rfl, blanks]

theorem tokens_afterKey :
    tokensAfter 0 (layout.afterKey ++ rest) = .colon :: tokensAfter 0 rest := by
  have colon := fun rest => @tokens_mark ':' .colon (by decide) rest
  cases layout with
  | compact => exact colon _
  | indented =>
    rw [Layout.afterKey, List.cons_append, colon]
    exact congrArg _ (tokens_space rfl)

theorem stops_line {c : Char} (closing : continuesNumber c = false) :
    Stops continuesNumber (layout.line level ++ c :: rest) := by
  cases layout with
  | compact => exact stops_cons closing
  | indented => exact stops_cons (by decide)

/-- A value whose text is cut into its tokens, whatever stands behind it. -/
def Scans (layout : Layout) (value : Value) : Prop :=
  ∀ level rest, Stops continuesNumber rest →
    tokensAfter 0 (value.write layout level ++ rest) = value.tokens ++ tokensAfter 0 rest

theorem stops_items (items : List Value) (stops : Stops continuesNumber rest) :
    Stops continuesNumber (writeItems layout level items ++ rest) := by
  cases items with
  | nil => exact stops
  | cons item items => exact stops_cons (by decide)

theorem stops_members (members : List (String × Value)) (stops : Stops continuesNumber rest) :
    Stops continuesNumber (writeMembers layout level members ++ rest) := by
  cases members with
  | nil => exact stops
  | cons member members => exact stops_cons (by decide)

theorem tokens_items {items : List Value} (each : ∀ item ∈ items, Scans layout item)
    (stops : Stops continuesNumber rest) :
    tokensAfter 0 (writeItems layout level items ++ rest) = itemTokens items ++ tokensAfter 0 rest := by
  induction items with
  | nil => rfl
  | cons item items ih =>
    obtain ⟨first, others⟩ := List.forall_mem_cons.mp each
    simp only [writeItems, itemTokens, List.cons_append, List.append_assoc]
    rw [tokens_mark .comma (by decide), tokens_line, first _ _ (stops_items items stops),
      ih others]

theorem tokens_members {members : List (String × Value)} (each : ∀ member ∈ members, Scans layout member.2)
    (stops : Stops continuesNumber rest) :
    tokensAfter 0 (writeMembers layout level members ++ rest) =
      memberTokens members ++ tokensAfter 0 rest := by
  induction members with
  | nil => rfl
  | cons member members ih =>
    obtain ⟨key, value⟩ := member
    obtain ⟨first, others⟩ := List.forall_mem_cons.mp each
    simp only [writeMembers, memberTokens, List.cons_append, List.append_assoc]
    rw [tokens_mark .comma (by decide), tokens_line, tokens_quote, tokens_afterKey,
      first _ _ (stops_members members stops), ih others]

theorem tokens_word {word : Token} {first : Char} (expected : List Char) (visible : isSpace first = false)
    (whole : isBroken word = false)
    (scans : ∀ rest, scanToken first rest = scanWord word 0 expected rest) :
    tokensAfter 0 (first :: (expected ++ rest)) = word :: tokensAfter 0 rest := by
  have token := (scans (expected ++ rest)).trans (scanWord_append word 0 expected rest)
  rw [tokensAfter_cons visible token whole, Nat.zero_add, List.drop_left]

theorem Storable.scans (storable : Storable room value) : Scans layout value := by
  induction storable with
  | null => exact fun _ rest _ => tokens_word ['u', 'l', 'l'] rfl rfl fun _ => rfl
  | bool truth =>
    intro level rest _
    cases truth with
    | true => exact tokens_word ['r', 'u', 'e'] rfl rfl fun _ => rfl
    | false => exact tokens_word ['a', 'l', 's', 'e'] rfl rfl fun _ => rfl
  | number whole => exact fun _ _ stops => tokens_number whole stops
  | string text => exact fun _ rest _ => tokens_quote text rest
  | @array room items _ ih =>
    intro level rest _
    cases items with
    | nil => rfl
    | cons item items =>
      obtain ⟨first, others⟩ := List.forall_mem_cons.mp ih
      have closing : Stops continuesNumber (layout.line level ++ ']' :: rest) := stops_line (by decide)
      simp only [Value.write, Value.tokens, List.cons_append, List.append_assoc, List.nil_append]
      rw [tokens_mark .arrayOpen (by decide), tokens_line,
        first _ _ (stops_items items closing), tokens_items others closing, tokens_line,
        tokens_mark .arrayClose (by decide)]
  | @object room members _ _ ih =>
    intro level rest _
    cases members with
    | nil => rfl
    | cons member members =>
      obtain ⟨key, value⟩ := member
      obtain ⟨first, others⟩ := List.forall_mem_cons.mp ih
      have closing : Stops continuesNumber (layout.line level ++ '}' :: rest) := stops_line (by decide)
      simp only [Value.write, Value.tokens, List.cons_append, List.append_assoc, List.nil_append]
      rw [tokens_mark .objectOpen (by decide), tokens_line, tokens_quote, tokens_afterKey,
        first _ _ (stops_members members closing), tokens_members others closing, tokens_line,
        tokens_mark .objectClose (by decide)]

end Values

end Pagewright.Json
