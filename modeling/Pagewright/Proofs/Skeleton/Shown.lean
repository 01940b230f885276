import Pagewright.Markup.Render
import Pagewright.Proofs.Json.Standard
import Pagewright.Skeleton.Decode

/-! How a number that stands in a document is shown. The digits of an integer are kept as they are while it
fits 64 bits. Every other number is shown in the standard form, so any other spelling of it is lost. -/

namespace Pagewright.Skeleton

open Json Decimal
open Text (readDigits writeNatural_readDigits)

variable {literal : Literal} {text shown : List Char}

/-- What stands on a page for a scalar of a document. Classes, styles, texts, attributes and custom
properties are all read and shown like this. -/
def Shown (text shown : List Char) : Prop :=
  ∃ scalar, decodeScalar.ofText (String.ofList text) = .ok scalar ∧ scalar.display = String.ofList shown

theorem decodeScalar_number (access : Access) :
    decodeScalar access (.number literal) = Scalar.number <$> decodeNumber literal := by
  cases access with
  | stream room =>
    dsimp only [decodeScalar, Access.whole, Reading.value]
    cases decodeNumber literal <;> rfl
  | memory => rfl

theorem ofText_spelled (spelled : Spells literal text) :
    decodeScalar.ofText (String.ofList text) = Scalar.number <$> decodeNumber literal := by
  rw [Decoder.ofText, document_spelled spelled]
  dsimp only
  rw [decodeScalar_number]
  cases decodeNumber literal <;> rfl

theorem shown_iff (spelled : Spells literal text) :
    Shown text shown ↔ ∃ number, literal.value = some number ∧ number.write = shown := by
  rw [Shown, ofText_spelled spelled, decodeNumber]
  cases literal.value with
  | none =>
    constructor
    · rintro ⟨_, found, _⟩
      cases found
    · rintro ⟨_, found, _⟩
      cases found
  | some number =>
    constructor
    · rintro ⟨scalar, found, same⟩
      cases found
      exact ⟨number, rfl, String.ofList_injective same⟩
    · rintro ⟨_, found, same⟩
      cases found
      exact ⟨.number number, rfl, congrArg String.ofList same⟩

/-- A number with a standard text is the standard literal of that text. -/
theorem standard_of_write {x : Binary64} (normal : x.Normal) (spelled : Spells literal text)
    (written : (Number.real x).write = text) : text = literal.text ∧ literal.Standard := by
  obtain ⟨other, standard, proper, same⟩ := exists_standard normal
  have spells : Spells other text := by
    rw [← written, Number.write, same]
    exact proper.spells
  obtain rfl := spelled.unique spells
  exact ⟨written.symm.trans same, standard⟩

/-- The integers that are shown as they are spelled. -/
theorem shown_integer (spelled : Spells literal text) (fraction : literal.fraction = [])
    (exponent : literal.exponent = none) :
    Shown text text ↔ literal.IsWhole ∧ ¬ (literal.negative = true ∧ readDigits literal.whole = 0) := by
  rw [shown_iff spelled]
  constructor
  · rintro ⟨number, found, written⟩
    rcases value_cases found with ⟨x, rfl, normal, _⟩ | ⟨whole, unsigned, _⟩
    · exact absurd ⟨fraction, exponent⟩ (standard_of_write normal spelled written).2.parts
    · exact ⟨whole, unsigned⟩
  · rintro ⟨whole, unsigned⟩
    refine ⟨_, value_eq_of_isWhole whole, ?_⟩
    obtain ⟨negative, digits, _, _⟩ := literal
    obtain ⟨⟨ascii, present, leading, _, _⟩, back, spells, rfl⟩ := spelled
    dsimp only at *
    subst fraction exponent
    cases spells
    have kept := writeNatural_readDigits ascii present leading
    rw [Literal.mantissa, Literal.point, if_pos rfl, List.append_nil, List.append_nil]
    dsimp only
    cases negative with
    | false => simp [Number.write, Text.writeInteger, Literal.sign, kept]
    | true =>
      have some : readDigits digits ≠ 0 := fun zero => unsigned ⟨rfl, zero⟩
      simp [Number.write, Text.writeInteger, Literal.sign, kept, some]

/-- The numbers of fifteen digits. -/
theorem shown_standard (standard : literal.Standard) (proper : literal.Proper) (few : literal.digits < 10 ^ 15)
    (lowest : -22 ≤ literal.place) (highest : literal.place ≤ 22) : Shown literal.text literal.text := by
  rw [shown_iff proper.spells, value_of_fraction standard.parts (by omega)]
  cases standard with
  | @zero negative => exact ⟨_, rfl, write_zero rfl⟩
  | @placed negative digits leading literal significant placed =>
    have value := placed.value
    have some : 0 < literal.digits := by
      refine Nat.pos_of_ne_zero fun none => ?_
      rw [none, Nat.cast_zero, zero_mul, eq_comm, mul_eq_zero] at value
      rcases value with zero | zero
      · exact significant.readDigits (by rw [Nat.cast_eq_zero.mp zero])
      · exact zpow_ne_zero _ (by norm_num) zero
    obtain ⟨x, rounded, holds, normal, sign⟩ :=
      Binary64.ofDecimal_spec literal.negative some (by omega) lowest highest
    have present := holds.significand_pos normal (Binary64.tiny_le_decimal some lowest)
    rw [rounded]
    refine ⟨_, rfl, ?_⟩
    have shortest := (Binary64.shortest_value holds normal some few lowest).trans value
    rw [Number.write, write_eq normal present significant shortest, placed.text significant.ne_nil, sign, placed.sign]

/-- A number is shown as it is spelled only in the standard form, unless it is an integer, and an integer
only when it fits 64 bits. Standard numbers of fifteen digits always are. -/
theorem shown_as_spelled (spelled : Spells literal text) :
    (literal.fraction = [] ∧ literal.exponent = none →
      (Shown text text ↔ literal.IsWhole ∧ ¬ (literal.negative = true ∧ readDigits literal.whole = 0))) ∧
    (¬ (literal.fraction = [] ∧ literal.exponent = none) →
      (Shown text text → text = literal.text ∧ literal.Standard) ∧
      (literal.digits < 10 ^ 15 → -22 ≤ literal.place → literal.place ≤ 22 →
        (Shown text text ↔ text = literal.text ∧ literal.Standard))) := by
  refine ⟨fun plain => shown_integer spelled plain.1 plain.2, fun parts => ?_⟩
  have standard : Shown text text → text = literal.text ∧ literal.Standard := by
    intro same
    obtain ⟨number, found, written⟩ := (shown_iff spelled).mp same
    rcases value_cases found with ⟨x, rfl, normal, _⟩ | ⟨whole, _⟩
    · exact standard_of_write normal spelled written
    · exact absurd ⟨whole.fraction, whole.exponent⟩ parts
  refine ⟨standard, fun few lowest highest => ⟨standard, ?_⟩⟩
  rintro ⟨rfl, form⟩
  exact shown_standard form spelled.proper few lowest highest

/-- A version of something, given as a number. -/
def version (fraction : List Char) : Literal := ⟨false, ['1'], fraction, none⟩

theorem spells_version (fraction : List Char) (ascii : ∀ c ∈ fraction, Text.isAsciiDigit c = true) :
    Spells (version fraction) (version fraction).text := by
  have one : ∀ c ∈ ['1'], Text.isAsciiDigit c = true := List.forall_mem_singleton.mpr rfl
  have proper : (version fraction).Proper :=
    ⟨one, List.cons_ne_nil _ _, (fun _ same => nomatch same), ascii, fun _ _ none => nomatch none⟩
  exact proper.spells

theorem shown_as_spelled_version :
    Shown ['1'] ['1'] ∧ Shown ['1', '.', '5'] ['1', '.', '5'] ∧ ¬ Shown ['1', '.', '5', '0'] ['1', '.', '5', '0'] := by
  obtain ⟨whole, _⟩ := shown_as_spelled (spells_version [] (by simp))
  obtain ⟨_, short⟩ := shown_as_spelled (spells_version ['5'] (by simp [Text.isAsciiDigit]))
  obtain ⟨_, padded⟩ := shown_as_spelled (spells_version ['5', '0'] (by simp [Text.isAsciiDigit]))
  have significant : Significant ['1', '5'] := ⟨15, by decide, rfl⟩
  have standard : (version ['5']).Standard :=
    .placed significant (.mixed rfl (List.cons_ne_nil _ _) (List.cons_ne_nil _ _) (by decide))
  have other : ¬ (version ['5', '0']).Standard := by
    intro standard
    generalize same : version ['5', '0'] = literal at standard
    cases standard with
    | zero => cases same
    | placed significant placed =>
      cases placed with
      | small => cases same
      | whole => exact absurd (congrArg Literal.fraction same) (by simp [version])
      | mixed split =>
        cases same
        exact significant.last (by rw [split]; rfl)
      | scientific => cases same
  refine ⟨(whole ⟨rfl, rfl⟩).mpr (by decide), ?_, fun shown => other ((padded (by decide)).1 shown).2⟩
  exact ((short (by decide)).2 (by decide) (by decide) (by decide)).mpr ⟨rfl, standard⟩

/-- The page that a document of a node comes to. -/
def pageOf (document : String) : Option String := do
  let node ← (Node.ofText document).toOption
  (Markup.render .standard node).toOption

/-- A zero at the end of a fraction, an exponent, the sign of a zero and digits beyond 64 bits. -/
theorem spelling_lost :
    pageOf "\x7b\"element\": \"p\", \"text\": 1.50\x7d" = some "<p>1.5</p>" ∧
    pageOf "\x7b\"element\": \"p\", \"text\": 1e2\x7d" = some "<p>100.0</p>" ∧
    pageOf "\x7b\"element\": \"p\", \"text\": -0\x7d" = some "<p>-0.0</p>" ∧
    pageOf "\x7b\"element\": \"p\", \"text\": 18446744073709551616\x7d" =
      some "<p>1.8446744073709552e+19</p>" := by
  decide +kernel

end Pagewright.Skeleton
