import Mathlib.Data.Nat.Factorization.Basic
import Pagewright.Proofs.Decimal.Shortest
import Pagewright.Proofs.Json.Spelled

/-! The form in which a binary number is written. It has the fewest digits that read back, without zeros
around them, and the place of the first one decides whether it has an exponent. -/

namespace Pagewright.Json

open Text (isAsciiDigit readDigits writeNatural readDigits_append readDigits_replicate)
open Decimal

/-- The digits of a number that does not end in a zero. -/
def Significant (digits : List Char) : Prop := ∃ n, n % 10 ≠ 0 ∧ digits = writeNatural n

/-- The literals that have some digits, by the place of the first one. -/
inductive Placed (negative : Bool) (digits : List Char) : ℤ → Literal → Prop where
  | small {zeros : ℕ} (few : zeros ≤ 4) :
      Placed negative digits (-zeros - 1) ⟨negative, ['0'], List.replicate zeros '0' ++ digits, none⟩
  | whole {zeros : ℕ} (few : digits.length + zeros ≤ 16) :
      Placed negative digits (digits.length + zeros - 1) ⟨negative, digits ++ List.replicate zeros '0', ['0'], none⟩
  | mixed {front back : List Char} (split : digits = front ++ back) (whole : front ≠ []) (fraction : back ≠ [])
      (few : front.length ≤ 16) : Placed negative digits (front.length - 1) ⟨negative, front, back, none⟩
  | scientific {d : Char} {fraction : List Char} {leading : ℤ} (split : digits = d :: fraction)
      (far : leading < -5 ∨ 15 < leading) :
      Placed negative digits leading
        ⟨negative, [d], fraction, some (decide (leading < 0), writeNatural leading.natAbs)⟩

/-- The literals that binary numbers are written as. -/
inductive Literal.Standard : Literal → Prop where
  | zero {negative : Bool} : Standard ⟨negative, ['0'], ['0'], none⟩
  | placed {negative : Bool} {digits : List Char} {leading : ℤ} {literal : Literal} (significant : Significant digits)
      (placed : Placed negative digits leading literal) : Standard literal

theorem Literal.Proper.zero {negative : Bool} : Proper ⟨negative, ['0'], ['0'], none⟩ := by
  have zero : ∀ c ∈ ['0'], isAsciiDigit c = true := List.forall_mem_singleton.mpr rfl
  exact ⟨zero, by simp, fun tail same => (List.cons.inj same).2.symm, zero, fun _ _ none => nomatch none⟩

section Digits

variable {digits : List Char}

theorem Significant.ne_nil (significant : Significant digits) : digits ≠ [] := by
  obtain ⟨n, _, rfl⟩ := significant
  exact Text.writeNatural_ne_nil n

theorem Significant.ascii (significant : Significant digits) : ∀ c ∈ digits, isAsciiDigit c = true := by
  obtain ⟨n, _, rfl⟩ := significant
  exact fun c member => Text.isAsciiDigit_of_mem_writeNatural member

theorem Significant.head (significant : Significant digits) : digits.head? ≠ some '0' := by
  obtain ⟨n, tail, rfl⟩ := significant
  intro zero
  obtain ⟨rest, written⟩ := List.head?_eq_some_iff.mp zero
  obtain rfl := Text.writeNatural_zero_cons written
  have value := Text.readDigits_writeNatural n
  rw [written] at value
  subst value
  exact tail rfl

theorem Significant.last (significant : Significant digits) : digits.getLast? ≠ some '0' := by
  obtain ⟨n, tail, rfl⟩ := significant
  exact Text.last_writeNatural tail

theorem Significant.readDigits (significant : Significant digits) : Text.readDigits digits % 10 ≠ 0 := by
  obtain ⟨n, tail, rfl⟩ := significant
  rwa [Text.readDigits_writeNatural]

theorem Significant.eq {other : List Char} (first : Significant digits) (second : Significant other)
    (same : Text.readDigits digits = Text.readDigits other) : digits = other := by
  obtain ⟨n, _, rfl⟩ := first
  obtain ⟨m, _, rfl⟩ := second
  rw [Text.readDigits_writeNatural, Text.readDigits_writeNatural] at same
  rw [same]

theorem dropZeros_replicate (zeros : ℕ) : dropZeros (List.replicate zeros '0') = ([], zeros) := by
  induction zeros with
  | zero => rfl
  | succ zeros ih =>
    rw [List.replicate_succ, dropZeros, ih]
    rfl

theorem dropZeros_append (last : digits.getLast? ≠ some '0') (zeros : ℕ) :
    dropZeros (digits ++ List.replicate zeros '0') = (digits, zeros) := by
  induction digits with
  | nil => exact dropZeros_replicate zeros
  | cons d rest ih =>
    rw [List.cons_append, dropZeros]
    cases rest with
    | nil =>
      have nonzero : d ≠ '0' := by simpa using last
      rw [List.nil_append, dropZeros_replicate]
      exact if_neg nonzero
    | cons e rest =>
      rw [ih (by simpa using last)]

end Digits

section Texts

variable {negative : Bool} {digits : List Char} {leading : ℤ} {literal : Literal}

/-- What is written for digits by the place of the first one. -/
def placedText (style : Notation) (digits : List Char) (leading : ℤ) : List Char :=
  if style.lowest ≤ leading ∧ leading ≤ style.highest then Notation.plain digits leading
  else Notation.scientific digits leading

theorem Placed.text (placed : Placed negative digits leading literal) (present : digits ≠ []) :
    literal.text = Literal.sign negative ++ placedText documentNotation digits leading := by
  have length := List.length_pos_iff.mpr present
  cases placed with
  | @small zeros few =>
    have inside : documentNotation.lowest ≤ -(zeros : ℤ) - 1 ∧ -(zeros : ℤ) - 1 ≤ documentNotation.highest := by
      simp only [documentNotation]
      omega
    have count : (-(-(zeros : ℤ) - 1) - 1).toNat = zeros := by omega
    rw [placedText, if_pos inside, Notation.plain, if_pos (by omega), count]
    simp [Literal.text, Literal.mantissa, Literal.point, Literal.exponentText, present]
  | @whole zeros few =>
    have inside : documentNotation.lowest ≤ (digits.length : ℤ) + zeros - 1 ∧
        (digits.length : ℤ) + zeros - 1 ≤ documentNotation.highest := by
      simp only [documentNotation]
      omega
    have count : ((digits.length : ℤ) + zeros - 1).toNat + 1 = digits.length + zeros := by omega
    rw [placedText, if_pos inside, Notation.plain, if_neg (by omega)]
    dsimp only
    rw [count, List.take_of_length_le (Nat.le_add_right _ _), List.drop_of_length_le (Nat.le_add_right _ _),
      Nat.add_sub_cancel_left]
    simp [Literal.text, Literal.mantissa, Literal.point, Literal.exponentText]
  | @mixed front back split whole fraction few =>
    have front_pos := List.length_pos_iff.mpr whole
    have inside : documentNotation.lowest ≤ (front.length : ℤ) - 1 ∧
        (front.length : ℤ) - 1 ≤ documentNotation.highest := by
      simp only [documentNotation]
      omega
    have count : ((front.length : ℤ) - 1).toNat + 1 = front.length := by omega
    rw [placedText, if_pos inside, Notation.plain, if_neg (by omega)]
    dsimp only
    rw [count, split, List.take_left, List.drop_left, List.length_append, Nat.sub_eq_zero_of_le (Nat.le_add_right _ _)]
    simp [Literal.text, Literal.mantissa, Literal.point, Literal.exponentText, fraction]
  | @scientific d fraction leading split far =>
    have outside : ¬ (documentNotation.lowest ≤ leading ∧ leading ≤ documentNotation.highest) := by
      simp only [documentNotation]
      omega
    rw [placedText, if_neg outside, Notation.scientific, split]
    by_cases none : fraction = [] <;> by_cases below : leading < 0 <;>
      simp [Literal.text, Literal.mantissa, Literal.point, Literal.exponentText, none, below]

/-- Any digits can stand at any place. -/
theorem exists_placed (negative : Bool) (present : digits ≠ []) (leading : ℤ) :
    ∃ literal, Placed negative digits leading literal := by
  have length := List.length_pos_iff.mpr present
  by_cases far : leading < -5 ∨ 15 < leading
  · obtain ⟨d, fraction, split⟩ := List.exists_cons_of_ne_nil present
    exact ⟨_, .scientific split far⟩
  rw [not_or, not_lt, not_lt] at far
  rcases lt_or_ge leading 0 with below | above
  · have same : -((-leading - 1).toNat : ℤ) - 1 = leading := by omega
    rw [← same]
    exact ⟨_, .small (by omega)⟩
  by_cases whole : digits.length ≤ leading + 1
  · have same : (digits.length : ℤ) + ((leading + 1).toNat - digits.length : ℕ) - 1 = leading := by omega
    rw [← same]
    exact ⟨_, .whole (by omega)⟩
  · have count : (digits.take (leading + 1).toNat).length = (leading + 1).toNat := by
      rw [List.length_take]
      omega
    have same : ((digits.take (leading + 1).toNat).length : ℤ) - 1 = leading := by
      rw [count]
      omega
    rw [← same]
    refine ⟨_, .mixed (List.take_append_drop (leading + 1).toNat digits).symm ?_ ?_ ?_⟩
    · exact List.ne_nil_of_length_pos (by omega)
    · refine List.ne_nil_of_length_pos ?_
      rw [List.length_drop]
      omega
    · omega

theorem readDigits_zero_cons (digits : List Char) : readDigits ('0' :: digits) = readDigits digits := by
  have split := readDigits_append ['0'] digits
  rwa [show readDigits ['0'] = 0 from rfl, Nat.zero_mul, Nat.zero_add] at split

theorem Placed.proper (placed : Placed negative digits leading literal) (significant : Significant digits) :
    literal.Proper := by
  have zeros (count : ℕ) : ∀ c ∈ List.replicate count '0', isAsciiDigit c = true := by
    intro c member
    rw [List.eq_of_mem_replicate member]
    rfl
  have zero : ∀ c ∈ ['0'], isAsciiDigit c = true := zeros 1
  have leading (front back : List Char) (split : digits = front ++ back) (some : front ≠ []) :
      ∀ tail, front = '0' :: tail → tail = [] := by
    rintro tail rfl
    exact absurd (by rw [split]; rfl) significant.head
  have ascii := significant.ascii
  cases placed with
  | @small count few =>
    exact ⟨zero, by simp, fun tail same => by simpa using same.symm,
      List.forall_mem_append.mpr ⟨zeros count, ascii⟩, fun _ _ none => nomatch none⟩
  | @whole count few =>
    refine ⟨List.forall_mem_append.mpr ⟨ascii, zeros count⟩, by simp [significant.ne_nil], ?_, zero,
      fun _ _ none => nomatch none⟩
    intro tail same
    obtain ⟨d, rest, rfl⟩ := List.exists_cons_of_ne_nil significant.ne_nil
    have first := (List.cons.inj same).1
    exact absurd (by rw [first]; rfl) significant.head
  | @mixed front back split whole fraction few =>
    rw [split] at ascii
    exact ⟨(List.forall_mem_append.mp ascii).1, whole, leading front back split whole,
      (List.forall_mem_append.mp ascii).2, fun _ _ none => nomatch none⟩
  | @scientific d fraction _ split far =>
    rw [split] at ascii
    obtain ⟨first, others⟩ := List.forall_mem_cons.mp ascii
    refine ⟨List.forall_mem_singleton.mpr first, by simp, leading [d] fraction split (by simp), others, ?_⟩
    rintro _ _ same
    cases same
    exact ⟨Text.writeNatural_ne_nil _, fun c member => Text.isAsciiDigit_of_mem_writeNatural member⟩

theorem Placed.sign (placed : Placed negative digits leading literal) : literal.negative = negative := by
  cases placed <;> rfl

theorem Placed.parts (placed : Placed negative digits leading literal) (present : digits ≠ []) :
    ¬ (literal.fraction = [] ∧ literal.exponent = none) := by
  cases placed with
  | small => simp [present]
  | whole => simp
  | mixed _ _ fraction => simp [fraction]
  | scientific => simp

/-- No integer is written like that. -/
theorem Literal.Standard.parts (standard : literal.Standard) : ¬ (literal.fraction = [] ∧ literal.exponent = none) := by
  cases standard with
  | zero => simp
  | placed significant placed => exact placed.parts significant.ne_nil

theorem Placed.value (placed : Placed negative digits leading literal) :
    (literal.digits : ℚ) * 10 ^ literal.place = readDigits digits * 10 ^ (leading + 1 - digits.length) := by
  cases placed with
  | @small zeros few =>
    have same : Literal.digits ⟨negative, ['0'], List.replicate zeros '0' ++ digits, none⟩ = readDigits digits := by
      rw [Literal.digits, List.singleton_append, readDigits_zero_cons, readDigits_append, readDigits_replicate,
        Nat.zero_mul, Nat.zero_add]
    rw [same, Literal.place, Literal.exponentValue]
    congr 2
    simp only [List.length_append, List.length_replicate]
    push_cast
    omega
  | @whole zeros few =>
    have same : Literal.digits ⟨negative, digits ++ List.replicate zeros '0', ['0'], none⟩ =
        readDigits digits * 10 ^ zeros * 10 := by
      rw [Literal.digits, readDigits_append, readDigits_append, readDigits_replicate, List.length_replicate]
      rfl
    rw [same, Literal.place, Literal.exponentValue]
    have place : (digits.length : ℤ) + zeros - 1 + 1 - digits.length = zeros := by omega
    rw [place, zpow_natCast]
    push_cast
    norm_num
    ring
  | @mixed front back split whole fraction few =>
    rw [Literal.digits, Literal.place, Literal.exponentValue]
    dsimp only
    rw [split, List.length_append]
    congr 2
    push_cast
    omega
  | @scientific d fraction _ split far =>
    have value : Literal.exponentValue
        ⟨negative, [d], fraction, some (decide (leading < 0), writeNatural leading.natAbs)⟩ = leading := by
      rw [Literal.exponentValue]
      dsimp only
      rw [Text.readDigits_writeNatural]
      split
      next below =>
        rw [decide_eq_true_eq] at below
        omega
      next above =>
        rw [decide_eq_true_eq] at above
        omega
    rw [Literal.digits, Literal.place, value]
    dsimp only
    rw [split, List.singleton_append, List.length_cons]
    congr 2
    push_cast
    omega

end Texts

section Written

variable {x : Binary64} {digits : List Char} {leading : ℤ}

/-- Without zeros at the end a decimal has one number of digits. -/
theorem decimal_inj {n m : ℕ} {i j : ℤ} (first : n % 10 ≠ 0) (second : m % 10 ≠ 0)
    (same : (n : ℚ) * 10 ^ i = m * 10 ^ j) : n = m ∧ i = j := by
  have above {n m : ℕ} {i j : ℤ} (first : n % 10 ≠ 0) (same : (n : ℚ) * 10 ^ i = m * 10 ^ j) : j ≤ i := by
    by_contra less
    obtain ⟨more, rfl⟩ := Int.le.dest (not_le.mp less).le
    have scaled : (n : ℚ) = (m * 10 ^ more : ℕ) := by
      refine mul_right_cancel₀ (zpow_ne_zero i (by norm_num : (10 : ℚ) ≠ 0)) ?_
      rw [same, zpow_add₀ (by norm_num), zpow_natCast]
      push_cast
      ring
    have whole : n = m * 10 ^ more := by exact_mod_cast scaled
    obtain ⟨fewer, rfl⟩ : ∃ fewer, more = fewer + 1 := ⟨more - 1, by omega⟩
    rw [Nat.pow_succ, ← Nat.mul_assoc] at whole
    omega
  obtain rfl : i = j := le_antisymm (above second same.symm) (above first same)
  refine ⟨?_, rfl⟩
  exact_mod_cast mul_right_cancel₀ (zpow_ne_zero i (by norm_num : (10 : ℚ) ≠ 0)) same

theorem exists_significant {n : ℕ} (some : 0 < n) :
    ∃ digits zeros, Significant digits ∧ n = readDigits digits * 10 ^ zeros := by
  obtain ⟨zeros, rest, tail, split⟩ := Nat.exists_eq_pow_mul_and_not_dvd some.ne' 10 (by decide)
  refine ⟨writeNatural rest, zeros, ⟨rest, fun none => tail (Nat.dvd_of_mod_eq_zero none), rfl⟩, ?_⟩
  rw [Text.readDigits_writeNatural, split, Nat.mul_comm]

/-- A number is written with the digits of its shortest decimal. -/
theorem write_eq (normal : x.Normal) (some : 0 < x.significand) (significant : Significant digits)
    (value : x.shortest.value = readDigits digits * 10 ^ (leading + 1 - digits.length)) :
    documentNotation.write x = Literal.sign x.negative ++ placedText documentNotation digits leading := by
  obtain ⟨others, zeros, clean, split⟩ := exists_significant (Binary64.shortest_pos normal some)
  have spread : (readDigits others : ℚ) * 10 ^ (x.shortest.exponent + zeros) =
      readDigits digits * 10 ^ (leading + 1 - digits.length) := by
    rw [← value, Scientific.value, split, zpow_add₀ (by norm_num), zpow_natCast]
    push_cast
    ring
  obtain ⟨same, place⟩ := decimal_inj clean.readDigits significant.readDigits spread
  obtain rfl := clean.eq significant same
  obtain ⟨n, tail, written⟩ := id clean
  have dropped : dropZeros (writeNatural x.shortest.digits) = (others, zeros) := by
    rw [split, written, Text.readDigits_writeNatural, Text.writeNatural_mul_pow (by omega)]
    exact dropZeros_append (Text.last_writeNatural tail) zeros
  have nonzero : x.isZero = false := by
    rw [Binary64.isZero, beq_eq_false_iff_ne]
    exact some.ne'
  have first : x.shortest.exponent + zeros + others.length - 1 = leading := by omega
  rw [Notation.write, nonzero, if_neg Bool.false_ne_true]
  dsimp only
  rw [dropped]
  dsimp only
  rw [first, placedText, Literal.sign]
  cases x.negative <;> rfl

theorem write_zero (none : x.significand = 0) :
    documentNotation.write x = Literal.text ⟨x.negative, ['0'], ['0'], Option.none⟩ := by
  have zero : x.isZero = true := by rw [Binary64.isZero, none]; rfl
  rw [Notation.write, if_pos zero]
  cases x.negative <;> rfl

/-- Whatever is written is the text of a standard literal. -/
theorem exists_standard (normal : x.Normal) :
    ∃ literal : Literal, literal.Standard ∧ literal.Proper ∧ documentNotation.write x = literal.text := by
  rcases Nat.eq_zero_or_pos x.significand with none | some
  · exact ⟨_, .zero, Literal.Proper.zero, write_zero none⟩
  · obtain ⟨digits, zeros, significant, split⟩ := exists_significant (Binary64.shortest_pos normal some)
    obtain ⟨literal, placed⟩ := exists_placed x.negative significant.ne_nil
      (x.shortest.exponent + zeros + digits.length - 1)
    refine ⟨literal, .placed significant placed, placed.proper significant, ?_⟩
    rw [placed.text significant.ne_nil]
    refine write_eq normal some significant ?_
    rw [Scientific.value, split]
    push_cast
    rw [mul_assoc, ← zpow_natCast, ← zpow_add₀ (by norm_num)]
    congr 2
    omega

end Written

end Pagewright.Json
