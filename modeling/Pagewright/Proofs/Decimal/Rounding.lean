import Mathlib.Algebra.Order.Field.Power
import Mathlib.Data.Rat.Cast.Order
import Mathlib.Tactic.FieldSimp
import Mathlib.Tactic.Linarith
import Mathlib.Tactic.LinearCombination
import Mathlib.Tactic.NormNum
import Mathlib.Tactic.Positivity
import Mathlib.Tactic.Ring
import Pagewright.Decimal.Shortest

/-! Rounding to the nearest binary number. A fraction stands between the midpoints around the number it
is rounded to, and a number with few enough digits is kept exactly. -/

namespace Pagewright.Decimal

variable {n d : ℕ}

/-- A power with a negative exponent, as the fraction that whole numbers make of it. -/
theorem zpow_eq_div {base : ℚ} (nonzero : base ≠ 0) (i : ℤ) :
    base ^ i = base ^ i.toNat / base ^ (-i).toNat := by
  rw [eq_div_iff (pow_ne_zero _ nonzero), ← zpow_natCast, ← zpow_natCast, ← zpow_add₀ nonzero]
  congr 1
  omega

theorem scaled_div (n d : ℕ) (place : ℤ) :
    ((n * Nat.pow 2 (-place).toNat : ℕ) : ℚ) / ((d * Nat.pow 2 place.toNat : ℕ) : ℚ) =
      (n : ℚ) / d / 2 ^ place := by
  rw [zpow_eq_div two_ne_zero place]
  push_cast [Nat.pow_eq]
  field_simp

theorem divideToEven_spec (positive : 0 < d) :
    2 * (divideToEven n d * d) ≤ 2 * n + d ∧ 2 * n ≤ 2 * (divideToEven n d * d) + d ∧
      (2 * (divideToEven n d * d) = 2 * n + d ∨ 2 * n = 2 * (divideToEven n d * d) + d →
        divideToEven n d % 2 = 0) := by
  have parts := Nat.div_add_mod' n d
  have less := Nat.mod_lt n positive
  unfold divideToEven
  dsimp only
  split
  next => omega
  split
  next =>
    rw [Nat.add_mul]
    omega
  next =>
    rcases Nat.mod_two_eq_zero_or_one (n / d) with even | odd
    · rw [even, Nat.add_zero]
      omega
    · rw [odd, Nat.add_mul]
      omega

/-- The quotient is nearest, and even where two are. -/
theorem divideToEven_nearest (positive : 0 < d) :
    (2 * divideToEven n d : ℚ) ≤ 2 * (n / d) + 1 ∧ 2 * ((n : ℚ) / d) ≤ 2 * divideToEven n d + 1 ∧
      ((2 * divideToEven n d : ℚ) = 2 * (n / d) + 1 ∨ 2 * ((n : ℚ) / d) = 2 * divideToEven n d + 1 →
        divideToEven n d % 2 = 0) := by
  have ratio : (0 : ℚ) < d := by exact_mod_cast positive
  have back (quotient : ℚ) : quotient / d * d = quotient := div_mul_cancel₀ _ ratio.ne'
  obtain ⟨above, below, even⟩ := divideToEven_spec (n := n) positive
  have above' : (2 : ℚ) * (divideToEven n d * d) ≤ 2 * n + d := by exact_mod_cast above
  have below' : (2 : ℚ) * n ≤ 2 * (divideToEven n d * d) + d := by exact_mod_cast below
  refine ⟨?_, ?_, fun ends => even (ends.imp ?_ ?_)⟩
  · refine le_of_mul_le_mul_right ?_ ratio
    linarith [back n]
  · refine le_of_mul_le_mul_right ?_ ratio
    linarith [back n]
  · intro same
    have whole : (2 * (divideToEven n d * d) : ℚ) = 2 * n + d := by
      linear_combination (d : ℚ) * same + 2 * back n
    exact_mod_cast whole
  · intro same
    have whole : (2 * n : ℚ) = 2 * (divideToEven n d * d) + d := by
      linear_combination (d : ℚ) * same - 2 * back n
    exact_mod_cast whole

namespace Binary64

variable {x : Binary64} {value : ℚ} {negative : Bool}

def magnitude (x : Binary64) : ℚ := x.significand * 2 ^ x.exponent

/-- The numbers that are held with all their bits. -/
structure Normal (x : Binary64) : Prop where
  bits : x.significand < 2 ^ 53
  full : 2 ^ 52 ≤ x.significand ∨ x.exponent = -1074
  lowest : -1074 ≤ x.exponent
  highest : x.exponent ≤ 971

/-- What is rounded to a number: all between the midpoints around it, and these if it is even. -/
structure Holds (x : Binary64) (value : ℚ) : Prop where
  least : x.lowerEnd * 2 ^ (x.exponent - 2) ≤ value
  greatest : value ≤ x.upperEnd * 2 ^ (x.exponent - 2)
  even : value = x.lowerEnd * 2 ^ (x.exponent - 2) ∨ value = x.upperEnd * 2 ^ (x.exponent - 2) →
    x.significand % 2 = 0

theorem quarter (x : Binary64) : (2 : ℚ) ^ (x.exponent - 2) = 2 ^ x.exponent / 4 := by
  rw [zpow_sub₀ two_ne_zero]
  norm_num

theorem holds_scaled {scaled : ℚ} (x : Binary64) :
    x.Holds (scaled * 2 ^ x.exponent) ↔
      x.lowerEnd ≤ 4 * scaled ∧ 4 * scaled ≤ x.upperEnd ∧
        (4 * scaled = x.lowerEnd ∨ 4 * scaled = x.upperEnd → x.significand % 2 = 0) := by
  have unit : (0 : ℚ) < 2 ^ (x.exponent - 2) := by positivity
  have same : scaled * 2 ^ x.exponent = 4 * scaled * 2 ^ (x.exponent - 2) := by
    rw [quarter]
    ring
  rw [same]
  constructor
  · rintro ⟨least, greatest, even⟩
    refine ⟨le_of_mul_le_mul_right least unit, le_of_mul_le_mul_right greatest unit, fun ends => even ?_⟩
    exact ends.imp (fun same => by rw [same]) fun same => by rw [same]
  · rintro ⟨least, greatest, even⟩
    refine ⟨mul_le_mul_of_nonneg_right least unit.le, mul_le_mul_of_nonneg_right greatest unit.le, fun ends => even ?_⟩
    exact ends.imp (mul_right_cancel₀ unit.ne') (mul_right_cancel₀ unit.ne')

theorem magnitude_eq (x : Binary64) : x.magnitude = (x.numerator : ℚ) / x.denominator := by
  rw [magnitude, zpow_eq_div two_ne_zero, numerator, denominator]
  push_cast [Nat.pow_eq]
  ring

theorem denominator_pos (x : Binary64) : 0 < x.denominator := Nat.two_pow_pos _

theorem log2_le (some : 0 < n) : (2 : ℚ) ^ (Nat.log2 n : ℤ) ≤ n := by
  rw [zpow_natCast]
  exact_mod_cast Nat.log2_self_le some.ne'

theorem lt_log2 (n : ℕ) : (n : ℚ) < 2 ^ ((Nat.log2 n : ℤ) + 1) := by
  have less : (n : ℚ) < 2 ^ (Nat.log2 n + 1) := by exact_mod_cast Nat.lt_log2_self
  rwa [← zpow_natCast, Nat.cast_succ] at less

theorem bits_mul (bits : ℕ) (place : ℤ) : (2 : ℚ) ^ bits * 2 ^ place = 2 ^ (bits + place) := by
  rw [zpow_add₀ two_ne_zero, zpow_natCast]

/-- The place of the last of 53 bits. -/
theorem lastBit_spec (some : 0 < n) (positive : 0 < d) :
    2 ^ 52 * (2 : ℚ) ^ lastBit n d ≤ (n : ℚ) / d ∧ (n : ℚ) / d < 2 ^ 53 * (2 : ℚ) ^ lastBit n d := by
  have ratio : (0 : ℚ) < d := by exact_mod_cast positive
  -- The lengths of the two numbers leave two places for the last bit.
  have above : (n : ℚ) / d < 2 ^ ((Nat.log2 n : ℤ) - Nat.log2 d + 1) := by
    rw [div_lt_iff₀ ratio]
    calc (n : ℚ) < 2 ^ ((Nat.log2 n : ℤ) + 1) := lt_log2 n
      _ = 2 ^ ((Nat.log2 n : ℤ) - Nat.log2 d + 1) * 2 ^ (Nat.log2 d : ℤ) := by
        rw [← zpow_add₀ two_ne_zero]
        congr 1
        omega
      _ ≤ 2 ^ ((Nat.log2 n : ℤ) - Nat.log2 d + 1) * d :=
        mul_le_mul_of_nonneg_left (log2_le positive) (by positivity)
  have below : (2 : ℚ) ^ ((Nat.log2 n : ℤ) - Nat.log2 d - 1) ≤ (n : ℚ) / d := by
    rw [le_div_iff₀ ratio]
    calc (2 : ℚ) ^ ((Nat.log2 n : ℤ) - Nat.log2 d - 1) * d
        ≤ 2 ^ ((Nat.log2 n : ℤ) - Nat.log2 d - 1) * 2 ^ ((Nat.log2 d : ℤ) + 1) :=
        mul_le_mul_of_nonneg_left (lt_log2 d).le (by positivity)
      _ = 2 ^ (Nat.log2 n : ℤ) := by
        rw [← zpow_add₀ two_ne_zero]
        congr 1
        omega
      _ ≤ n := log2_le some
  unfold lastBit
  dsimp only
  generalize guessed : (Nat.log2 n : ℤ) - Nat.log2 d - 52 = guess
  have bits : n * Nat.pow 2 (-guess).toNat / (d * Nat.pow 2 guess.toNat) < Nat.pow 2 52 ↔
      (n : ℚ) / d < 2 ^ 52 * 2 ^ guess := by
    have scaled : 0 < d * Nat.pow 2 guess.toNat := Nat.mul_pos positive (Nat.two_pow_pos _)
    rw [Nat.div_lt_iff_lt_mul scaled, ← div_lt_iff₀ (by positivity), ← scaled_div,
      div_lt_iff₀ (by exact_mod_cast scaled)]
    exact_mod_cast Iff.rfl
  rw [bits_mul, bits_mul]
  split
  next few =>
    have less := bits.mp few
    rw [bits_mul] at less
    exact ⟨le_of_eq_of_le (by congr 1; push_cast; omega) below, less.trans_eq (by congr 1; push_cast; omega)⟩
  next many =>
    have more := not_lt.mp fun less => many (bits.mpr less)
    rw [bits_mul] at more
    exact ⟨more, above.trans_eq (by congr 1; push_cast; omega)⟩

/-- A quotient of at least 52 bits, or one on the finest grid, is held by the integer nearest to it. -/
theorem holds_nearest {quotient : ℚ} {nearest : ℕ} {place : ℤ} (negative : Bool) (positive : 0 ≤ quotient)
    (full : 2 ^ 52 ≤ quotient ∨ place = -1074) (above : (2 * nearest : ℚ) ≤ 2 * quotient + 1)
    (below : 2 * quotient ≤ 2 * nearest + 1)
    (even : (2 * nearest : ℚ) = 2 * quotient + 1 ∨ 2 * quotient = 2 * nearest + 1 → nearest % 2 = 0) :
    (⟨negative, nearest, place⟩ : Binary64).Holds (quotient * 2 ^ place) := by
  refine (holds_scaled ⟨negative, nearest, place⟩).mpr ?_
  have upper : ((upperEnd ⟨negative, nearest, place⟩ : ℕ) : ℚ) = 4 * nearest + 2 := by
    simp [upperEnd]
  rw [upper, lowerEnd]
  dsimp only
  split
  next least =>
    obtain ⟨rfl, above⟩ := least
    have reached := full.resolve_right (by omega)
    have half : ((4 * Nat.pow 2 52 - 1 : ℕ) : ℚ) = 4 * 2 ^ 52 - 1 := by norm_num [Nat.pow_eq]
    rw [half]
    refine ⟨by linarith, by push_cast [Nat.pow_eq] at below ⊢; linarith, fun _ => rfl⟩
  next =>
    rcases Nat.eq_zero_or_pos nearest with rfl | some
    · refine ⟨by norm_num; linarith, by linarith, fun _ => rfl⟩
    · have half : ((4 * nearest - 2 : ℕ) : ℚ) = 4 * nearest - 2 := by
        rw [Nat.cast_sub (by omega)]
        push_cast
        ring
      rw [half]
      refine ⟨by linarith, by linarith, fun ends => even (ends.imp (fun _ => ?_) fun _ => ?_)⟩
      · linarith
      · linarith

/-- Rounding up may carry into one more bit. The last one is then zero, and stands one place higher. -/
theorem holds_carry {quotient : ℚ} {place : ℤ} (negative : Bool) (lowest : -1074 ≤ place)
    (above : (2 * 2 ^ 53 : ℚ) ≤ 2 * quotient + 1) (under : quotient < 2 ^ 53) :
    (⟨negative, Nat.pow 2 52, place + 1⟩ : Binary64).Holds (quotient * 2 ^ place) := by
  have same : quotient * 2 ^ place = quotient / 2 * 2 ^ (place + 1) := by
    rw [zpow_add_one₀ two_ne_zero]
    ring
  rw [same]
  refine (holds_scaled ⟨negative, Nat.pow 2 52, place + 1⟩).mpr ?_
  have upper : ((upperEnd ⟨negative, Nat.pow 2 52, place + 1⟩ : ℕ) : ℚ) = 4 * 2 ^ 52 + 2 := by
    norm_num [upperEnd, Nat.pow_eq]
  have lower : ((lowerEnd ⟨negative, Nat.pow 2 52, place + 1⟩ : ℕ) : ℚ) = 4 * 2 ^ 52 - 1 := by
    rw [lowerEnd, if_pos ⟨rfl, by dsimp only; omega⟩]
    norm_num [Nat.pow_eq]
  rw [lower, upper]
  exact ⟨by linarith, by linarith, fun _ => by norm_num [Nat.pow_eq]⟩

/-- On its grid a fraction has 53 bits, or fewer where the grid cannot be finer. -/
theorem quotient_bits (some : 0 < n) (positive : 0 < d) {place : ℤ} (chosen : max (lastBit n d) (-1074) = place) :
    (n : ℚ) / d / 2 ^ place < (2 ^ 53 : ℕ) ∧ (((2 ^ 52 : ℕ) : ℚ) ≤ (n : ℚ) / d / 2 ^ place ∨ place = -1074) := by
  obtain ⟨low, high⟩ := lastBit_spec some positive
  push_cast
  constructor
  · rw [div_lt_iff₀ (by positivity)]
    refine high.trans_le (mul_le_mul_of_nonneg_left ?_ (by positivity))
    exact zpow_le_zpow_right₀ one_le_two (chosen ▸ le_max_left _ _)
  · rcases max_choice (lastBit n d) (-1074) with same | same
    · rw [← chosen, same, le_div_iff₀ (by positivity)]
      exact .inl low
    · exact .inr (chosen ▸ same)

theorem nearest_le {quotient : ℚ} {nearest bound : ℕ} (above : (2 * nearest : ℚ) ≤ 2 * quotient + 1)
    (under : quotient < bound) : nearest ≤ bound := by
  have less : (2 * nearest : ℚ) < 2 * bound + 1 := by linarith
  have whole : 2 * nearest < 2 * bound + 1 := by exact_mod_cast less
  omega

theorem le_nearest {quotient : ℚ} {nearest bound : ℕ} (below : 2 * quotient ≤ 2 * nearest + 1)
    (reached : (bound : ℚ) ≤ quotient) : bound ≤ nearest := by
  have more : (2 * bound : ℚ) ≤ 2 * nearest + 1 := by linarith
  have whole : 2 * bound ≤ 2 * nearest + 1 := by exact_mod_cast more
  omega

/-- A fraction is held by the number that it is rounded to. -/
theorem ofFraction_spec (some : 0 < n) (positive : 0 < d) (found : ofFraction negative n d = Option.some x) :
    x.Holds ((n : ℚ) / d) ∧ x.Normal ∧ x.negative = negative := by
  rw [ofFraction, if_neg some.ne'] at found
  dsimp only at found
  generalize chosen : max (lastBit n d) (-1074) = place at found
  have lowest : -1074 ≤ place := chosen ▸ le_max_right _ _
  have denominator : 0 < d * Nat.pow 2 place.toNat := Nat.mul_pos positive (Nat.two_pow_pos _)
  obtain ⟨under, full⟩ := quotient_bits some positive chosen
  obtain ⟨above, below, even⟩ := divideToEven_nearest (n := n * Nat.pow 2 (-place).toNat) denominator
  rw [scaled_div] at above below even
  have whole : (n : ℚ) / d = (n : ℚ) / d / 2 ^ place * 2 ^ place := (div_mul_cancel₀ _ (by positivity)).symm
  have nonnegative : 0 ≤ (n : ℚ) / d / 2 ^ place := by positivity
  rw [whole]
  generalize (n : ℚ) / d / 2 ^ place = quotient at *
  generalize divideToEven _ _ = rounded at *
  split at found
  next carried =>
    subst carried
    split at found
    next => cases found
    next fits =>
      dsimp only at fits found
      cases found
      push_cast [Nat.pow_eq] at above under
      exact ⟨holds_carry negative lowest above under, ⟨by norm_num [Nat.pow_eq], .inl (by norm_num [Nat.pow_eq]),
        by dsimp only; omega, by dsimp only; omega⟩, rfl⟩
  next kept =>
    split at found
    next => cases found
    next fits =>
      dsimp only at fits found
      cases found
      have bits := Nat.lt_of_le_of_ne (nearest_le above under) kept
      have normal : Normal ⟨negative, rounded, place⟩ :=
        ⟨bits, full.imp_left (le_nearest below), lowest, not_lt.mp fits⟩
      push_cast at full
      exact ⟨holds_nearest negative nonnegative full above below even, normal, rfl⟩

/-- The midpoints stand half a place off at most. -/
theorem Holds.near (holds : x.Holds value) :
    x.magnitude - 2 ^ x.exponent / 2 ≤ value ∧ value ≤ x.magnitude + 2 ^ x.exponent / 2 := by
  have unit : (0 : ℚ) < 2 ^ x.exponent := by positivity
  obtain ⟨least, greatest, _⟩ := holds
  rw [quarter] at least greatest
  have upper : (x.upperEnd : ℚ) = 4 * x.significand + 2 := by
    simp [upperEnd]
  have lower : 4 * (x.significand : ℚ) - 2 ≤ x.lowerEnd := by
    have whole : 4 * x.significand ≤ x.lowerEnd + 2 := by
      rw [lowerEnd]
      split <;> omega
    have cast : (4 * x.significand : ℚ) ≤ x.lowerEnd + 2 := by exact_mod_cast whole
    linarith
  rw [upper] at greatest
  have scaled := mul_le_mul_of_nonneg_right lower (by positivity : (0 : ℚ) ≤ 2 ^ x.exponent / 4)
  rw [magnitude]
  exact ⟨by linarith, by linarith⟩

/-- Below a number with all its bits the midpoint is not half a place off at a power of two. -/
theorem Holds.full (holds : x.Holds value) (full : 2 ^ 52 ≤ x.significand) (normal : -1074 < x.exponent) :
    (2 ^ 52 - 1 / 4) * (2 : ℚ) ^ x.exponent ≤ value := by
  have least := holds.least
  rw [quarter] at least
  have lower : 4 * 2 ^ 52 - 1 ≤ (x.lowerEnd : ℚ) := by
    have whole : 4 * 2 ^ 52 ≤ x.lowerEnd + 1 := by
      rw [lowerEnd]
      split
      next => omega
      next apart =>
        have more : x.significand ≠ 2 ^ 52 := fun same => apart ⟨same, normal⟩
        omega
    have cast : (4 * 2 ^ 52 : ℚ) ≤ x.lowerEnd + 1 := by exact_mod_cast whole
    linarith
  have scaled := mul_le_mul_of_nonneg_right lower (by positivity : (0 : ℚ) ≤ 2 ^ x.exponent / 4)
  linarith

/-- Numbers of 53 bits are kept. -/
theorem Holds.exact {bits : ℕ} {place : ℤ} (holds : x.Holds (bits * 2 ^ place)) (normal : x.Normal)
    (few : bits < 2 ^ 53) (lowest : -1074 ≤ place) : x.magnitude = bits * 2 ^ place := by
  have unit : (0 : ℚ) < 2 ^ x.exponent := by positivity
  by_cases coarse : x.exponent ≤ place
  · -- Both are on the grid of the last bit, and not a whole place apart.
    obtain ⟨more, rfl⟩ := Int.le.dest coarse
    have grid : (bits : ℚ) * 2 ^ (x.exponent + more) = (bits * 2 ^ more : ℕ) * 2 ^ x.exponent := by
      rw [zpow_add₀ two_ne_zero, zpow_natCast]
      push_cast
      ring
    have near := holds.near
    rw [grid, magnitude] at near ⊢
    have left : (x.significand : ℚ) < (bits * 2 ^ more : ℕ) + 1 := by
      refine lt_of_mul_lt_mul_right ?_ unit.le
      linarith
    have right : ((bits * 2 ^ more : ℕ) : ℚ) < x.significand + 1 := by
      refine lt_of_mul_lt_mul_right ?_ unit.le
      linarith
    have same : x.significand = bits * 2 ^ more := by
      have left : x.significand < bits * 2 ^ more + 1 := by exact_mod_cast left
      have right : bits * 2 ^ more < x.significand + 1 := by exact_mod_cast right
      omega
    rw [same]
  · -- A number with a lower last bit would need more bits.
    rw [not_le] at coarse
    have reached := holds.full (normal.full.resolve_right (by omega)) (by omega)
    have half : (2 : ℚ) * 2 ^ place ≤ 2 ^ x.exponent := by
      rw [← zpow_one_add₀ two_ne_zero]
      exact zpow_le_zpow_right₀ one_le_two (by omega)
    have small : (bits : ℚ) + 1 ≤ 2 ^ 53 := by exact_mod_cast few
    have positive : (0 : ℚ) < 2 ^ place := by positivity
    have scaled := mul_le_mul_of_nonneg_right small positive.le
    linarith

theorem exists_ofFraction (negative : Bool) (some : 0 < n) (positive : 0 < d)
    (small : (n : ℚ) / d < 2 ^ (200 : ℤ)) : ∃ x, ofFraction negative n d = Option.some x := by
  obtain ⟨low, _⟩ := lastBit_spec some positive
  have bound : lastBit n d < 948 := by
    have less := low.trans_lt small
    rw [bits_mul, zpow_lt_zpow_iff_right₀ one_lt_two] at less
    push_cast at less
    omega
  rw [ofFraction, if_neg some.ne']
  dsimp only
  split
  next => exact ⟨_, if_neg (by dsimp only; omega)⟩
  next => exact ⟨_, if_neg (by dsimp only; omega)⟩

theorem exists_rounded (negative : Bool) (some : 0 < n) (positive : 0 < d) (same : (n : ℚ) / d = value)
    (small : value < 2 ^ (200 : ℤ)) :
    ∃ x, ofFraction negative n d = Option.some x ∧ x.Holds value ∧ x.Normal ∧ x.negative = negative := by
  rw [← same] at small ⊢
  obtain ⟨x, found⟩ := exists_ofFraction negative some positive small
  exact ⟨x, found, ofFraction_spec some positive found⟩

theorem magnitude_pos : 0 < x.magnitude ↔ 0 < x.significand := by
  have unit : (0 : ℚ) < 2 ^ x.exponent := by positivity
  rw [magnitude, mul_pos_iff_of_pos_right unit, Nat.cast_pos]

theorem numerator_pos (some : 0 < x.significand) : 0 < x.numerator := Nat.mul_pos some (Nat.two_pow_pos _)

theorem powerOfTen_spec (places : ℕ) (few : places ≤ 22) :
    ∃ x, powerOfTen places = Option.some x ∧ x.magnitude = 10 ^ places ∧ x.negative = false := by
  have bits : ((Nat.pow 10 places : ℕ) : ℚ) / (1 : ℕ) = (5 ^ places : ℕ) * 2 ^ (places : ℤ) := by
    rw [Nat.cast_one, div_one, zpow_natCast, Nat.pow_eq]
    push_cast
    rw [← mul_pow]
    norm_num
  have small : ((5 ^ places : ℕ) : ℚ) * 2 ^ (places : ℤ) < 2 ^ (200 : ℤ) := by
    have bound : Nat.pow 10 places ≤ 10 ^ 22 := Nat.pow_le_pow_right (by decide) few
    have cast : ((Nat.pow 10 places : ℕ) : ℚ) ≤ (10 ^ 22 : ℕ) := by exact_mod_cast bound
    rw [← bits, Nat.cast_one, div_one]
    exact cast.trans_lt (by norm_num)
  obtain ⟨x, found, holds, normal, sign⟩ :=
    exists_rounded false (Nat.pow_pos (by decide)) Nat.one_pos bits small
  have odd : 5 ^ places < 2 ^ 53 := Nat.lt_of_le_of_lt (Nat.pow_le_pow_right (by decide) few) (by decide)
  refine ⟨x, found, ?_, sign⟩
  rw [holds.exact normal odd (by omega), ← bits]
  push_cast [Nat.pow_eq]
  exact div_one _

/-- A decimal whose digits and whose power of ten are kept is rounded only once. -/
theorem ofDecimal_spec {digits : ℕ} {exponent : ℤ} (negative : Bool) (some : 0 < digits) (few : digits < 2 ^ 53)
    (lowest : -22 ≤ exponent) (highest : exponent ≤ 22) :
    ∃ x, ofDecimal negative digits exponent = Option.some x ∧ x.Holds (digits * 10 ^ exponent) ∧ x.Normal ∧
      x.negative = negative := by
  have limit : (digits : ℚ) < 2 ^ 53 := by exact_mod_cast few
  have bits : (digits : ℚ) / (1 : ℕ) = digits * 2 ^ (0 : ℤ) := by
    rw [Nat.cast_one, div_one, zpow_zero, mul_one]
  obtain ⟨value, found, holds, normal, sign⟩ := exists_rounded negative some Nat.one_pos bits
    (by rw [zpow_zero, mul_one]; exact limit.trans (by norm_num))
  have kept : value.magnitude = digits := by
    rw [holds.exact normal few (by decide), zpow_zero, mul_one]
  have present : 0 < value.significand := magnitude_pos.mp (by rw [kept]; exact_mod_cast some)
  have nonzero : value.isZero = false := by
    rw [isZero, beq_eq_false_iff_ne]
    exact present.ne'
  obtain ⟨power, raised, tens, positive⟩ := powerOfTen_spec exponent.natAbs (by omega)
  have visible : 0 < power.significand := magnitude_pos.mp (by rw [tens]; positivity)
  have small : (digits : ℚ) * 10 ^ exponent < 2 ^ (200 : ℤ) := by
    have tens : (10 : ℚ) ^ exponent ≤ 10 ^ (22 : ℤ) := zpow_le_zpow_right₀ (by norm_num) highest
    refine (mul_le_mul limit.le tens (by positivity) (by positivity)).trans_lt ?_
    norm_num
  have same : (value.negative != power.negative) = negative := by rw [sign, positive, Bool.bne_false]
  rw [magnitude_eq] at kept tens
  rw [ofDecimal, found]
  simp only [Option.bind_eq_bind, Option.bind_some, nonzero, Bool.false_eq_true, if_false,
    if_neg (show ¬308 < exponent by omega)]
  by_cases up : 0 ≤ exponent
  · have product : ((value.numerator * power.numerator : ℕ) : ℚ) / (value.denominator * power.denominator : ℕ) =
        digits * 10 ^ exponent := by
      push_cast
      rw [mul_div_mul_comm, kept, tens, ← zpow_natCast, Int.natAbs_of_nonneg up]
    have places : exponent.natAbs = exponent.toNat := by omega
    rw [places] at raised
    rw [if_pos up, raised]
    have rounded := exists_rounded negative (Nat.mul_pos (numerator_pos present) (numerator_pos visible))
      (Nat.mul_pos value.denominator_pos power.denominator_pos) product small
    rwa [← same] at rounded ⊢
  · have quotient : ((value.numerator * power.denominator : ℕ) : ℚ) / (value.denominator * power.numerator : ℕ) =
        digits * 10 ^ exponent := by
      push_cast
      rw [mul_div_mul_comm, kept, ← inv_div, tens, ← zpow_natCast, ← zpow_neg, Int.natCast_natAbs,
        abs_of_neg (by omega), neg_neg]
    have places : exponent.natAbs = (-exponent).toNat := by omega
    rw [places] at raised
    rw [if_neg up, if_pos (by omega), raised]
    have rounded := exists_rounded negative (Nat.mul_pos (numerator_pos present) power.denominator_pos)
      (Nat.mul_pos value.denominator_pos (numerator_pos visible)) quotient small
    rwa [← same] at rounded ⊢

theorem normal_zero (negative : Bool) : (zero negative).Normal :=
  ⟨Nat.two_pow_pos 53, .inr rfl, Int.le_refl _, show (-1074 : ℤ) ≤ 971 by decide⟩

theorem ofFraction_normal (positive : 0 < d) (found : ofFraction negative n d = some x) :
    x.Normal ∧ x.negative = negative := by
  rcases Nat.eq_zero_or_pos n with rfl | some
  · cases found
    exact ⟨normal_zero negative, rfl⟩
  · exact (ofFraction_spec some positive found).2

/-- Only what is tiny is held by zero. -/
theorem Holds.significand_pos (holds : x.Holds value) (normal : x.Normal) (large : 2 ^ (-1074 : ℤ) ≤ value) :
    0 < x.significand := by
  refine Nat.pos_of_ne_zero fun none => ?_
  have finest : x.exponent = -1074 := normal.full.resolve_left (by rw [none]; decide)
  have near := holds.near.2
  rw [magnitude, none, finest, Nat.cast_zero, zero_mul, zero_add] at near
  have unit : (0 : ℚ) < 2 ^ (-1074 : ℤ) := by positivity
  linarith

theorem tiny_le_decimal {digits : ℕ} {exponent : ℤ} (some : 0 < digits) (lowest : -22 ≤ exponent) :
    (2 : ℚ) ^ (-1074 : ℤ) ≤ digits * 10 ^ exponent := by
  calc (2 : ℚ) ^ (-1074 : ℤ) ≤ 2 ^ (-100 : ℤ) := zpow_le_zpow_right₀ one_le_two (by decide)
    _ ≤ 10 ^ (-22 : ℤ) := by norm_num
    _ ≤ 10 ^ exponent := zpow_le_zpow_right₀ (by norm_num) lowest
    _ ≤ digits * 10 ^ exponent := le_mul_of_one_le_left (by positivity) (by exact_mod_cast some)

theorem powerOfTen_pos {places : ℕ} (found : powerOfTen places = some x) : 0 < x.numerator := by
  obtain ⟨holds, normal, _⟩ := ofFraction_spec (n := Nat.pow 10 places) (Nat.pow_pos (by decide)) Nat.one_pos found
  refine numerator_pos (holds.significand_pos normal ?_)
  have one : 1 ≤ ((Nat.pow 10 places : ℕ) : ℚ) := by exact_mod_cast Nat.one_le_pow _ _ (by decide)
  rw [Nat.cast_one, div_one]
  exact (zpow_le_one_of_nonpos₀ one_le_two (by decide)).trans one

theorem multiply_normal {y : Binary64} {z : Binary64} (positive : y.negative = false)
    (found : x.multiply y = some z) : z.Normal ∧ z.negative = x.negative := by
  have rounded := ofFraction_normal (Nat.mul_pos x.denominator_pos y.denominator_pos) found
  rwa [positive, Bool.bne_false] at rounded

theorem divide_normal {y : Binary64} {z : Binary64} (positive : y.negative = false) (some : 0 < y.numerator)
    (found : x.divide y = Option.some z) : z.Normal ∧ z.negative = x.negative := by
  have rounded := ofFraction_normal (Nat.mul_pos x.denominator_pos some) found
  rwa [positive, Bool.bne_false] at rounded

theorem powerOfTen_negative {places : ℕ} (found : powerOfTen places = some x) : x.negative = false :=
  (ofFraction_normal Nat.one_pos found).2

theorem ofDecimal_normal {digits : ℕ} {exponent : ℤ} (found : ofDecimal negative digits exponent = some x) :
    x.Normal ∧ x.negative = negative := by
  simp only [ofDecimal, Option.bind_eq_bind, Option.bind_eq_some_iff] at found
  obtain ⟨value, whole, found⟩ := found
  have kept := ofFraction_normal Nat.one_pos whole
  split at found
  next =>
    cases found
    exact kept
  split at found
  next => cases found
  split at found
  next =>
    obtain ⟨power, tens, found⟩ := Option.bind_eq_some_iff.mp found
    obtain ⟨normal, same⟩ := multiply_normal (powerOfTen_negative tens) found
    exact ⟨normal, same.trans kept.2⟩
  split at found
  next =>
    obtain ⟨power, tens, found⟩ := Option.bind_eq_some_iff.mp found
    obtain ⟨normal, same⟩ := divide_normal (powerOfTen_negative tens) (powerOfTen_pos tens) found
    exact ⟨normal, same.trans kept.2⟩
  split at found
  next =>
    obtain ⟨power, tens, found⟩ := Option.bind_eq_some_iff.mp found
    obtain ⟨scaled, once, found⟩ := Option.bind_eq_some_iff.mp found
    obtain ⟨_, first⟩ := divide_normal (powerOfTen_negative tens) (powerOfTen_pos tens) once
    obtain ⟨power, tens, found⟩ := Option.bind_eq_some_iff.mp found
    obtain ⟨normal, same⟩ := divide_normal (powerOfTen_negative tens) (powerOfTen_pos tens) found
    exact ⟨normal, same.trans (first.trans kept.2)⟩
  next =>
    cases found
    exact ⟨normal_zero negative, rfl⟩

end Binary64

end Pagewright.Decimal
