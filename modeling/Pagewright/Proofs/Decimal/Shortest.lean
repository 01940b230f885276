import Mathlib.Data.Nat.Log
import Pagewright.Proofs.Decimal.Rounding

/-! The search for the fewest digits. A decimal that stands far enough from its neighbours on the grid of
its last digit is the only one there that reads back, and then the search ends at it. -/

namespace Pagewright.Decimal

def Scientific.value (decimal : Scientific) : ℚ := decimal.digits * 10 ^ decimal.exponent

variable {a b : ℕ} {i j : ℤ}

theorem decimalAtMost_iff : decimalAtMost a i b j = true ↔ (a : ℚ) * 10 ^ i ≤ b * 2 ^ j := by
  have tens : (0 : ℚ) < 10 ^ (-i).toNat := by positivity
  have twos : (0 : ℚ) < 2 ^ (-j).toNat := by positivity
  rw [zpow_eq_div (by norm_num) i, zpow_eq_div two_ne_zero j, ← mul_div_assoc, ← mul_div_assoc,
    div_le_div_iff₀ tens twos, decimalAtMost, decide_eq_true_eq]
  simp only [Nat.pow_eq]
  exact_mod_cast Iff.rfl

theorem decimalAtLeast_iff : decimalAtLeast a i b j = true ↔ (b : ℚ) * 2 ^ j ≤ a * 10 ^ i := by
  have tens : (0 : ℚ) < 10 ^ (-i).toNat := by positivity
  have twos : (0 : ℚ) < 2 ^ (-j).toNat := by positivity
  rw [zpow_eq_div (by norm_num) i, zpow_eq_div two_ne_zero j, ← mul_div_assoc, ← mul_div_assoc,
    div_le_div_iff₀ twos tens, decimalAtLeast, decide_eq_true_eq]
  simp only [Nat.pow_eq]
  exact_mod_cast Iff.rfl

namespace Binary64

variable {x : Binary64} {decimal : Scientific} {place : ℤ} {digits digits' : ℕ}

theorem readsBack_iff : x.readsBack decimal = true ↔ x.Holds decimal.value := by
  have sameParity : (x.significand % 2 == 0) = true ↔ x.significand % 2 = 0 := beq_iff_eq
  rw [readsBack]
  simp only [Bool.and_eq_true, Bool.or_eq_true, Bool.not_eq_true', sameParity, ← Bool.not_eq_true,
    decimalAtMost_iff, decimalAtLeast_iff]
  constructor
  · rintro ⟨⟨least, greatest⟩, inside⟩
    refine ⟨least, greatest, fun ends => inside.resolve_right fun apart => apart ?_⟩
    exact ends.imp le_of_eq ge_of_eq
  · rintro ⟨least, greatest, even⟩
    refine ⟨⟨least, greatest⟩, or_iff_not_imp_left.mpr fun odd ends => odd (even ?_)⟩
    exact ends.imp least.antisymm' greatest.antisymm

theorem floorOn_spec (x : Binary64) (place : ℤ) :
    (x.floorOn place : ℚ) * 10 ^ place ≤ x.magnitude ∧ x.magnitude < (x.floorOn place + 1) * 10 ^ place := by
  have tens : (0 : ℚ) < 10 ^ (-place).toNat := by positivity
  have grid : 0 < x.denominator * 10 ^ place.toNat := Nat.mul_pos x.denominator_pos (Nat.pow_pos (by decide))
  have bottom : (0 : ℚ) < x.denominator := by exact_mod_cast x.denominator_pos
  rw [magnitude_eq, zpow_eq_div (by norm_num) place, ← mul_div_assoc, ← mul_div_assoc, div_le_div_iff₀ tens bottom,
    div_lt_div_iff₀ bottom tens, floorOn]
  simp only [Nat.pow_eq]
  have below := Nat.div_mul_le_self (x.numerator * 10 ^ (-place).toNat) (x.denominator * 10 ^ place.toNat)
  have above := Nat.lt_div_mul_add (a := x.numerator * 10 ^ (-place).toNat) grid
  generalize x.numerator * 10 ^ (-place).toNat / (x.denominator * 10 ^ place.toNat) = quotient at *
  constructor
  · have cast : (quotient : ℚ) * (x.denominator * 10 ^ place.toNat) ≤ x.numerator * 10 ^ (-place).toNat := by
      exact_mod_cast below
    linarith
  · have cast : (x.numerator : ℚ) * 10 ^ (-place).toNat <
        quotient * (x.denominator * 10 ^ place.toNat) + x.denominator * 10 ^ place.toNat := by
      exact_mod_cast above
    linarith

/-- A grid that is coarser than the last bit has no two points that are rounded to one number. -/
theorem Holds.unique (first : x.Holds (digits * 10 ^ place)) (second : x.Holds (digits' * 10 ^ place))
    (coarse : (2 : ℚ) ^ x.exponent < 10 ^ place) : digits = digits' := by
  have apart {one other : ℕ} (first : x.Holds (one * 10 ^ place)) (second : x.Holds (other * 10 ^ place)) :
      one < other + 1 := by
    have step : (one : ℚ) * 10 ^ place < (other + 1) * 10 ^ place := by
      linarith [first.near.2, second.near.1]
    exact_mod_cast lt_of_mul_lt_mul_right step (by positivity)
  have := apart first second
  have := apart second first
  omega

/-- On such a grid it is one of the two points around the number. -/
theorem Holds.floorOn (holds : x.Holds (digits * 10 ^ place)) (coarse : (2 : ℚ) ^ x.exponent < 10 ^ place) :
    x.floorOn place = digits ∨ x.floorOn place + 1 = digits := by
  obtain ⟨below, above⟩ := x.floorOn_spec place
  have unit : (0 : ℚ) < 10 ^ place := by positivity
  have left : (x.floorOn place : ℚ) < digits + 1 := by
    refine lt_of_mul_lt_mul_right ?_ unit.le
    linarith [holds.near.1]
  have right : (digits : ℚ) < x.floorOn place + 1 + 1 := by
    refine lt_of_mul_lt_mul_right ?_ unit.le
    linarith [holds.near.2]
  have left : x.floorOn place < digits + 1 := by exact_mod_cast left
  have right : digits < x.floorOn place + 1 + 1 := by exact_mod_cast right
  omega

theorem onGrid_spec (found : x.onGrid place = some decimal) :
    decimal.exponent = place ∧ x.Holds decimal.value := by
  simp only [onGrid] at found
  split at found
  next below above =>
    cases found
    split
    next => exact ⟨rfl, readsBack_iff.mp above⟩
    next => exact ⟨rfl, readsBack_iff.mp below⟩
  next below _ =>
    cases found
    exact ⟨rfl, readsBack_iff.mp below⟩
  next above =>
    cases found
    exact ⟨rfl, readsBack_iff.mp above⟩
  next => cases found

theorem onGrid_of_holds (holds : x.Holds (digits * 10 ^ place)) (coarse : (2 : ℚ) ^ x.exponent < 10 ^ place) :
    x.onGrid place = some ⟨digits, place⟩ := by
  have back : x.readsBack ⟨digits, place⟩ = true := readsBack_iff.mpr holds
  have some : ∃ decimal, x.onGrid place = some decimal := by
    rw [onGrid]
    rcases holds.floorOn coarse with same | same
    · rw [same]
      cases above : x.readsBack ⟨digits + 1, place⟩ <;> exact ⟨_, by rw [back]⟩
    · rw [same]
      cases below : x.readsBack ⟨x.floorOn place, place⟩ <;> exact ⟨_, by rw [back]⟩
  obtain ⟨⟨found, exponent⟩, reads⟩ := some
  obtain ⟨rfl, held⟩ := onGrid_spec reads
  have same : found = digits := held.unique holds coarse
  rw [reads, same]

/-- No grid before that of the last digit has a point that reads back and is another number. -/
theorem searchGrids_value {digits tries : ℕ} {place last : ℤ} (holds : x.Holds (digits * 10 ^ last))
    (coarse : (2 : ℚ) ^ x.exponent < 10 ^ min place last) (more : place < last + tries) (some : 0 < tries) :
    (x.searchGrids place tries).value = digits * 10 ^ last := by
  induction tries generalizing place with
  | zero => cases some
  | succ tries ih =>
    have finer {digits : ℕ} {place last : ℤ} (before : last ≤ place) :
        (digits : ℚ) * 10 ^ place = (digits * 10 ^ (place - last).toNat : ℕ) * 10 ^ last := by
      push_cast
      rw [mul_assoc, ← zpow_natCast, ← zpow_add₀ (by norm_num)]
      congr 2
      omega
    rw [searchGrids]
    rcases le_or_gt place last with here | before
    · rw [min_eq_left here] at coarse
      rw [finer here] at holds ⊢
      rw [onGrid_of_holds holds coarse]
      rfl
    · rw [min_eq_right before.le] at coarse
      cases found : x.onGrid place with
      | none => exact ih (by rwa [min_eq_right (by omega)]) (by push_cast at more; omega) (by push_cast at more; omega)
      | some decimal =>
        obtain ⟨rfl, held⟩ := onGrid_spec found
        rw [Scientific.value, finer before.le] at held
        rw [Option.getD_some, Scientific.value, finer before.le, held.unique holds coarse]

/-- One comparison of powers of two bases bounds the exponents in all others. -/
theorem zpow_le_zpow_of_base {c d : ℚ} {s t k m : ℤ} (one : 1 ≤ c) (positive : 0 < d) (base : c ^ s ≤ d ^ t)
    (some : 0 < t) (up : 0 ≤ m) (slope : t * k ≤ s * m) : c ^ k ≤ d ^ m := by
  have unit : 0 < c := one_pos.trans_le one
  rw [← zpow_le_zpow_iff_left₀ (zpow_nonneg unit.le k) (zpow_nonneg positive.le m) some]
  calc (c ^ k) ^ t = c ^ (t * k) := by rw [← zpow_mul, mul_comm]
    _ ≤ c ^ (s * m) := zpow_le_zpow_right₀ one slope
    _ = (c ^ s) ^ m := zpow_mul c s m
    _ ≤ (d ^ t) ^ m := zpow_le_zpow_left₀ up (zpow_nonneg unit.le s) base
    _ = (d ^ m) ^ t := by rw [← zpow_mul, ← zpow_mul, mul_comm]

/-- The guess takes a logarithm that is a little too large, which does not show in this range. -/
theorem two_zpow_between (bits : ℤ) (lowest : -1074 ≤ bits) (highest : bits ≤ 1074) :
    (10 : ℚ) ^ (bits * 30103 / 100000 - 1) ≤ 2 ^ bits ∧ (2 : ℚ) ^ bits ≤ 10 ^ (bits * 30103 / 100000 + 2) := by
  generalize guessed : bits * 30103 / 100000 = guess
  have tens {k m : ℤ} (up : 0 ≤ m) (slope : 196 * k ≤ 59 * m) : (10 : ℚ) ^ k ≤ 2 ^ m :=
    zpow_le_zpow_of_base (by norm_num) two_pos (by norm_num) (by norm_num) up slope
  have twos {k m : ℤ} (up : 0 ≤ m) (slope : 28 * k ≤ 93 * m) : (2 : ℚ) ^ k ≤ 10 ^ m :=
    zpow_le_zpow_of_base one_le_two (by norm_num) (by norm_num) (by norm_num) up slope
  rcases le_or_gt 0 bits with up | down
  · exact ⟨tens up (by omega), twos (by omega) (by omega)⟩
  · have ten (k : ℤ) : (0 : ℚ) < 10 ^ k := by positivity
    have two (k : ℤ) : (0 : ℚ) < 2 ^ k := by positivity
    constructor
    · rw [← inv_le_inv₀ (two _) (ten _), ← zpow_neg, ← zpow_neg]
      exact twos (by omega) (by omega)
    · rw [← inv_le_inv₀ (ten _) (two _), ← zpow_neg, ← zpow_neg]
      exact tens (by omega) (by omega)

/-- The leading place is never too large, and too small by a few places at most. -/
theorem leadingPlace_spec (normal : x.Normal) (some : 0 < x.significand) :
    (10 : ℚ) ^ x.leadingPlace ≤ x.magnitude ∧ x.magnitude < 10 ^ (x.leadingPlace + 4) := by
  have length : Nat.log2 x.significand < 53 := (Nat.log2_lt some.ne').mpr normal.bits
  have unit : (0 : ℚ) < 2 ^ x.exponent := by positivity
  obtain ⟨below, above⟩ := two_zpow_between ((Nat.log2 x.significand : ℤ) + x.exponent)
    (by have := normal.lowest; omega) (by have := normal.highest; omega)
  have reached : (2 : ℚ) ^ ((Nat.log2 x.significand : ℤ) + x.exponent) ≤ x.magnitude := by
    rw [zpow_add₀ two_ne_zero]
    exact mul_le_mul_of_nonneg_right (log2_le some) unit.le
  have under : x.magnitude < 2 * 2 ^ ((Nat.log2 x.significand : ℤ) + x.exponent) := by
    have step : (2 : ℚ) * 2 ^ ((Nat.log2 x.significand : ℤ) + x.exponent) =
        2 ^ ((Nat.log2 x.significand : ℤ) + 1) * 2 ^ x.exponent := by
      rw [← zpow_one_add₀ two_ne_zero, ← zpow_add₀ two_ne_zero]
      congr 1
      omega
    rw [step]
    exact mul_lt_mul_of_pos_right (lt_log2 _) unit
  rw [leadingPlace]
  generalize ((Nat.log2 x.significand : ℤ) + x.exponent) * 30103 / 100000 = guess at *
  have bound {place : ℤ} (near : guess ≤ place + 1) : x.magnitude < 10 ^ (place + 4) := by
    calc x.magnitude < 2 * 10 ^ (guess + 2) := under.trans_le (mul_le_mul_of_nonneg_left above two_pos.le)
      _ ≤ 10 * 10 ^ (guess + 2) := mul_le_mul_of_nonneg_right (by norm_num) (by positivity)
      _ = 10 ^ (guess + 3) := by rw [← zpow_one_add₀ (by norm_num)]; congr 1; omega
      _ ≤ 10 ^ (place + 4) := zpow_le_zpow_right₀ (by norm_num) (by omega)
  have found {place : ℤ} (least : decimalAtMost 1 place x.significand x.exponent = true) :
      (10 : ℚ) ^ place ≤ x.magnitude := by
    have most := decimalAtMost_iff.mp least
    rwa [Nat.cast_one, one_mul] at most
  split
  next least => exact ⟨found least, bound (by omega)⟩
  split
  next least => exact ⟨found least, bound (by omega)⟩
  next => exact ⟨below.trans reached, bound (by omega)⟩

/-- The last bit stands fifteen decimal places below any number with all its bits. -/
theorem Holds.coarse {value : ℚ} (holds : x.Holds value) (normal : x.Normal) (lowest : -50 ≤ place)
    (small : value < 10 ^ (place + 15)) : (2 : ℚ) ^ x.exponent < 10 ^ place := by
  by_cases finest : x.exponent = -1074
  · rw [finest]
    calc (2 : ℚ) ^ (-1074 : ℤ) ≤ 2 ^ (-200 : ℤ) := zpow_le_zpow_right₀ one_le_two (by decide)
      _ < 10 ^ (-50 : ℤ) := by norm_num
      _ ≤ 10 ^ place := zpow_le_zpow_right₀ (by norm_num) lowest
  · have reached := holds.full (normal.full.resolve_right finest) (by have := normal.lowest; omega)
    rw [zpow_add₀ (by norm_num)] at small
    have unit : (0 : ℚ) < 2 ^ x.exponent := by positivity
    norm_num at reached small
    linarith

/-- What a number holds is at most half of it away. -/
theorem Holds.within {value : ℚ} (holds : x.Holds value) (some : 0 < x.significand) :
    x.magnitude ≤ 2 * value ∧ 2 * value ≤ 3 * x.magnitude := by
  have unit : (2 : ℚ) ^ x.exponent ≤ x.magnitude := by
    rw [magnitude]
    exact le_mul_of_one_le_left (by positivity) (by exact_mod_cast some)
  have near := holds.near
  exact ⟨by linarith, by linarith⟩

/-- The fewest digits that read back are those that were read, if these were fifteen at most. -/
theorem shortest_value {digits : ℕ} {exponent : ℤ} (holds : x.Holds (digits * 10 ^ exponent))
    (normal : x.Normal) (some : 0 < digits) (few : digits < 10 ^ 15) (lowest : -22 ≤ exponent) :
    x.shortest.value = digits * 10 ^ exponent := by
  have ten : (1 : ℚ) < 10 := by norm_num
  have less : (digits : ℚ) * 10 ^ exponent < 10 ^ (exponent + 15) := by
    rw [add_comm, zpow_add₀ (by norm_num)]
    exact mul_lt_mul_of_pos_right (by exact_mod_cast few) (by positivity)
  have least : (10 : ℚ) ^ (-22 : ℤ) ≤ digits * 10 ^ exponent := by
    refine (zpow_le_zpow_right₀ ten.le lowest).trans (le_mul_of_one_le_left (by positivity) ?_)
    exact_mod_cast some
  have present := holds.significand_pos normal (tiny_le_decimal some lowest)
  obtain ⟨from_above, from_below⟩ := holds.within present
  obtain ⟨reached, under⟩ := leadingPlace_spec normal present
  have step (place : ℤ) : (10 : ℚ) ^ (place + 1) = 10 * 10 ^ place := by
    rw [zpow_add_one₀ (by norm_num), mul_comm]
  have start : x.leadingPlace < exponent + 15 + 1 := by
    rw [← zpow_lt_zpow_iff_right₀ ten, step]
    have positive : (0 : ℚ) < 10 ^ (exponent + 15) := by positivity
    linarith
  have close : (digits : ℚ) * 10 ^ exponent < 10 ^ (x.leadingPlace + 4 + 1) := by
    rw [step]
    have positive : (0 : ℚ) < 10 ^ (x.leadingPlace + 4) := by positivity
    linarith
  have above : -22 < x.leadingPlace + 4 + 1 :=
    (zpow_lt_zpow_iff_right₀ ten).mp (least.trans_lt close)
  have later : (digits : ℚ) * 10 ^ exponent < 10 ^ (x.leadingPlace + 15) :=
    close.trans_le (zpow_le_zpow_right₀ ten.le (by omega))
  refine searchGrids_value holds (holds.coarse normal (by omega) ?_) (by push_cast; omega) (by decide)
  rcases min_choice x.leadingPlace exponent with same | same
  · rwa [same]
  · rwa [same]

/-- A search that finds nothing ends far enough behind the leading digit. -/
theorem searchGrids_pos {tries : ℕ} (normal : x.Normal) (some : 0 < x.significand) (before : place ≤ x.leadingPlace) :
    0 < (x.searchGrids place tries).digits := by
  induction tries generalizing place with
  | zero =>
    refine Nat.pos_of_ne_zero fun none => ?_
    have above := (x.floorOn_spec place).2
    change x.floorOn place = 0 at none
    rw [none, Nat.cast_zero, zero_add, one_mul] at above
    have reached := (leadingPlace_spec normal some).1
    have less := (zpow_lt_zpow_iff_right₀ (by norm_num)).mp (reached.trans_lt above)
    omega
  | succ tries ih =>
    rw [searchGrids]
    cases found : x.onGrid place with
    | none => exact ih (by omega)
    | some decimal =>
      refine Nat.pos_of_ne_zero fun none => ?_
      rw [Option.getD_some] at none
      have back := ((onGrid_spec found).2.within some).1
      rw [Scientific.value, none, Nat.cast_zero, zero_mul, mul_zero] at back
      exact absurd (magnitude_pos.mpr some) (not_lt.mpr back)

theorem shortest_pos (normal : x.Normal) (some : 0 < x.significand) : 0 < x.shortest.digits :=
  searchGrids_pos normal some (Int.le_refl _)

end Binary64

end Pagewright.Decimal
