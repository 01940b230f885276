import Mathlib.Algebra.Group.Nat.Defs
import Mathlib.Data.List.Induction
import Pagewright.Text.Blank
import Pagewright.Text.Integer

/-! Numbers in decimal. What is written for a number is read as that number, and digits without a zero
in front are what is written for the number that they spell. -/

namespace Pagewright.Text

variable {c : Char} {n m : Nat} {digits front back : List Char}

theorem isAsciiDigit_of_mem_writeNatural (member : c ∈ writeNatural n) : isAsciiDigit c = true := by
  have digit := Nat.isDigit_of_mem_toDigits (by decide) (by decide) member
  simpa only [Char.isDigit, isAsciiDigit, Bool.and_eq_true, decide_eq_true_eq] using! digit

theorem writeNatural_ne_nil (n : Nat) : writeNatural n ≠ [] := Nat.toDigits_ne_nil

theorem readDigits_eq (digits : List Char) : readDigits digits = Nat.ofDigitChars 10 digits 0 := by
  rw [Nat.ofDigitChars_eq_foldl]
  rfl

theorem readDigits_writeNatural (n : Nat) : readDigits (writeNatural n) = n := by
  rw [readDigits_eq, writeNatural, Nat.ofDigitChars_ten_toDigits]

theorem writeNatural_injective (same : writeNatural n = writeNatural m) : n = m := by
  rw [← readDigits_writeNatural n, same, readDigits_writeNatural]

theorem readDigits_append (front back : List Char) :
    readDigits (front ++ back) = readDigits front * 10 ^ back.length + readDigits back := by
  rw [readDigits_eq, readDigits_eq, readDigits_eq, Nat.ofDigitChars_append, Nat.ofDigitChars_eq_ofDigitChars_zero,
    Nat.mul_comm]

theorem readDigits_replicate (count : Nat) : readDigits (List.replicate count '0') = 0 := by
  rw [readDigits_eq, Nat.ofDigitChars_replicate_zero, Nat.mul_zero]

theorem writeNatural_of_lt (small : n < 10) : writeNatural n = [n.digitChar] := Nat.toDigits_of_lt_base small

/-- The last digit stands behind those of the tenth part. -/
theorem writeNatural_snoc (some : 0 < n) {d : Nat} (small : d < 10) :
    writeNatural (10 * n + d) = writeNatural n ++ [d.digitChar] := by
  rw [← writeNatural_of_lt small]
  exact (Nat.toDigits_append_toDigits (by decide) some small).symm

theorem writeNatural_mul_pow (some : 0 < n) (zeros : Nat) :
    writeNatural (n * 10 ^ zeros) = writeNatural n ++ List.replicate zeros '0' := by
  induction zeros with
  | zero => rw [Nat.pow_zero, Nat.mul_one, List.replicate_zero, List.append_nil]
  | succ zeros ih =>
    have positive : 0 < n * 10 ^ zeros := Nat.mul_pos some (Nat.pow_pos (by decide))
    have tenth : n * 10 ^ (zeros + 1) = 10 * (n * 10 ^ zeros) + 0 := by
      rw [Nat.pow_succ]
      ac_rfl
    rw [tenth, writeNatural_snoc positive (by decide), ih, List.append_assoc, List.replicate_succ']
    rfl

theorem digitChar_digitValue (digit : isAsciiDigit c = true) : (digitValue c).digitChar = c := by
  simp only [isAsciiDigit, Bool.and_eq_true, decide_eq_true_eq] at digit
  refine Char.toNat_inj.mp ?_
  rw [digitValue, Nat.toNat_digitChar_of_lt_ten (by omega)]
  omega

theorem digitValue_lt (digit : isAsciiDigit c = true) : digitValue c < 10 := by
  simp only [isAsciiDigit, Bool.and_eq_true, decide_eq_true_eq] at digit
  rw [digitValue]
  omega

theorem readDigits_snoc (digits : List Char) (c : Char) :
    readDigits (digits ++ [c]) = 10 * readDigits digits + digitValue c := by
  rw [readDigits, List.foldl_append]
  rfl

theorem readDigits_pos (ascii : ∀ c ∈ digits, isAsciiDigit c = true) (present : digits ≠ [])
    (leading : digits.head? ≠ some '0') : 0 < readDigits digits := by
  obtain ⟨d, rest, rfl⟩ := List.exists_cons_of_ne_nil present
  have digit := ascii d List.mem_cons_self
  have nonzero : 0 < digitValue d := by
    refine Nat.pos_of_ne_zero fun zero => leading ?_
    rw [List.head?_cons, ← digitChar_digitValue digit, zero]
    rfl
  have split : readDigits (d :: rest) = readDigits [d] * 10 ^ rest.length + readDigits rest :=
    readDigits_append [d] rest
  have single : readDigits [d] = digitValue d := by
    rw [readDigits, List.foldl_cons, List.foldl_nil, Nat.mul_zero, Nat.zero_add]
  rw [split, single]
  exact Nat.add_pos_left (Nat.mul_pos nonzero (Nat.pow_pos (by decide))) _

/-- Digits of which only a single one may be a zero in front. -/
theorem writeNatural_readDigits (ascii : ∀ c ∈ digits, isAsciiDigit c = true) (present : digits ≠ [])
    (leading : ∀ tail, digits = '0' :: tail → tail = []) : writeNatural (readDigits digits) = digits := by
  induction digits using List.reverseRecOn with
  | nil => exact absurd rfl present
  | append_singleton front last ih =>
    obtain ⟨digitsFront, digitLast⟩ := List.forall_mem_append.mp ascii
    have digit := digitLast last List.mem_cons_self
    rw [readDigits_snoc]
    by_cases single : front = []
    · subst single
      rw [List.nil_append]
      change writeNatural (0 + digitValue last) = _
      rw [Nat.zero_add, writeNatural_of_lt (digitValue_lt digit), digitChar_digitValue digit]
    · have first : front.head? ≠ some '0' := by
        intro zero
        obtain ⟨tail, rfl⟩ := List.head?_eq_some_iff.mp zero
        exact absurd (leading _ (List.cons_append ..)) (by simp)
      have here := ih digitsFront single fun tail same => absurd (by rw [same]; rfl) first
      rw [writeNatural_snoc (readDigits_pos digitsFront single first) (digitValue_lt digit), here,
        digitChar_digitValue digit]

theorem last_writeNatural (tail : n % 10 ≠ 0) : (writeNatural n).getLast? ≠ some '0' := by
  have nonzero : ∀ d < 10, d ≠ 0 → d.digitChar ≠ '0' := by decide
  have digit := nonzero (n % 10) (Nat.mod_lt _ (by decide)) tail
  rcases Nat.lt_or_ge n 10 with small | large
  · rw [writeNatural_of_lt small, ← Nat.mod_eq_of_lt small]
    simpa using digit
  · have parts := Nat.div_add_mod n 10
    rw [← parts, writeNatural_snoc (by omega) (Nat.mod_lt _ (by decide)), List.getLast?_concat]
    simpa using digit

/-- Only the number zero is written with a zero in front. -/
theorem writeNatural_zero_cons {rest : List Char} (written : writeNatural n = '0' :: rest) : rest = [] := by
  have leading : ∀ n rest, Nat.toDigits 10 n = '0' :: rest → n = 0 := by
    intro n
    induction n using Nat.strongRecOn with
    | ind n ih =>
      intro rest written
      rw [Nat.toDigits_eq_if (by decide)] at written
      split at written
      next small =>
        have digits : ∀ n < 10, n.digitChar = '0' → n = 0 := by decide
        exact digits n small (List.cons.inj written).1
      next large =>
        obtain ⟨d, digits, front⟩ := List.exists_cons_of_ne_nil (Nat.toDigits_ne_nil (n := n / 10) (b := 10))
        rw [front, List.cons_append] at written
        have none := ih (n / 10) (by omega) digits (front.trans (by rw [(List.cons.inj written).1]))
        omega
  have zero := leading n rest written
  subst zero
  exact (List.cons.inj written).2.symm

section Integers

variable {text digits : List Char} {value : Int}

/-- A number in decimal, with a sign in front or none. -/
inductive Numeral : List Char → Int → Prop where
  | plain {digits : List Char} (nonempty : digits ≠ []) (ascii : ∀ c ∈ digits, isAsciiDigit c = true) :
      Numeral digits (readDigits digits)
  | plus {digits : List Char} (nonempty : digits ≠ []) (ascii : ∀ c ∈ digits, isAsciiDigit c = true) :
      Numeral ('+' :: digits) (readDigits digits)
  | minus {digits : List Char} (nonempty : digits ≠ []) (ascii : ∀ c ∈ digits, isAsciiDigit c = true) :
      Numeral ('-' :: digits) (-readDigits digits)

theorem readInteger_minus : readInteger ('-' :: digits) = some value ↔
    digits ≠ [] ∧ (∀ c ∈ digits, isAsciiDigit c = true) ∧ -(readDigits digits : Int) = value := by
  simp [readInteger, and_assoc]

theorem readInteger_plus : readInteger ('+' :: digits) = some value ↔
    digits ≠ [] ∧ (∀ c ∈ digits, isAsciiDigit c = true) ∧ (readDigits digits : Int) = value := by
  simp [readInteger, and_assoc]

theorem readInteger_unsigned (plus : text.head? ≠ some '+') (minus : text.head? ≠ some '-') :
    readInteger text = some value ↔
      text ≠ [] ∧ (∀ c ∈ text, isAsciiDigit c = true) ∧ (readDigits text : Int) = value := by
  cases text with
  | nil => simp [readInteger]
  | cons c rest =>
    have noPlus : c ≠ '+' := by simpa using plus
    have noMinus : c ≠ '-' := by simpa using minus
    simp [readInteger, noPlus, noMinus, and_assoc]

theorem head_of_ascii {c : Char} (sign : isAsciiDigit c = false) (ascii : ∀ c ∈ digits, isAsciiDigit c = true) :
    digits.head? ≠ some c := by
  intro starts
  have digit := ascii c (List.mem_of_head? starts)
  rw [sign] at digit
  cases digit

theorem readInteger_eq_some : readInteger text = some value ↔ Numeral text value := by
  constructor
  · intro read
    by_cases plus : text.head? = some '+'
    · obtain ⟨digits, rfl⟩ := List.head?_eq_some_iff.mp plus
      obtain ⟨nonempty, ascii, rfl⟩ := readInteger_plus.mp read
      exact .plus nonempty ascii
    by_cases minus : text.head? = some '-'
    · obtain ⟨digits, rfl⟩ := List.head?_eq_some_iff.mp minus
      obtain ⟨nonempty, ascii, rfl⟩ := readInteger_minus.mp read
      exact .minus nonempty ascii
    · obtain ⟨nonempty, ascii, rfl⟩ := (readInteger_unsigned plus minus).mp read
      exact .plain nonempty ascii
  · intro numeral
    cases numeral with
    | plain nonempty ascii =>
      have signs := head_of_ascii (c := '+') (by decide) ascii
      exact (readInteger_unsigned signs (head_of_ascii (by decide) ascii)).mpr ⟨nonempty, ascii, rfl⟩
    | plus nonempty ascii => exact readInteger_plus.mpr ⟨nonempty, ascii, rfl⟩
    | minus nonempty ascii => exact readInteger_minus.mpr ⟨nonempty, ascii, rfl⟩

theorem readInteger64_eq_some : readInteger64 text = some value ↔ Numeral text value ∧ InRange64 value := by
  simp only [readInteger64, Option.filter_eq_some_iff, decide_eq_true_eq, readInteger_eq_some]

theorem Numeral.ne_nil (numeral : Numeral text value) : text ≠ [] := by
  cases numeral with
  | plain nonempty => exact nonempty
  | plus => exact List.cons_ne_nil _ _
  | minus => exact List.cons_ne_nil _ _

theorem isBlank_of_isAsciiDigit {c : Char} (digit : isAsciiDigit c = true) : isBlank c = false := by
  simp only [isAsciiDigit, Bool.and_eq_true, decide_eq_true_eq] at digit
  simp only [isBlank, Bool.or_eq_false_iff, Bool.and_eq_false_iff, decide_eq_false_iff_not, beq_eq_false_iff_ne]
  omega

theorem Numeral.isBlank (numeral : Numeral text value) : ∀ c ∈ text, Text.isBlank c = false := by
  have digit (digits : List Char) (ascii : ∀ c ∈ digits, isAsciiDigit c = true) : ∀ c ∈ digits, Text.isBlank c = false :=
    fun c member => isBlank_of_isAsciiDigit (ascii c member)
  cases numeral with
  | plain _ ascii => exact digit _ ascii
  | plus _ ascii => exact List.forall_mem_cons.mpr ⟨by decide, digit _ ascii⟩
  | minus _ ascii => exact List.forall_mem_cons.mpr ⟨by decide, digit _ ascii⟩

end Integers

end Pagewright.Text
