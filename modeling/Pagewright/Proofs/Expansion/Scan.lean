import Mathlib.Data.List.Forall2
import Pagewright.Proofs.Expansion.Replaced
import Pagewright.Proofs.Json.Faulty

/-! The tokens of a document after index tokens have been replaced in its text. Without escapes a
string is written as it is read, and index tokens stand inside strings only, so the text is cut in
the same places as before and nothing but the strings has changed. -/

namespace Pagewright.Expansion

open Json

variable {index : Int}

def isString : Token → Bool
  | .string _ => true
  | _ => false

/-- A token of a text and what it is once the index tokens of the text are replaced. -/
inductive TokenBecomes (index : Int) : Token → Token → Prop where
  | string {text result : String} (replaced : substitute .standard index text = .ok result) :
      TokenBecomes index (.string (some text)) (.string (some result))
  | other {token : Token} (plain : isString token = false) : TokenBecomes index token token

/-- The characters of a string that is written as it is read. -/
def Unescaped (body : List Char) : Prop := ∀ c ∈ body, c ≠ '"' ∧ c ≠ '\\' ∧ 0x20 ≤ c.toNat

theorem Unescaped.replaces {body inside : List Char} (clean : Unescaped body)
    (replaced : Replaces index body inside) : Unescaped inside := by
  intro c member
  rcases mem_of_replaces replaced member with same | digit | rfl
  · exact clean c same
  · simp only [Text.isAsciiDigit, Bool.and_eq_true, decide_eq_true_eq] at digit
    refine ⟨?_, ?_, by omega⟩
    · intro same
      subst same
      exact absurd digit (by decide)
    · intro same
      subst same
      exact absurd digit (by decide)
  · decide

theorem scanString_cons {c : Char} (quote : c ≠ '"') (escape : c ≠ '\\') (state : StringSoFar)
    (used : Nat) (rest : List Char) :
    scanString state used (c :: rest) =
      if c.toNat < 0x20 then (state.broken .malformed, used)
      else scanString (state.push c) (used + 1) rest := by
  rw [scanString]
  all_goals simp_all

/-- A string without escapes ends at the next quote. -/
theorem scanString_unescaped {body : List Char} (clean : Unescaped body) (characters : List Char)
    (used : Nat) (more : List Char) :
    scanString { characters } used (body ++ '"' :: more) =
      (.string (some (String.ofList (characters.reverse ++ body))), used + body.length + 1) := by
  induction body generalizing characters used with
  | nil =>
    rw [List.nil_append, scanString]
    simp [StringSoFar.close, StringSoFar.settle]
  | cons c body ih =>
    obtain ⟨quote, escape, visible⟩ := clean c List.mem_cons_self
    rw [List.cons_append, scanString_cons quote escape, if_neg (by omega)]
    have pushed : StringSoFar.push { characters } c = { characters := c :: characters } := rfl
    rw [pushed, ih fun other member => clean other (List.mem_cons_of_mem _ member)]
    simp only [List.reverse_cons, List.append_assoc, List.singleton_append, List.length_cons,
      Prod.mk.injEq, true_and]
    omega

theorem unescaped_of_scanString {characters text : List Char} {used : Nat} {token : Token}
    (plain : '\\' ∉ text) (whole : isBroken token = false) {after : Nat}
    (scanned : scanString { characters } used text = (token, after)) :
    ∃ body more, text = body ++ '"' :: more ∧ Unescaped body := by
  induction text generalizing characters used with
  | nil =>
    rw [scanString] at scanned
    cases scanned
    cases whole
  | cons c rest ih =>
    by_cases quote : c = '"'
    · exact ⟨[], rest, by rw [quote]; rfl, by simp [Unescaped]⟩
    have escape : c ≠ '\\' := by
      intro same
      subst same
      exact plain List.mem_cons_self
    rw [scanString_cons quote escape] at scanned
    split at scanned
    next =>
      cases scanned
      cases whole
    next visible =>
      obtain ⟨body, more, rfl, clean⟩ := ih (fun member => plain (List.mem_cons_of_mem _ member)) scanned
      refine ⟨c :: body, more, rfl, ?_⟩
      intro other member
      rcases List.mem_cons.mp member with rfl | later
      · exact ⟨quote, escape, by omega⟩
      · exact clean other later

/-- A string ends at the same quote before and after, and what it holds has been replaced. -/
theorem scanString_replaces {rest result : List Char} {token : Token} {used : Nat}
    (plain : '\\' ∉ rest) (scanned : scanString {} 0 rest = (token, used))
    (whole : isBroken token = false) (replaced : Replaces index rest result) :
    ∃ other after, scanString {} 0 result = (other, after) ∧ TokenBecomes index token other ∧
      Replaces index (rest.drop used) (result.drop after) := by
  obtain ⟨body, more, rfl, clean⟩ := unescaped_of_scanString plain whole scanned
  obtain ⟨inside, last, enclosed, behind, rfl⟩ := replaces_quoted.mp replaced
  have left : ∀ body more : List Char, (body ++ '"' :: more).drop (0 + body.length + 1) = more := by
    intro body more
    rw [Nat.zero_add, ← List.drop_drop, List.drop_left]
    rfl
  rw [scanString_unescaped clean] at scanned
  cases scanned
  refine ⟨_, _, scanString_unescaped (clean.replaces enclosed) [] 0 last, .string ?_, ?_⟩
  · rw [substitute_eq_ok]
    simpa [Replaces] using enclosed
  · rw [left, left]
    exact behind

section Numbers

variable {literal : Literal} {token : Token} {used after : Nat} {text result : List Char}

theorem digit_ne {c : Char} (digit : Text.isAsciiDigit c = true) : c ≠ 'c' := by
  intro same
  subst same
  exact absurd digit (by decide)

/-- Digits are the same before and after unless an index token follows them. -/
theorem replaces_digits (ahead : (text.dropWhile Text.isAsciiDigit).head? ≠ some 'c')
    (replaced : Replaces index text result) :
    result.takeWhile Text.isAsciiDigit = text.takeWhile Text.isAsciiDigit ∧
      Replaces index (text.dropWhile Text.isAsciiDigit) (result.dropWhile Text.isAsciiDigit) := by
  induction text generalizing result with
  | nil =>
    obtain rfl := replaces_nil.mp replaced
    exact ⟨rfl, replaced⟩
  | cons c rest ih =>
    by_cases digit : Text.isAsciiDigit c = true
    · obtain ⟨others, found, rfl⟩ := (replaces_cons (digit_ne digit)).mp replaced
      simp only [List.takeWhile_cons, List.dropWhile_cons, digit, if_true] at ahead ⊢
      obtain ⟨same, remaining⟩ := ih ahead found
      exact ⟨by rw [same], remaining⟩
    · simp only [List.dropWhile_cons, digit, Bool.false_eq_true, if_false, List.head?_cons] at ahead
      obtain ⟨others, found, rfl⟩ := (replaces_cons fun same => ahead (by rw [same])).mp replaced
      simp only [List.takeWhile_cons, List.dropWhile_cons, digit, Bool.false_eq_true, if_false]
      exact ⟨trivial, replaced⟩

theorem drop_digits (text : List Char) :
    text.drop (text.takeWhile Text.isAsciiDigit).length = text.dropWhile Text.isAsciiDigit := by
  induction text with
  | nil => rfl
  | cons c rest ih =>
    by_cases digit : Text.isAsciiDigit c = true
    · simp [digit, ih]
    · simp [digit]

/-- The sign of an exponent, the text after it, and how many characters the sign and the letter
before it take. -/
def exponentSign : List Char → Bool × List Char × Nat
  | '-' :: rest => (true, rest, 2)
  | '+' :: rest => (false, rest, 2)
  | rest => (false, rest, 1)

theorem exponentSign_of_ne {c : Char} (minus : c ≠ '-') (plus : c ≠ '+') (rest : List Char) :
    exponentSign (c :: rest) = (false, c :: rest, 1) := by
  unfold exponentSign
  split <;> simp_all

theorem scanExponent_eq {e : Char} (letter : e = 'e' ∨ e = 'E') (rest : List Char) :
    scanExponent literal used (e :: rest) =
      let (negative, rest, length) := exponentSign rest
      let digits := rest.takeWhile Text.isAsciiDigit
      if digits.isEmpty then
        (.broken false (if rest.isEmpty then .cutNumber else .of .malformed), used + length)
      else (.number { literal with exponent := some (negative, digits) },
        used + length + digits.length) := by
  unfold scanExponent
  dsimp only
  rw [if_pos letter]
  cases rest with
  | nil => rfl
  | cons c rest =>
    by_cases minus : c = '-'
    · rw [minus]
      rfl
    by_cases plus : c = '+'
    · rw [plus]
      rfl
    rw [exponentSign_of_ne minus plus]
    split <;> simp_all

/-- Both texts go on with the same characters, and the rests after them are replaced. -/
theorem exponentSign_replaces {rest : List Char}
    (ahead : (exponentSign rest).2.1.head? ≠ some 'c') (replaced : Replaces index rest result) :
    ∃ others, exponentSign result = ((exponentSign rest).1, others, (exponentSign rest).2.2) ∧
      Replaces index (exponentSign rest).2.1 others := by
  cases rest with
  | nil =>
    obtain rfl := replaces_nil.mp replaced
    exact ⟨[], rfl, replaced⟩
  | cons c rest =>
    by_cases minus : c = '-'
    · subst minus
      obtain ⟨others, found, rfl⟩ := (replaces_cons (by decide)).mp replaced
      exact ⟨others, rfl, found⟩
    by_cases plus : c = '+'
    · subst plus
      obtain ⟨others, found, rfl⟩ := (replaces_cons (by decide)).mp replaced
      exact ⟨others, rfl, found⟩
    rw [exponentSign_of_ne minus plus] at ahead ⊢
    obtain ⟨others, found, rfl⟩ := (replaces_cons (by simpa using ahead)).mp replaced
    exact ⟨c :: others, exponentSign_of_ne minus plus others, replaced⟩

theorem drop_exponentSign (e : Char) (rest : List Char) (more : Nat) :
    (e :: rest).drop ((exponentSign rest).2.2 + more) = (exponentSign rest).2.1.drop more := by
  unfold exponentSign
  split <;> simp [Nat.add_comm _ more]

theorem scanExponent_of_ne {e : Char} (other : e ≠ 'e' ∧ e ≠ 'E') (rest : List Char) :
    scanExponent literal used (e :: rest) = (.number literal, used) := by
  unfold scanExponent
  exact if_neg (by simpa using other)

theorem scanExponent_replaces (scanned : scanExponent literal used text = (token, after))
    (whole : isBroken token = false) (ahead : (text.drop (after - used)).head? ≠ some 'c')
    (replaced : Replaces index text result) :
    scanExponent literal used result = (token, after) ∧
      Replaces index (text.drop (after - used)) (result.drop (after - used)) := by
  cases text with
  | nil =>
    obtain rfl := replaces_nil.mp replaced
    cases scanned
    exact ⟨rfl, by simpa using replaced⟩
  | cons e rest =>
    by_cases letter : e = 'e' ∨ e = 'E'
    · have other : e ≠ 'c' := by rcases letter with rfl | rfl <;> decide
      obtain ⟨others, found, rfl⟩ := (replaces_cons other).mp replaced
      have length := drop_exponentSign e
      rw [scanExponent_eq letter] at scanned ⊢
      dsimp only at scanned ⊢
      split at scanned
      next =>
        cases scanned
        cases whole
      next present =>
        cases scanned
        rw [Nat.add_assoc, Nat.add_sub_cancel_left, length, drop_digits] at ahead
        have signed : (exponentSign rest).2.1.head? ≠ some 'c' := by
          intro starts
          apply present
          cases tail : (exponentSign rest).2.1 with
          | nil => rfl
          | cons c more =>
            rw [tail, List.head?_cons, Option.some.injEq] at starts
            rw [starts]
            rfl
        obtain ⟨behind, same, remaining⟩ := exponentSign_replaces signed found
        obtain ⟨digits, last⟩ := replaces_digits ahead remaining
        have lengthOthers := length others
        rw [same] at lengthOthers ⊢
        dsimp only at lengthOthers ⊢
        rw [digits, if_neg present]
        refine ⟨rfl, ?_⟩
        rw [Nat.add_assoc, Nat.add_sub_cancel_left, length, lengthOthers, drop_digits, ← digits,
          drop_digits]
        exact last
    · rw [not_or] at letter
      rw [scanExponent_of_ne letter] at scanned
      cases scanned
      rw [Nat.sub_self, List.drop_zero] at ahead ⊢
      obtain ⟨others, found, rfl⟩ := (replaces_cons (by simpa using ahead)).mp replaced
      exact ⟨scanExponent_of_ne letter others, replaced⟩

theorem le_scanExponent (scanned : scanExponent literal used text = (token, after)) : used ≤ after := by
  cases text with
  | nil =>
    cases scanned
    exact Nat.le_refl _
  | cons e rest =>
    by_cases letter : e = 'e' ∨ e = 'E'
    · rw [scanExponent_eq letter] at scanned
      dsimp only at scanned
      split at scanned <;> cases scanned <;> omega
    · rw [scanExponent_of_ne (not_or.mp letter)] at scanned
      cases scanned
      exact Nat.le_refl _

theorem drop_digits_add (text : List Char) (more : Nat) :
    text.drop ((text.takeWhile Text.isAsciiDigit).length + more) =
      (text.dropWhile Text.isAsciiDigit).drop more := by
  rw [← List.drop_drop, drop_digits]

/-- A number does not stop in front of an index token later than at the place where it meets it. -/
theorem head_of_scanExponent (scanned : scanExponent literal used text = (token, after))
    (ahead : (text.drop (after - used)).head? ≠ some 'c') : text.head? ≠ some 'c' := by
  cases text with
  | nil => simp
  | cons c rest =>
    rw [List.head?_cons]
    intro starts
    cases starts
    rw [scanExponent_of_ne (by decide)] at scanned
    cases scanned
    simp at ahead

theorem scanFraction_of_ne {c : Char} (other : c ≠ '.') (rest : List Char) :
    scanFraction literal used (c :: rest) = scanExponent literal used (c :: rest) := by
  unfold scanFraction
  split <;> simp_all

theorem le_scanFraction (scanned : scanFraction literal used text = (token, after)) : used ≤ after := by
  unfold scanFraction at scanned
  split at scanned
  next rest =>
    dsimp only at scanned
    split at scanned
    next =>
      cases scanned
      exact Nat.le_refl _
    next =>
      have := le_scanExponent scanned
      omega
  next => exact le_scanExponent scanned

theorem scanFraction_replaces (scanned : scanFraction literal used text = (token, after))
    (whole : isBroken token = false) (ahead : (text.drop (after - used)).head? ≠ some 'c')
    (replaced : Replaces index text result) :
    scanFraction literal used result = (token, after) ∧
      Replaces index (text.drop (after - used)) (result.drop (after - used)) := by
  cases text with
  | nil =>
    obtain rfl := replaces_nil.mp replaced
    cases scanned
    exact ⟨rfl, by simpa using replaced⟩
  | cons c rest =>
    by_cases point : c = '.'
    · subst point
      obtain ⟨others, found, rfl⟩ := (replaces_cons (by decide)).mp replaced
      simp only [scanFraction] at scanned ⊢
      split at scanned
      next =>
        cases scanned
        cases whole
      next present =>
        have least := le_scanExponent scanned
        obtain ⟨more, rfl⟩ := Nat.exists_eq_add_of_le least
        have length : used + 1 + (rest.takeWhile Text.isAsciiDigit).length + more - used =
            (rest.takeWhile Text.isAsciiDigit).length + more + 1 := by omega
        rw [length, List.drop_succ_cons, drop_digits_add] at ahead
        have exponent := head_of_scanExponent scanned (by simpa using ahead)
        obtain ⟨digits, remaining⟩ := replaces_digits exponent found
        obtain ⟨same, last⟩ := scanExponent_replaces scanned whole (by simpa using ahead) remaining
        rw [digits, if_neg present]
        refine ⟨same, ?_⟩
        rw [length, List.drop_succ_cons, List.drop_succ_cons, drop_digits_add, ← digits, drop_digits_add]
        simpa using last
    · rw [scanFraction_of_ne point] at scanned
      have starts := head_of_scanExponent scanned ahead
      obtain ⟨others, found, rfl⟩ := (replaces_cons (by simpa using starts)).mp replaced
      rw [scanFraction_of_ne point]
      exact scanExponent_replaces scanned whole ahead replaced

theorem head_of_scanFraction (scanned : scanFraction literal used text = (token, after))
    (ahead : (text.drop (after - used)).head? ≠ some 'c') : text.head? ≠ some 'c' := by
  cases text with
  | nil => simp
  | cons c rest =>
    rw [List.head?_cons]
    intro starts
    cases starts
    rw [scanFraction_of_ne (by decide)] at scanned
    exact head_of_scanExponent scanned ahead rfl

/-- What is scanned of a number behind its integer part depends on the integer part alone. -/
theorem scanNumber_eq {negative : Bool} (scanned : scanNumber negative text = (token, after))
    (whole : isBroken token = false) {other : List Char}
    (same : other.takeWhile Text.isAsciiDigit = text.takeWhile Text.isAsciiDigit) :
    scanNumber negative other =
      scanFraction ⟨negative, text.takeWhile Text.isAsciiDigit, [], none⟩
        (text.takeWhile Text.isAsciiDigit).length (other.dropWhile Text.isAsciiDigit) := by
  unfold scanNumber at scanned ⊢
  dsimp only at scanned ⊢
  rw [same]
  split at scanned
  next =>
    cases scanned
    cases whole
  next =>
    cases scanned
    cases whole
  next => rfl

theorem one_le_scanNumber {negative : Bool} {c : Char} (digit : Text.isAsciiDigit c = true)
    {rest : List Char} (scanned : scanNumber negative (c :: rest) = (token, after))
    (whole : isBroken token = false) : 1 ≤ after := by
  rw [scanNumber_eq scanned whole rfl] at scanned
  have least := le_scanFraction scanned
  rw [List.takeWhile_cons, if_pos digit, List.length_cons] at least
  omega

theorem scanNumber_replaces {negative : Bool} (scanned : scanNumber negative text = (token, after))
    (whole : isBroken token = false) (ahead : (text.drop after).head? ≠ some 'c')
    (replaced : Replaces index text result) :
    scanNumber negative result = (token, after) ∧
      Replaces index (text.drop after) (result.drop after) := by
  have fraction := scanned
  rw [scanNumber_eq scanned whole rfl] at fraction
  obtain ⟨more, rfl⟩ := Nat.exists_eq_add_of_le (le_scanFraction fraction)
  rw [drop_digits_add] at ahead
  have starts := head_of_scanFraction fraction (by simpa using ahead)
  obtain ⟨digits, remaining⟩ := replaces_digits starts replaced
  obtain ⟨same, last⟩ := scanFraction_replaces fraction whole (by simpa using ahead) remaining
  refine ⟨by rw [scanNumber_eq scanned whole digits, same], ?_⟩
  rw [drop_digits_add, ← digits, drop_digits_add]
  simpa using last

theorem isString_scanExponent (literal : Literal) (used : Nat) (text : List Char) :
    isString (scanExponent literal used text).1 = false := by
  cases text with
  | nil => rfl
  | cons e rest =>
    by_cases letter : e = 'e' ∨ e = 'E'
    · rw [scanExponent_eq letter]
      dsimp only
      split <;> rfl
    · rw [scanExponent_of_ne (not_or.mp letter)]
      rfl

theorem isString_scanNumber (negative : Bool) (text : List Char) :
    isString (scanNumber negative text).1 = false := by
  unfold scanNumber
  dsimp only
  split
  next => rfl
  next => rfl
  next =>
    unfold scanFraction
    dsimp only
    split
    next =>
      split
      next => rfl
      next => exact isString_scanExponent ..
    next => exact isString_scanExponent ..

end Numbers

theorem scanWord_append (word : Token) (used : Nat) (expected more : List Char) :
    scanWord word used expected (expected ++ more) = (word, used + expected.length) := by
  induction expected generalizing used with
  | nil => rfl
  | cons c expected ih =>
    rw [List.cons_append, scanWord, if_pos rfl, ih, List.length_cons, Nat.add_right_comm, Nat.add_assoc]

theorem text_of_scanWord {word token : Token} {used after : Nat} {expected text : List Char}
    (scanned : scanWord word used expected text = (token, after)) (whole : isBroken token = false) :
    ∃ more, text = expected ++ more := by
  induction expected generalizing used text with
  | nil => exact ⟨text, rfl⟩
  | cons e expected ih =>
    cases text with
    | nil =>
      cases scanned
      cases whole
    | cons c rest =>
      rw [scanWord] at scanned
      split at scanned
      next same =>
        obtain ⟨more, rfl⟩ := ih scanned
        exact ⟨more, by rw [same, List.cons_append]⟩
      next =>
        cases scanned
        cases whole

theorem scanWord_replaces {word token : Token} {after : Nat} {expected text result : List Char}
    (plain : 'c' ∉ expected) (scanned : scanWord word 0 expected text = (token, after))
    (whole : isBroken token = false) (replaced : Replaces index text result) :
    scanWord word 0 expected result = (token, after) ∧ token = word ∧
      Replaces index (text.drop after) (result.drop after) := by
  obtain ⟨more, rfl⟩ := text_of_scanWord scanned whole
  obtain ⟨others, found, rfl⟩ := (replaces_append plain).mp replaced
  rw [scanWord_append] at scanned ⊢
  cases scanned
  exact ⟨rfl, rfl, by simpa using found⟩

/-- Apart from strings a token is the same before and after, where no index token follows it. -/
theorem scanToken_replaces {c : Char} (quote : c ≠ '"') {rest result : List Char} {token : Token}
    {after : Nat} (scanned : scanToken c rest = (token, after)) (whole : isBroken token = false)
    (ahead : (rest.drop after).head? ≠ some 'c') (replaced : Replaces index rest result) :
    scanToken c result = (token, after) ∧ isString token = false ∧
      Replaces index (rest.drop after) (result.drop after) := by
  unfold scanToken at scanned ⊢
  split at scanned
  any_goals
    cases scanned
    exact ⟨rfl, rfl, replaced⟩
  next => exact absurd rfl quote
  next =>
    obtain ⟨same, rfl, remaining⟩ := scanWord_replaces (by decide) scanned whole replaced
    exact ⟨same, rfl, remaining⟩
  next =>
    obtain ⟨same, rfl, remaining⟩ := scanWord_replaces (by decide) scanned whole replaced
    exact ⟨same, rfl, remaining⟩
  next =>
    obtain ⟨same, rfl, remaining⟩ := scanWord_replaces (by decide) scanned whole replaced
    exact ⟨same, rfl, remaining⟩
  next =>
    obtain ⟨same, remaining⟩ := scanNumber_replaces scanned whole ahead replaced
    exact ⟨same, by rw [← isString_scanNumber true rest, scanned], remaining⟩
  next =>
    split at scanned
    next digit =>
      rw [if_pos digit]
      rcases number : scanNumber false (c :: rest) with ⟨found, used⟩
      rw [number] at scanned
      cases scanned
      obtain ⟨before, rfl⟩ := Nat.exists_eq_add_of_le' (one_le_scanNumber digit number whole)
      have replaced' : Replaces index (c :: rest) (c :: result) :=
        (replaces_cons (digit_ne digit)).mpr ⟨result, replaced, rfl⟩
      obtain ⟨same, remaining⟩ := scanNumber_replaces number whole ahead replaced'
      rw [same]
      exact ⟨rfl, by rw [← isString_scanNumber false (c :: rest), number], remaining⟩
    next =>
      cases scanned
      cases whole

theorem TokenBecomes.isBroken {token other : Token} (becomes : TokenBecomes index token other)
    (whole : isBroken token = false) : Json.isBroken other = false := by
  cases becomes with
  | string => rfl
  | other => exact whole

/-- The next token of a text, once its index tokens are replaced. -/
theorem scanToken_becomes {c : Char} {rest result : List Char} {token : Token} {used : Nat}
    (plain : '\\' ∉ rest) (scanned : scanToken c rest = (token, used))
    (whole : isBroken token = false) (ahead : (rest.drop used).head? ≠ some 'c')
    (replaced : Replaces index rest result) :
    ∃ other after, scanToken c result = (other, after) ∧ TokenBecomes index token other ∧
      Replaces index (rest.drop used) (result.drop after) := by
  by_cases quote : c = '"'
  · subst quote
    exact scanString_replaces plain scanned whole replaced
  · obtain ⟨same, other, last⟩ := scanToken_replaces quote scanned whole ahead replaced
    exact ⟨token, used, same, .other other, last⟩

theorem tokensAfter_drop (used : Nat) (text : List Char) :
    tokensAfter used text = tokensAfter 0 (text.drop used) := by
  induction used generalizing text with
  | zero => rfl
  | succ used ih =>
    cases text with
    | nil => rfl
    | cons c rest => exact ih rest

theorem tokensAfter_cons {c : Char} {rest : List Char} {token : Token} {used : Nat}
    (visible : isSpace c = false) (scanned : scanToken c rest = (token, used))
    (whole : isBroken token = false) :
    tokensAfter 0 (c :: rest) = token :: tokensAfter 0 (rest.drop used) := by
  rw [tokensAfter, if_neg (by simp [visible]), scanned, ← tokensAfter_drop used rest]
  cases token <;> first | rfl | cases whole

/-- All tokens of a text have been found. -/
def Tokenized (text : List Char) : Prop := ∀ token ∈ tokensAfter 0 text, isBroken token = false

theorem Tokenized.scanned {c : Char} {rest : List Char} (tokenized : Tokenized (c :: rest))
    (visible : isSpace c = false) : isBroken (scanToken c rest).1 = false := by
  rcases scanned : scanToken c rest with ⟨token, used⟩
  cases broken : isBroken token with
  | false => rfl
  | true =>
    cases token with
    | broken opensString place =>
      have stopped : tokensAfter 0 (c :: rest) = [.broken opensString place] := by
        rw [tokensAfter, if_neg (by simp [visible]), scanned]
      have known := tokenized (.broken opensString place) (by simp [stopped])
      cases known
    | _ => cases broken

/-- Outside of strings no index token is a token of the document. -/
theorem Tokenized.head {text : List Char} (tokenized : Tokenized text) : text.head? ≠ some 'c' := by
  cases text with
  | nil => simp
  | cons c rest =>
    rw [List.head?_cons]
    intro starts
    cases starts
    have known := tokenized.scanned (by decide)
    cases known

/-- Once the index tokens of a text are replaced it has the same tokens with the strings among
them replaced. -/
theorem tokens_become {text result : List Char} (plain : '\\' ∉ text) (tokenized : Tokenized text)
    (replaced : Replaces index text result) :
    List.Forall₂ (TokenBecomes index) (tokensAfter 0 text) (tokensAfter 0 result) := by
  -- A token takes several characters at once, so the induction is on the length of the text.
  induction length : text.length using Nat.strongRecOn generalizing text result with
  | ind length ih =>
    subst length
    cases text with
    | nil =>
      obtain rfl := replaces_nil.mp replaced
      exact .nil
    | cons c rest =>
      obtain ⟨others, found, rfl⟩ := (replaces_cons (by simpa using tokenized.head)).mp replaced
      have later : '\\' ∉ rest := fun member => plain (List.mem_cons_of_mem _ member)
      cases space : isSpace c with
      | true =>
        have skipped : ∀ rest, tokensAfter 0 (c :: rest) = tokensAfter 0 rest := by
          intro rest
          rw [tokensAfter, if_pos space]
        rw [Tokenized, skipped] at tokenized
        rw [skipped, skipped]
        exact ih rest.length (by simp) later tokenized found rfl
      | false =>
        have whole := tokenized.scanned space
        rcases scanned : scanToken c rest with ⟨token, used⟩
        rw [scanned] at whole
        have cut := tokensAfter_cons space scanned whole
        have remaining : Tokenized (rest.drop used) :=
          fun token member => tokenized token (by simp [cut, member])
        obtain ⟨other, after, again, becomes, last⟩ :=
          scanToken_becomes later scanned whole remaining.head found
        rw [cut, tokensAfter_cons space again (becomes.isBroken whole)]
        refine .cons becomes (ih (rest.drop used).length ?_ ?_ remaining last rfl)
        · simp only [List.length_drop, List.length_cons]
          omega
        · exact fun member => later (List.mem_of_mem_drop member)

end Pagewright.Expansion
