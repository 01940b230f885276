import Pagewright.Proofs.Expansion.Cuts
import Pagewright.Proofs.Expansion.Leaves
import Pagewright.Proofs.Text.Span

/-! The instances of a blueprint. Its count is a number or a text that spells one, and there are as many
instances, with the indices from zero on. An offset that takes an index out of range takes every later
one out of range too, so the last index decides whether there are any. -/

namespace Pagewright.Expansion

open Skeleton Text

variable {placeholder : Placeholder}

section Counts

/-- How often a blueprint is repeated. A text says it by a number of 64 bits that may stand between blanks,
and a number below zero is as good as zero. -/
inductive Times : Count → Nat → Prop where
  | literal {value : Int} : Times (.literal value) value.toNat
  | expression {text : String} {front digits back : List Char} {value : Int}
      (padded : text.toList = front ++ (digits ++ back)) (blank : ∀ c ∈ front ++ back, isBlank c = true)
      (numeral : Numeral digits value) (fits : InRange64 value) : Times (.expression text) value.toNat

theorem resolveCount_of_times {count : Count} {times : Nat} (said : Times count times) :
    resolveCount count = .ok times := by
  cases said with
  | literal => rfl
  | expression padded blank numeral fits =>
    have read := readInteger64_eq_some.mpr ⟨numeral, fits⟩
    rw [resolveCount, padded, trimBlank_padded blank numeral.ne_nil numeral.isBlank, read]

theorem resolveCount_of_not_times {text : String} (none : ¬ ∃ times, Times (.expression text) times) :
    resolveCount (.expression text) = .error (.countNotInteger text) := by
  rw [resolveCount]
  split
  next value read =>
    obtain ⟨numeral, fits⟩ := readInteger64_eq_some.mp read
    obtain ⟨front, back, padded, blank⟩ := exists_padding text.toList
    exact absurd ⟨_, .expression padded blank numeral fits⟩ none
  next => rfl

end Counts

section Monotone

variable {index later : Int}

/-- From zero on, an offset that fits a later index fits an earlier one. -/
theorem TokenNumber.earlier {offset : List Char} {value : Int} (number : TokenNumber later offset value)
    (start : 0 ≤ index) (before : index ≤ later) : ∃ value, TokenNumber index offset value := by
  cases number with
  | alone => exact ⟨_, .alone⟩
  | @up digits nonempty ascii fits sum =>
    have smaller : InRange64 (index + readDigits digits) := ⟨by omega, Int.lt_of_le_of_lt (by omega) sum.2⟩
    exact ⟨_, .up nonempty ascii fits smaller⟩
  | @down digits nonempty ascii fits sum =>
    have smaller : InRange64 (index + -readDigits digits) :=
      ⟨Int.le_trans fits.1 (by omega), Int.lt_of_le_of_lt (by omega) sum.2⟩
    exact ⟨_, .down nonempty ascii fits smaller⟩

theorem substitute_earlier {text result : String} (replaced : substitute placeholder later text = .ok result)
    (start : 0 ≤ index) (before : index ≤ later) : ∃ result, substitute placeholder index text = .ok result := by
  obtain ⟨cuts, tail, cut⟩ := exists_cuts placeholder.nonempty text.toList
  obtain ⟨_, filled, _⟩ := (substitute_eq_filled cut).mp replaced
  rcases filled_or_firstFailing index cuts with ⟨_, fills⟩ | ⟨failed, _, _, split, _, none⟩
  · exact ⟨_, substitute_of_filled cut fills⟩
  · obtain ⟨value, number⟩ := filled.number failed (by simp [split])
    exact absurd (number.earlier start before) none

/-- A template that can be expanded for an index can be for every index from zero up to that. -/
theorem expand_earlier {template copy : Node} (expanded : expand placeholder template later = .ok copy)
    (start : 0 ≤ index) (before : index ≤ later) : ∃ copy, expand placeholder template index = .ok copy := by
  refine exists_mapNode.mpr fun text member => ?_
  obtain ⟨result, replaced⟩ := exists_mapNode.mp ⟨copy, expanded⟩ text member
  exact substitute_earlier replaced start before

end Monotone

section Instances

theorem findSome?_range {α : Type} {found : Nat → Option α} {count : Nat} {value : α} :
    (List.range count).findSome? found = some value ↔
      ∃ k < count, found k = some value ∧ ∀ j < k, found j = none := by
  induction count with
  | zero => simp
  | succ count ih =>
    rw [List.range_succ, List.findSome?_append, Option.or_eq_some_iff, ih, List.findSome?_eq_none_iff]
    simp only [List.mem_range, List.findSome?_singleton]
    constructor
    · rintro (⟨k, less, here, before⟩ | ⟨before, here⟩)
      · exact ⟨k, Nat.lt_succ_of_lt less, here, before⟩
      · exact ⟨count, Nat.lt_succ_self count, here, before⟩
    · rintro ⟨k, less, here, before⟩
      rcases Nat.lt_succ_iff_lt_or_eq.mp less with less | rfl
      · exact .inl ⟨k, less, here, before⟩
      · exact .inr ⟨before, here⟩

/-- What a blueprint comes to that is repeated a number of times. -/
structure Repeats (placeholder : Placeholder) (blueprint : Blueprint) (times : Nat) : Prop where
  copies : ∀ copies, instances placeholder blueprint = .ok copies ↔
    copies.length = times ∧
      ∀ k < times, ∃ copy, copies[k]? = some copy ∧ expand placeholder blueprint.template k = .ok copy
  error : ∀ error, instances placeholder blueprint = .error error ↔
    ∃ k < times, expand placeholder blueprint.template k = .error error ∧
      ∀ j < k, ∃ copy, expand placeholder blueprint.template j = .ok copy
  last : times ≠ 0 → ((∃ copies, instances placeholder blueprint = .ok copies) ↔
    ∃ copy, expand placeholder blueprint.template (times - 1 : Nat) = .ok copy)
  never : times = 0 → instances placeholder blueprint = .ok []

theorem repeats_of_times {blueprint : Blueprint} {times : Nat} (said : Times blueprint.count times) :
    Repeats placeholder blueprint times := by
  have whole : instances placeholder blueprint =
      mapList (fun index : Nat => expand placeholder blueprint.template index) (List.range times) := by
    rw [instances, resolveCount_of_times said, List.range_eq_range', ← expandFrom_eq_mapList]
    rfl
  refine ⟨fun copies => ?_, fun error => ?_, fun some => ?_, fun none => ?_⟩
  · rw [whole, mapList_eq_ok fun _ _ _ => Iff.rfl, List.forall₂_iff_get]
    simp only [List.length_range, List.get_eq_getElem, List.getElem_range]
    rw [eq_comm]
    refine and_congr_right fun length => ?_
    subst length
    constructor
    · exact fun each k less => ⟨copies[k], List.getElem?_eq_getElem less, each k less less⟩
    · intro each k less _
      obtain ⟨copy, there, expanded⟩ := each k less
      obtain ⟨_, rfl⟩ := List.getElem?_eq_some_iff.mp there
      exact expanded
  · rw [whole, ← fault_eq_some, fault_mapList, findSome?_range]
    simp only [fault_eq_none, fault_eq_some]
  · rw [whole, ← fault_eq_none, fault_mapList, List.findSome?_eq_none_iff]
    simp only [fault_eq_none, List.mem_range]
    constructor
    · exact fun each => each _ (by omega)
    · rintro ⟨copy, expanded⟩ k less
      exact expand_earlier expanded (Int.natCast_nonneg k) (by omega)
  · rw [whole, none]
    rfl

/-- A blueprint is repeated as often as its count says. The copies have the indices in order, one that
cannot be made ends them all, and failing at an index means failing at every later one. A count that says
no number is the error itself. -/
theorem instances_in_order (placeholder : Placeholder) (blueprint : Blueprint) :
    (∀ times, Times blueprint.count times → Repeats placeholder blueprint times) ∧
    (∀ k later : Nat, k ≤ later → (∃ error, expand placeholder blueprint.template k = .error error) →
      ∃ error, expand placeholder blueprint.template later = .error error) ∧
    ∀ text, blueprint.count = .expression text → (¬ ∃ times, Times blueprint.count times) →
      instances placeholder blueprint = .error (.countNotInteger text) := by
  refine ⟨fun times said => repeats_of_times said, ?_, ?_⟩
  · rintro k later before ⟨error, failed⟩
    cases expanded : expand placeholder blueprint.template later with
    | error other => exact ⟨other, rfl⟩
    | ok copy =>
      obtain ⟨earlier, found⟩ := expand_earlier expanded (Int.natCast_nonneg k) (Int.ofNat_le.mpr before)
      rw [failed] at found
      cases found
  · intro text same none
    rw [same] at none
    rw [instances, same, resolveCount_of_not_times none]
    rfl

/-- The fourth copy would have an index above the largest there is. -/
def shelf : Blueprint where
  count := .expression " +4\n"
  template := { own := { tag := some "li", text := some "cwrapIndex+9223372036854775805" } }

def unnumbered : Blueprint := { shelf with count := .expression "four" }

def shelfError : ExpansionError := .offsetOutOfRange "cwrapIndex+9223372036854775805"

theorem instances_in_order_shelf :
    (Times shelf.count 4 ∧ instances .standard shelf = .error shelfError ∧
      ∃ k < 4, expand .standard shelf.template (k : Nat) = .error shelfError ∧
        ∀ j < k, ∃ copy, expand .standard shelf.template (j : Nat) = .ok copy) ∧
    ((∃ error, expand .standard shelf.template (3 : Nat) = .error error) ∧
      ∃ error, expand .standard shelf.template (9 : Nat) = .error error) ∧
    unnumbered.count = .expression "four" ∧ (¬ ∃ times, Times unnumbered.count times) ∧
      instances .standard unnumbered = .error (.countNotInteger "four") := by
  obtain ⟨repeats, later, _⟩ := instances_in_order .standard shelf
  obtain ⟨_, _, unreadable⟩ := instances_in_order .standard unnumbered
  have padded : " +4\n".toList = [' '] ++ (['+', '4'] ++ ['\n']) := rfl
  have blank : ∀ c ∈ [' '] ++ ['\n'], isBlank c = true := by simp [isBlank]
  have numeral : Numeral ['+', '4'] (readDigits ['4']) := .plus (List.cons_ne_nil _ _) (by simp [isAsciiDigit])
  have four : (readDigits ['4'] : Int) = 4 := by decide
  rw [four] at numeral
  have said : Times shelf.count (4 : Int).toNat := .expression padded blank numeral ⟨by omega, by omega⟩
  have failed : instances .standard shelf = .error shelfError := by cbv
  have fourth : ∃ error, expand .standard shelf.template (3 : Nat) = .error error := ⟨shelfError, by cbv⟩
  have none : ¬ ∃ times, Times unnumbered.count times := by
    rintro ⟨times, said⟩
    have resolved := resolveCount_of_times said
    have refused : resolveCount unnumbered.count = .error (.countNotInteger "four") := by cbv
    rw [refused] at resolved
    cases resolved
  exact ⟨⟨said, failed, ((repeats 4 said).error _).mp failed⟩, ⟨fourth, later 3 9 (by decide) fourth⟩,
    rfl, none, unreadable "four" rfl none⟩

end Instances

end Pagewright.Expansion
