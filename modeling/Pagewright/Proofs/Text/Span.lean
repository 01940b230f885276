import Mathlib.Data.List.TakeWhile
import Pagewright.Text.Blank

/-! Runs of characters of one kind. A run ends where a character of another kind, or nothing,
follows it, and can then be told from what stands behind it. -/

namespace Pagewright.Text

variable {p : Char → Bool} {front back more others : List Char}

/-- A text that a span of some characters cannot run on into. -/
def Stops (p : Char → Bool) (text : List Char) : Prop := ∀ c rest, text = c :: rest → p c = false

theorem stops_cons {c : Char} {rest : List Char} (other : p c = false) : Stops p (c :: rest) := by
  intro d later same
  rw [← (List.cons.inj same).1, other]

theorem takeWhile_span (inside : ∀ c ∈ front, p c = true) (stops : Stops p more) :
    (front ++ more).takeWhile p = front := by
  rw [List.takeWhile_append_of_pos inside]
  cases more with
  | nil => simp
  | cons c rest => simp [stops c rest rfl]

theorem dropWhile_span (inside : ∀ c ∈ front, p c = true) (stops : Stops p more) :
    (front ++ more).dropWhile p = more := by
  rw [List.dropWhile_append_of_pos inside]
  cases more with
  | nil => rfl
  | cons c rest => simp [stops c rest rfl]

/-- Where two spans end, the same text remains. -/
theorem span_inj (inside : ∀ c ∈ front, p c = true) (inside' : ∀ c ∈ back, p c = true)
    (stops : Stops p more) (stops' : Stops p others) (same : front ++ more = back ++ others) :
    front = back ∧ more = others := by
  have spans := congrArg (List.takeWhile p) same
  rw [takeWhile_span inside stops, takeWhile_span inside' stops'] at spans
  subst spans
  exact ⟨rfl, List.append_cancel_left same⟩

theorem bne_of_absent {d : Char} {text : List Char} (absent : d ∉ text) : ∀ c ∈ text, (c != d) = true := by
  intro c member
  simp only [bne_iff_ne]
  rintro rfl
  exact absent member

theorem delimited_inj {d : Char} (absent : d ∉ front) (absent' : d ∉ back)
    (same : front ++ d :: more = back ++ d :: others) : front = back ∧ more = others := by
  obtain ⟨spans, rest⟩ := span_inj (bne_of_absent absent) (bne_of_absent absent')
    (stops_cons (by simp)) (stops_cons (by simp)) same
  exact ⟨spans, (List.cons.inj rest).2⟩

section Blanks

variable {text : List Char}

theorem dropWhile_blanks (blank : ∀ c ∈ front, isBlank c = true) (nonempty : text ≠ [])
    (solid : ∀ c ∈ text, isBlank c = false) : (front ++ (text ++ back)).dropWhile isBlank = text ++ back := by
  obtain ⟨c, rest, rfl⟩ := List.exists_cons_of_ne_nil nonempty
  rw [List.dropWhile_append_of_pos blank, List.cons_append, List.dropWhile_cons_of_neg]
  simp [solid c List.mem_cons_self]

/-- Blanks around a text are all that trimming takes away. -/
theorem trimBlank_padded (blank : ∀ c ∈ front ++ back, isBlank c = true) (nonempty : text ≠ [])
    (solid : ∀ c ∈ text, isBlank c = false) : trimBlank (front ++ (text ++ back)) = text := by
  rw [List.forall_mem_append] at blank
  have behind : (back.reverse ++ (text.reverse ++ [])).dropWhile isBlank = text.reverse ++ [] :=
    dropWhile_blanks (by simpa using blank.2) (by simpa using nonempty) (by simpa using solid)
  rw [List.append_nil] at behind
  rw [trimBlank, dropWhile_blanks blank.1 nonempty solid, List.reverse_append, behind, List.reverse_reverse]

theorem exists_padding (text : List Char) :
    ∃ front back, text = front ++ (trimBlank text ++ back) ∧ ∀ c ∈ front ++ back, isBlank c = true := by
  let rest := text.dropWhile isBlank
  refine ⟨text.takeWhile isBlank, (rest.reverse.takeWhile isBlank).reverse, ?_, ?_⟩
  · rw [trimBlank, ← List.reverse_append, List.takeWhile_append_dropWhile, List.reverse_reverse,
      List.takeWhile_append_dropWhile]
  · rw [List.forall_mem_append]
    refine ⟨fun c member => List.mem_takeWhile_imp member, fun c member => ?_⟩
    exact List.mem_takeWhile_imp (List.mem_reverse.mp member)

end Blanks

end Pagewright.Text
