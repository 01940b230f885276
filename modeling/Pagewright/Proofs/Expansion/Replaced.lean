import Pagewright.Proofs.Expansion.Token

/-! Texts and what they are once index tokens are replaced. All index tokens start with one letter,
so whatever does not hold it stays, and a quote parts a text into what is replaced apart. -/

namespace Pagewright.Expansion

variable {index : Int}

/-- A text whose index tokens have been replaced. -/
def Replaces (index : Int) (text result : List Char) : Prop :=
  replacePieces .standard index (pieces .standard text) = .ok result

theorem standard_name :
    Placeholder.standard.name = ['c', 'w', 'r', 'a', 'p', 'I', 'n', 'd', 'e', 'x'] := by
  decide

theorem replaces_nil {result : List Char} : Replaces index [] result ↔ result = [] := by
  simp [Replaces, pieces, piecesAfter, replacePieces, eq_comm]

/-- Every index token starts with the same letter. -/
theorem replaces_cons {c : Char} (other : c ≠ 'c') {rest result : List Char} :
    Replaces index (c :: rest) result ↔
      ∃ others, Replaces index rest others ∧ result = c :: others := by
  have starts : Placeholder.standard.name.isPrefixOf (c :: rest) = false := by
    rw [standard_name, List.isPrefixOf, Bool.and_eq_false_iff]
    exact .inl (by simpa using other.symm)
  simp only [Replaces, pieces, piecesAfter, starts, Bool.false_eq_true, if_false,
    replacePieces_cons_eq_ok, Piece.replace, Except.ok.injEq]
  constructor
  · intro given
    obtain ⟨_, others, rfl, found, rfl⟩ := given
    exact ⟨others, found, rfl⟩
  · intro given
    obtain ⟨others, found, rfl⟩ := given
    exact ⟨_, others, rfl, found, rfl⟩

theorem replaces_append {front more result : List Char} (plain : 'c' ∉ front) :
    Replaces index (front ++ more) result ↔
      ∃ others, Replaces index more others ∧ result = front ++ others := by
  induction front generalizing result with
  | nil => simp
  | cons c front ih =>
    have other : c ≠ 'c' := fun same => plain (by simp [same])
    simp only [List.cons_append, replaces_cons other, ih fun member => plain (List.mem_cons_of_mem _ member)]
    constructor
    · intro given
      obtain ⟨_, ⟨others, found, rfl⟩, rfl⟩ := given
      exact ⟨others, found, rfl⟩
    · intro given
      obtain ⟨others, found, rfl⟩ := given
      exact ⟨_, ⟨others, found, rfl⟩, rfl⟩

/-- The texts before and after a quote are replaced on their own. -/
theorem replaces_quoted {body more result : List Char} :
    Replaces index (body ++ '"' :: more) result ↔
      ∃ inside others, Replaces index body inside ∧ Replaces index more others ∧
        result = inside ++ '"' :: others := by
  have quote : Separates .standard '"' := ⟨by decide, by decide, by decide, by decide⟩
  simp only [Replaces, pieces, piecesAfter_separated quote (Nat.zero_le _),
    replacePieces_append_eq_ok, replacePieces_cons_eq_ok, Piece.replace, Except.ok.injEq]
  constructor
  · intro given
    obtain ⟨inside, _, found, ⟨_, others, rfl, remaining, rfl⟩, rfl⟩ := given
    exact ⟨inside, others, found, remaining, rfl⟩
  · intro given
    obtain ⟨inside, others, found, remaining, rfl⟩ := given
    exact ⟨inside, _, found, ⟨_, others, rfl, remaining, rfl⟩, rfl⟩

theorem mem_of_mem_pieces {placeholder : Placeholder} {text : List Char} {c : Char} {used : Nat}
    (member : Piece.plain c ∈ piecesAfter placeholder used text) : c ∈ text := by
  induction text generalizing used with
  | nil => simp [piecesAfter] at member
  | cons first rest ih =>
    cases used with
    | succ used => exact List.mem_cons_of_mem _ (ih member)
    | zero =>
      rw [piecesAfter] at member
      split at member
      next =>
        rcases List.mem_cons.mp member with same | later
        · cases same
        · exact List.mem_cons_of_mem _ (ih later)
      next =>
        rcases List.mem_cons.mp member with same | later
        · cases same
          exact List.mem_cons_self
        · exact List.mem_cons_of_mem _ (ih later)

theorem mem_of_replacePieces {parts : List Piece} {result : List Char} {c : Char}
    (found : replacePieces .standard index parts = .ok result) (member : c ∈ result) :
    Piece.plain c ∈ parts ∨ Text.isAsciiDigit c = true ∨ c = '-' := by
  induction parts generalizing result with
  | nil =>
    cases found
    cases member
  | cons piece parts ih =>
    obtain ⟨front, back, first, others, rfl⟩ := replacePieces_cons_eq_ok.mp found
    rcases List.mem_append.mp member with early | late
    · cases piece with
      | plain other =>
        cases first
        exact .inl (by simp_all)
      | token offset =>
        simp only [Piece.replace] at first
        split at first
        next value _ =>
          cases first
          exact .inr (mem_writeInteger early)
        next => cases first
    · exact (ih others late).imp_left (List.mem_cons_of_mem _)

/-- Tokens are replaced by digits and minus signs only. -/
theorem mem_of_replaces {text result : List Char} {c : Char} (replaced : Replaces index text result)
    (member : c ∈ result) : c ∈ text ∨ Text.isAsciiDigit c = true ∨ c = '-' :=
  (mem_of_replacePieces replaced member).imp_left mem_of_mem_pieces

/-- A name that replacing index tokens neither changes nor makes. -/
def Steady (name : String) : Prop :=
  ∀ index text result, substitute .standard index text = .ok result → (result = name ↔ text = name)

theorem substitute_plain {text : String} (plain : 'c' ∉ text.toList) :
    substitute .standard index text = .ok text := by
  rw [substitute_eq_ok]
  have whole : Replaces index (text.toList ++ []) text.toList :=
    (replaces_append plain).mpr ⟨[], replaces_nil.mpr rfl, by simp⟩
  simpa [Replaces] using whole

/-- Names without index tokens and without digits are steady. -/
theorem Steady.of_plain {name : String} (plain : isPlain .standard name = true)
    (clean : name.toList.any Text.isAsciiDigit = false) : Steady name := by
  intro index text result replaced
  constructor
  · intro same
    subst same
    exact eq_of_substitute_of_no_digit replaced clean
  · intro same
    subst same
    have same : pieces .standard text.toList = text.toList.map .plain :=
      piecesAfter_eq_plain (by simpa [isPlain, pieces] using plain)
    rw [substitute_eq_ok, same, replacePieces_plain, Except.ok.injEq] at replaced
    exact (String.toList_inj.mp replaced).symm

end Pagewright.Expansion
