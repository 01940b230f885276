import Pagewright.Proofs.Expansion.Scan

/-! The reading of a document after index tokens have been replaced in its text. It is put
together from the same tokens, so it has the shape of the reading before, with every string
replaced, keys included. -/

namespace Pagewright.Expansion

open Json

variable {index : Int}

mutual

/-- A reading without faults, and the same reading with every string in it replaced. -/
inductive Becomes (index : Int) : Reading → Reading → Prop where
  | null : Becomes index .null .null
  | bool (value : Bool) : Becomes index (.bool value) (.bool value)
  | number (literal : Literal) : Becomes index (.number literal) (.number literal)
  | string {text result : String} (replaced : substitute .standard index text = .ok result) :
      Becomes index (.string (some text)) (.string (some result))
  | array {items others : List Reading} (each : ItemsBecome index items others) :
      Becomes index (.array items none) (.array others none)
  | object {members others : List (Option String × Reading)}
      (each : MembersBecome index members others) :
      Becomes index (.object members none) (.object others none)

inductive ItemsBecome (index : Int) : List Reading → List Reading → Prop where
  | nil : ItemsBecome index [] []
  | cons {item other : Reading} {rest others : List Reading} (first : Becomes index item other)
      (later : ItemsBecome index rest others) : ItemsBecome index (item :: rest) (other :: others)

inductive MembersBecome (index : Int) :
    List (Option String × Reading) → List (Option String × Reading) → Prop where
  | nil : MembersBecome index [] []
  | cons {key name : String} {value other : Reading} {rest others : List (Option String × Reading)}
      (replaced : substitute .standard index key = .ok name) (first : Becomes index value other)
      (later : MembersBecome index rest others) :
      MembersBecome index ((some key, value) :: rest) ((some name, other) :: others)

end

theorem ItemsBecome.append {items others back last : List Reading} (each : ItemsBecome index items others)
    (behind : ItemsBecome index back last) : ItemsBecome index (items ++ back) (others ++ last) := by
  induction items generalizing others with
  | nil =>
    cases each
    exact behind
  | cons item rest ih =>
    cases each with
    | cons first later => exact .cons first (ih later)

theorem ItemsBecome.reverse {items others : List Reading} (each : ItemsBecome index items others) :
    ItemsBecome index items.reverse others.reverse := by
  induction items generalizing others with
  | nil =>
    cases each
    exact .nil
  | cons item rest ih =>
    cases each with
    | cons first later =>
      rw [List.reverse_cons, List.reverse_cons]
      exact (ih later).append (.cons first .nil)

theorem MembersBecome.append {members others back last : List (Option String × Reading)}
    (each : MembersBecome index members others) (behind : MembersBecome index back last) :
    MembersBecome index (members ++ back) (others ++ last) := by
  induction members generalizing others with
  | nil =>
    cases each
    exact behind
  | cons member rest ih =>
    cases each with
    | cons replaced first later => exact .cons replaced first (ih later)

theorem MembersBecome.reverse {members others : List (Option String × Reading)}
    (each : MembersBecome index members others) :
    MembersBecome index members.reverse others.reverse := by
  induction members generalizing others with
  | nil =>
    cases each
    exact .nil
  | cons member rest ih =>
    cases each with
    | cons replaced first later =>
      rw [List.reverse_cons, List.reverse_cons]
      exact (ih later).append (.cons replaced first .nil)

inductive FrameBecomes (index : Int) : Frame → Frame → Prop where
  | array {items others : List Reading} (each : ItemsBecome index items others) :
      FrameBecomes index (.array items) (.array others)
  | member {members others : List (Option String × Reading)} {key name : String}
      (each : MembersBecome index members others)
      (replaced : substitute .standard index key = .ok name) :
      FrameBecomes index (.member members (some key)) (.member others (some name))

inductive ExpectingBecomes (index : Int) : Expecting → Expecting → Prop where
  | value : ExpectingBecomes index .value .value
  | firstItem : ExpectingBecomes index .firstItem .firstItem
  | itemEnd {items others : List Reading} (each : ItemsBecome index items others) :
      ExpectingBecomes index (.itemEnd items) (.itemEnd others)
  | firstKey : ExpectingBecomes index .firstKey .firstKey
  | nextKey {members others : List (Option String × Reading)}
      (each : MembersBecome index members others) :
      ExpectingBecomes index (.nextKey members) (.nextKey others)
  | colon {members others : List (Option String × Reading)} {key name : String}
      (each : MembersBecome index members others)
      (replaced : substitute .standard index key = .ok name) :
      ExpectingBecomes index (.colon members (some key)) (.colon others (some name))
  | memberEnd {members others : List (Option String × Reading)}
      (each : MembersBecome index members others) :
      ExpectingBecomes index (.memberEnd members) (.memberEnd others)

/-- Steps that go on alike. Of a step that stops nothing is said. -/
inductive StepBecomes (index : Int) : Step → Step → Prop where
  | more {expecting next : Expecting} {frames others : List Frame}
      (state : ExpectingBecomes index expecting next)
      (open_ : List.Forall₂ (FrameBecomes index) frames others) :
      StepBecomes index (.more expecting frames) (.more next others)
  | complete {root other : Reading} (value : Becomes index root other) :
      StepBecomes index (.complete root) (.complete other)
  | stopped (root : Reading) (other : Step) : StepBecomes index (.stopped root) other

section Assembled

variable {expecting next : Expecting} {frames others : List Frame} {token replaced : Token}

theorem deliver_becomes {value other : Reading} (delivered : Becomes index value other)
    (open_ : List.Forall₂ (FrameBecomes index) frames others) :
    StepBecomes index (deliver value frames) (deliver other others) := by
  cases open_ with
  | nil => exact .complete delivered
  | cons frame rest =>
    cases frame with
    | array each => exact .more (.itemEnd (.cons delivered each)) rest
    | member each key => exact .more (.memberEnd (.cons key delivered each)) rest

theorem stepValue_becomes (read : TokenBecomes index token replaced)
    (open_ : List.Forall₂ (FrameBecomes index) frames others) :
    StepBecomes index (stepValue frames token) (stepValue others replaced) := by
  cases read with
  | string text => exact deliver_becomes (.string text) open_
  | other plain =>
    cases token with
    | null => exact deliver_becomes .null open_
    | bool value => exact deliver_becomes (.bool value) open_
    | number literal => exact deliver_becomes (.number literal) open_
    | arrayOpen => exact .more .firstItem open_
    | objectOpen => exact .more .firstKey open_
    | string text => cases plain
    | arrayClose | objectClose | colon | comma | broken => exact .stopped _ _

theorem stepKey_becomes {members after : List (Option String × Reading)}
    (each : MembersBecome index members after) (read : TokenBecomes index token replaced)
    (open_ : List.Forall₂ (FrameBecomes index) frames others) :
    StepBecomes index (stepKey members frames token) (stepKey after others replaced) := by
  cases read with
  | string text => exact .more (.colon each text) open_
  | other plain =>
    unfold stepKey
    split
    next => cases plain
    all_goals exact .stopped _ _

theorem step_becomes (state : ExpectingBecomes index expecting next)
    (read : TokenBecomes index token replaced)
    (open_ : List.Forall₂ (FrameBecomes index) frames others) :
    StepBecomes index (expecting.step frames token) (next.step others replaced) := by
  cases state with
  | value => exact stepValue_becomes read open_
  | firstItem =>
    by_cases close : token = .arrayClose
    · subst close
      cases read
      exact deliver_becomes (.array .nil) open_
    · have value := stepValue_becomes read (.cons (.array .nil) open_)
      cases read with
      | string text => exact value
      | other plain =>
        cases token with
        | arrayClose => exact absurd rfl close
        | _ => exact value
  | itemEnd each =>
    cases read with
    | string text => exact .stopped _ _
    | other plain =>
      cases token with
      | comma => exact .more .value (.cons (.array each) open_)
      | arrayClose => exact deliver_becomes (.array each.reverse) open_
      | _ => exact .stopped _ _
  | firstKey =>
    have key := stepKey_becomes .nil read open_
    cases read with
    | string text => exact key
    | other plain =>
      cases token with
      | objectClose => exact deliver_becomes (.object .nil) open_
      | _ => exact key
  | nextKey each => exact stepKey_becomes each read open_
  | colon each key =>
    cases read with
    | string text => exact .stopped _ _
    | other plain =>
      cases token with
      | colon => exact .more .value (.cons (.member each key) open_)
      | _ => exact .stopped _ _
  | memberEnd each =>
    cases read with
    | string text => exact .stopped _ _
    | other plain =>
      cases token with
      | comma => exact .more (.nextKey each) open_
      | objectClose => exact deliver_becomes (.object each.reverse) open_
      | _ => exact .stopped _ _

/-- A document without faults is read to its end before and after. -/
theorem assemble_becomes {tokens after : List Token} (read : List.Forall₂ (TokenBecomes index) tokens after)
    (state : ExpectingBecomes index expecting next)
    (open_ : List.Forall₂ (FrameBecomes index) frames others)
    (sound : ¬ Faulty (assemble expecting frames tokens).root)
    (ended : (assemble expecting frames tokens).trailing = false) :
    (assemble next others after).trailing = false ∧
      Becomes index (assemble expecting frames tokens).root (assemble next others after).root := by
  induction read generalizing expecting next frames others with
  | nil => exact absurd (faulty_atEnd expecting frames) sound
  | @cons token replaced tokens after first later ih =>
    have step := step_becomes state first open_
    rw [assemble] at sound ended ⊢
    rw [assemble]
    generalize here : expecting.step frames token = taken at *
    generalize next.step others replaced = also at *
    cases step with
    | more state open_ => exact ih state open_ sound ended
    | complete value =>
      cases later with
      | nil => exact ⟨rfl, value⟩
      | cons => cases ended
    | stopped root other => exact absurd (faulty_of_stopped here) sound

end Assembled

/-- Replacing the index tokens of a document text without escapes replaces those of its strings. -/
theorem ofText_becomes {text result : String} (plain : '\\' ∉ text.toList)
    (sound : ¬ Faulty (Document.ofText text).root) (ended : (Document.ofText text).trailing = false)
    (replaced : substitute .standard index text = .ok result) :
    (Document.ofText result).trailing = false ∧
      Becomes index (Document.ofText text).root (Document.ofText result).root := by
  have tokenized : Tokenized text.toList := isBroken_of_assemble sound ended
  exact assemble_becomes (tokens_become plain tokenized (substitute_eq_ok.mp replaced)) .value .nil sound ended

end Pagewright.Expansion
