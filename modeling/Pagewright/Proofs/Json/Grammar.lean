import Pagewright.Json.Reading

/-! The grammar of JSON over tokens. A text that it derives for a reading is read as that reading, with nothing
left behind. -/

namespace Pagewright.Json

/-- What a piece of a text stands for. -/
inductive Part where
  | value (reading : Reading)
  | laterItems (items : List Reading)
  | laterMembers (members : List (Option String × Reading))

/-- The tokens of a value, and of what follows the first item of an array or the first member of an object. -/
inductive Spelled : Part → List Token → Prop where
  | null : Spelled (.value .null) [.null]
  | bool (value : Bool) : Spelled (.value (.bool value)) [.bool value]
  | number (literal : Literal) : Spelled (.value (.number literal)) [.number literal]
  | string (text : Option String) : Spelled (.value (.string text)) [.string text]
  | emptyArray : Spelled (.value (.array [] none)) [.arrayOpen, .arrayClose]
  | array {item : Reading} {items : List Reading} {first others : List Token} (head : Spelled (.value item) first)
      (tail : Spelled (.laterItems items) others) :
      Spelled (.value (.array (item :: items) none)) (.arrayOpen :: (first ++ (others ++ [.arrayClose])))
  | emptyObject : Spelled (.value (.object [] none)) [.objectOpen, .objectClose]
  | object {key : Option String} {value : Reading} {members : List (Option String × Reading)} {first others : List Token}
      (head : Spelled (.value value) first) (tail : Spelled (.laterMembers members) others) :
      Spelled (.value (.object ((key, value) :: members) none))
        (.objectOpen :: .string key :: .colon :: (first ++ (others ++ [.objectClose])))
  | noItem : Spelled (.laterItems []) []
  | nextItem {item : Reading} {items : List Reading} {first others : List Token} (head : Spelled (.value item) first)
      (tail : Spelled (.laterItems items) others) : Spelled (.laterItems (item :: items)) (.comma :: (first ++ others))
  | noMember : Spelled (.laterMembers []) []
  | nextMember {key : Option String} {value : Reading} {members : List (Option String × Reading)}
      {first others : List Token} (head : Spelled (.value value) first) (tail : Spelled (.laterMembers members) others) :
      Spelled (.laterMembers ((key, value) :: members)) (.comma :: .string key :: .colon :: (first ++ others))

/-- A text that is spelled as a reading. -/
def StandsFor (text : String) (reading : Reading) : Prop := Spelled (.value reading) (tokens text.toList)

theorem StandsFor.of {text : String} {reading : Reading} {spelling : List Token} (scanned : tokens text.toList = spelling)
    (spelled : Spelled (.value reading) spelling) : StandsFor text reading := by
  rwa [StandsFor, scanned]

section Assembled

variable {part : Part} {spelling : List Token} {reading : Reading}

/-- What becomes of a document after a step. -/
def Step.document (rest : List Token) : Step → Document
  | .more expecting frames => assemble expecting frames rest
  | .complete root => ⟨root, !rest.isEmpty⟩
  | .stopped root => ⟨root, false⟩

theorem assemble_cons (expecting : Expecting) (frames : List Frame) (token : Token) (rest : List Token) :
    assemble expecting frames (token :: rest) = (expecting.step frames token).document rest := by
  rw [assemble]
  cases expecting.step frames token <;> rfl

/-- What the reader makes of the tokens of a part, in whatever container it stands. -/
def Part.Assembles : Part → List Token → Prop
  | .value reading, spelling => ∀ frames more,
      assemble .value frames (spelling ++ more) = (deliver reading frames).document more
  | .laterItems items, spelling => ∀ known frames more,
      assemble (.itemEnd known) frames (spelling ++ .arrayClose :: more) =
        (deliver (.array (known.reverse ++ items) none) frames).document more
  | .laterMembers members, spelling => ∀ known frames more,
      assemble (.memberEnd known) frames (spelling ++ .objectClose :: more) =
        (deliver (.object (known.reverse ++ members) none) frames).document more

/-- No value starts with the token that closes an array. -/
theorem Spelled.firstItem (spelled : Spelled (.value reading) spelling) (frames : List Frame) (more : List Token) :
    assemble .firstItem frames (spelling ++ more) = assemble .value (.array [] :: frames) (spelling ++ more) := by
  cases spelled <;> rfl

theorem Spelled.assembles (spelled : Spelled part spelling) : part.Assembles spelling := by
  induction spelled with
  | null | bool | number | string => exact fun frames more => assemble_cons _ _ _ _
  | emptyArray | emptyObject => exact fun frames more => (assemble_cons _ _ _ _).trans (assemble_cons _ _ _ _)
  | @array item items first others head tail ih ih' =>
    intro frames more
    simp only [List.cons_append, List.append_assoc, List.nil_append]
    rw [assemble_cons]
    exact (head.firstItem frames _).trans ((ih _ _).trans (ih' [item] frames more))
  | @object key value members first others head tail ih ih' =>
    intro frames more
    simp only [List.cons_append, List.append_assoc, List.nil_append]
    rw [assemble_cons, Expecting.step, stepValue, Step.document, assemble_cons]
    refine (assemble_cons (.colon [] key) frames .colon _).trans ?_
    exact (ih _ _).trans (ih' [(key, value)] frames more)
  | noItem =>
    intro known frames more
    rw [List.nil_append, assemble_cons, List.append_nil]
    rfl
  | @nextItem item items first others head tail ih ih' =>
    intro known frames more
    have again := ih' (item :: known) frames more
    rw [List.reverse_cons, List.append_assoc] at again
    simp only [List.cons_append, List.append_assoc]
    rw [assemble_cons]
    exact (ih (.array known :: frames) _).trans again
  | noMember =>
    intro known frames more
    rw [List.nil_append, assemble_cons, List.append_nil]
    rfl
  | @nextMember key value members first others head tail ih ih' =>
    intro known frames more
    have again := ih' ((key, value) :: known) frames more
    rw [List.reverse_cons, List.append_assoc] at again
    simp only [List.cons_append, List.append_assoc]
    rw [assemble_cons, Expecting.step, Step.document, assemble_cons]
    refine (assemble_cons (.colon known key) frames .colon _).trans ?_
    exact (ih (.member known key :: frames) _).trans again

/-- A text is read as what it stands for. -/
theorem StandsFor.ofText {text : String} (stands : StandsFor text reading) : Document.ofText text = ⟨reading, false⟩ := by
  have assembled := stands.assembles [] []
  rw [List.append_nil] at assembled
  exact assembled

end Assembled

end Pagewright.Json
