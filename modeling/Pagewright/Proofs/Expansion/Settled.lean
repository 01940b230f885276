import Mathlib
import Pagewright.Proofs.Expansion.Copy

/-! What is left to replace in an instance: nothing. The parts of a text between its tokens hold no
token, and no number can complete one, so the blueprints inside an instance have only the index of
that instance left and all their copies are alike. -/

namespace Pagewright.Expansion

open Skeleton Text

variable {placeholder : Placeholder} {index : Int}

/-- No character of the placeholder can come from a printed index. -/
def Placeholder.Numberless (placeholder : Placeholder) : Prop :=
  ∀ c ∈ placeholder.name, isAsciiDigit c = false ∧ c ≠ '-'

instance (placeholder : Placeholder) : Decidable placeholder.Numberless :=
  decidable_of_iff (placeholder.name.all fun c => !isAsciiDigit c && c != '-')
    (by simp [Placeholder.Numberless])

section Texts

theorem not_mem_writeInteger {c : Char} (other : isAsciiDigit c = false ∧ c ≠ '-') (value : Int) :
    c ∉ writeInteger value := by
  intro member
  rcases mem_writeInteger member with digit | sign
  · simp [other.1] at digit
  · exact other.2 sign

/-- A token leaves a printed index behind. -/
theorem replaceToken_eq_ok {offset : Option (List Char)} {replaced : List Char}
    (found : (Piece.token offset).replace placeholder index = .ok replaced) :
    ∃ value, replaced = writeInteger value := by
  rw [Piece.replace] at found
  split at found
  next value _ =>
    cases found
    exact ⟨value, rfl⟩
  next => cases found

theorem writeInteger_ne_nil (value : Int) : writeInteger value ≠ [] := by
  obtain ⟨c, member, _⟩ := exists_digit_writeInteger value
  exact List.ne_nil_of_mem member

theorem any_isToken_eq_false {text : List Char} :
    (piecesAfter placeholder 0 text).any Piece.isToken = false ↔ ¬ placeholder.name <:+: text := by
  induction text with
  | nil => simp [piecesAfter, placeholder.nonempty]
  | cons c rest ih =>
    rw [piecesAfter, List.infix_cons_iff, ← List.isPrefixOf_iff_prefix]
    split
    next starts => simp [Piece.isToken, starts]
    next other => simp [Piece.isToken, other, ih]

/-- A part that no index can belong to starts the replaced text only where it started the text. -/
theorem prefix_of_replaced {part text result : List Char}
    (numberless : ∀ c ∈ part, isAsciiDigit c = false ∧ c ≠ '-')
    (replaced : replacePieces placeholder index (piecesAfter placeholder 0 text) = .ok result)
    (starts : part <+: result) : part <+: text := by
  induction text generalizing part result with
  | nil =>
    cases replaced
    exact starts
  | cons d rest ih =>
    cases part with
    | nil => exact List.nil_prefix
    | cons c part =>
      rw [piecesAfter] at replaced
      split at replaced
      next =>
        obtain ⟨front, back, found, _, rfl⟩ := replacePieces_cons_eq_ok.mp replaced
        obtain ⟨value, rfl⟩ := replaceToken_eq_ok found
        obtain ⟨head, tail, written⟩ := List.exists_cons_of_ne_nil (writeInteger_ne_nil value)
        rw [written, List.cons_append, List.cons_prefix_cons] at starts
        have absent := not_mem_writeInteger (numberless c List.mem_cons_self) value
        exact absurd (by simp [written, starts.1]) absent
      next =>
        obtain ⟨front, back, found, others, rfl⟩ := replacePieces_cons_eq_ok.mp replaced
        cases found
        rw [List.singleton_append, List.cons_prefix_cons] at starts
        rw [List.cons_prefix_cons]
        exact ⟨starts.1, ih (fun c member => numberless c (List.mem_cons_of_mem _ member)) others starts.2⟩

theorem infix_behind_index {name more : List Char} {value : Int} (present : name ≠ [])
    (numberless : ∀ c ∈ name, isAsciiDigit c = false ∧ c ≠ '-')
    (inside : name <:+: writeInteger value ++ more) : name <:+: more := by
  obtain ⟨c, rest, rfl⟩ := List.exists_cons_of_ne_nil present
  have other := not_mem_writeInteger (numberless c List.mem_cons_self) value
  generalize writeInteger value = digits at inside other
  induction digits with
  | nil => exact inside
  | cons digit digits ih =>
    rw [List.cons_append, List.infix_cons_iff, List.cons_prefix_cons] at inside
    rw [List.mem_cons, not_or] at other
    exact ih (inside.resolve_left fun starts => other.1 starts.1) other.2

/-- Every place in a replaced text is a place of the text behind its tokens, or lies in an index. -/
theorem not_infix_of_replaced (numberless : placeholder.Numberless) {used : Nat}
    {text result : List Char}
    (replaced : replacePieces placeholder index (piecesAfter placeholder used text) = .ok result) :
    ¬ placeholder.name <:+: result := by
  induction text generalizing used result with
  | nil =>
    rw [piecesAfter] at replaced
    cases replaced
    simp [placeholder.nonempty]
  | cons c rest ih =>
    cases used with
    | succ used => exact ih replaced
    | zero =>
      rw [piecesAfter] at replaced
      split at replaced
      next =>
        obtain ⟨front, back, found, others, rfl⟩ := replacePieces_cons_eq_ok.mp replaced
        obtain ⟨value, rfl⟩ := replaceToken_eq_ok found
        exact fun inside => ih others (infix_behind_index placeholder.nonempty numberless inside)
      next other =>
        obtain ⟨front, back, found, others, rfl⟩ := replacePieces_cons_eq_ok.mp replaced
        cases found
        rw [List.singleton_append, List.infix_cons_iff]
        rintro (starts | later)
        · -- The name would start here in the text too, and would have been taken for a token.
          obtain ⟨first, name, same⟩ := List.exists_cons_of_ne_nil placeholder.nonempty
          rw [same, List.cons_prefix_cons] at starts
          have behind := prefix_of_replaced
            (fun d member => numberless d (by simp [same, member])) others starts.2
          apply other
          rw [List.isPrefixOf_iff_prefix, same, List.cons_prefix_cons]
          exact ⟨starts.1, behind⟩
        · exact ih others later

/-- A text whose tokens have been replaced has none left. -/
theorem substitute_of_substituted (numberless : placeholder.Numberless) {text result : String}
    (replaced : substitute placeholder index text = .ok result) (other : Int) :
    substitute placeholder other result = .ok result := by
  have plain := any_isToken_eq_false.mpr (not_infix_of_replaced numberless (substitute_eq_ok.mp replaced))
  rw [substitute_eq_ok, pieces, piecesAfter_eq_plain plain, replacePieces_plain]

end Texts

section Copies

variable {ε α : Type}

/-- What one change has made, the other leaves alone. -/
def Settles (change later : α → Except ε α) : Prop :=
  ∀ before after, change before = .ok after → later after = .ok after

theorem mapList_of_settled {later : α → Except ε α} {items : List α}
    (settled : ∀ item ∈ items, later item = .ok item) : mapList later items = .ok items := by
  induction items with
  | nil => rfl
  | cons first rest ih =>
    exact mapList_cons_eq_ok.mpr ⟨first, rest, settled first List.mem_cons_self,
      ih fun item member => settled item (List.mem_cons_of_mem _ member), rfl⟩

theorem Settles.list {change later : α → Except ε α} (settles : Settles change later) :
    Settles (mapList change) (mapList later) := by
  intro before after mapped
  refine mapList_of_settled fun item member => ?_
  obtain ⟨original, _, changed⟩ := mem_mapList mapped member
  exact settles original item changed

theorem Settles.option {change later : α → Except ε α} (settles : Settles change later) :
    Settles (mapOption change) (mapOption later) := by
  intro before after mapped
  cases after with
  | none => rfl
  | some changed =>
    obtain ⟨original, _, found⟩ := mapOption_eq_some.mp mapped
    exact mapOption_eq_some.mpr ⟨changed, rfl, settles original changed found⟩

variable {f g : String → Except ε String}

theorem Settles.scalar (settles : Settles f g) : Settles (mapScalar f) (mapScalar g) := by
  intro before after mapped
  cases before with
  | text value =>
    obtain ⟨changed, found, rfl⟩ := map_eq_ok.mp mapped
    exact map_eq_ok.mpr ⟨changed, settles _ _ found, rfl⟩
  | number value =>
    cases mapped
    rfl
  | bool value =>
    cases mapped
    rfl

theorem Settles.count (settles : Settles f g) : Settles (mapCount f) (mapCount g) := by
  intro before after mapped
  cases before with
  | literal value =>
    cases mapped
    rfl
  | expression text =>
    obtain ⟨changed, found, rfl⟩ := map_eq_ok.mp mapped
    exact map_eq_ok.mpr ⟨changed, settles _ _ found, rfl⟩

theorem Settles.extension (settles : Settles f g) : Settles (mapExtension f) (mapExtension g) := by
  intro before after mapped
  rw [mapExtension_eq_ok] at mapped ⊢
  exact ⟨settles _ _ mapped.1, settles _ _ mapped.2⟩

theorem Settles.mediaQuery (settles : Settles f g) : Settles (mapMediaQuery f) (mapMediaQuery g) := by
  intro before after mapped
  rw [mapMediaQuery_eq_ok] at mapped ⊢
  exact ⟨settles _ _ mapped.1, settles _ _ mapped.2⟩

/-- Merged entries are among those that were changed. -/
theorem Settles.attributes (settles : Settles f g) : Settles (mapAttributes f) (mapAttributes g) := by
  intro before after mapped
  obtain ⟨entries, changed, rfl⟩ := mapAttributes_eq_ok.mp mapped
  refine mapAttributes_eq_ok.mpr ⟨(Keyed.ofList entries).entries, ?_, (Keyed.ofList_entries _).symm⟩
  refine mapList_of_settled fun entry member => ?_
  obtain ⟨original, _, found⟩ := mem_mapList changed (Keyed.mem_ofList member)
  rw [mapEntry_eq_ok] at found ⊢
  exact ⟨settles _ _ found.1, settles.scalar _ _ found.2⟩

theorem Settles.element (settles : Settles f g) : Settles (mapElement f) (mapElement g) := by
  intro before after mapped
  obtain ⟨tag, className, style, extensions, mediaQueries, attributes, text⟩ := mapElement_eq_ok.mp mapped
  exact mapElement_eq_ok.mpr ⟨settles.option _ _ tag, settles.option _ _ className,
    settles.option _ _ style, settles.extension.list _ _ extensions,
    settles.mediaQuery.list _ _ mediaQueries, settles.attributes _ _ attributes,
    settles.option _ _ text⟩

theorem Settles.node (settles : Settles f g) : Settles (mapNode f) (mapNode g) := by
  intro before after mapped
  induction before using nodeInduction generalizing after with
  | step before template each =>
    obtain ⟨element, blueprints, children⟩ := mapNode_eq_ok.mp mapped
    refine mapNode_eq_ok.mpr ⟨settles.element _ _ element, ?_, mapList_of_settled ?_⟩
    · cases repeats : after.blueprint with
      | none => rfl
      | some changed =>
        obtain ⟨blueprint, present, found⟩ := mapOption_eq_some.mp (repeats ▸ blueprints)
        obtain ⟨counted, copied⟩ := mapBlueprint_eq_ok.mp found
        have settled := template blueprint present _ copied
        exact mapOption_eq_some.mpr ⟨changed, rfl,
          mapBlueprint_eq_ok.mpr ⟨settles.count _ _ counted, settled⟩⟩
    · intro child member
      obtain ⟨original, inside, copied⟩ := mem_mapList children member
      exact each original inside _ copied

end Copies

section Instances

/-- An instance has no tokens left. -/
theorem expand_of_expanded (numberless : placeholder.Numberless) {template copy : Node}
    (expanded : expand placeholder template index = .ok copy) (other : Int) :
    expand placeholder copy other = .ok copy := by
  have settles : Settles (substitute placeholder index) (substitute placeholder other) :=
    fun _ _ replaced => substitute_of_substituted numberless replaced other
  exact settles.node template copy expanded

theorem getElem?_expandFrom {template copy : Node} {start count : Nat} {copies : List Node}
    (found : expandFrom placeholder template start count = .ok copies) {position : Nat}
    (there : copies[position]? = some copy) :
    expand placeholder template (start + position : Nat) = .ok copy := by
  induction count generalizing start copies position with
  | zero =>
    cases found
    cases there
  | succ remaining ih =>
    simp only [expandFrom, bind_eq_ok, pure, Except.pure, Except.ok.injEq] at found
    obtain ⟨first, expanded, rest, others, rfl⟩ := found
    cases position with
    | zero =>
      cases there
      exact expanded
    | succ position =>
      have shifted : start + (position + 1) = start + 1 + position := by omega
      rw [shifted]
      exact ih others there

theorem getElem?_instances {blueprint : Blueprint} {copy : Node} {copies : List Node} {position : Nat}
    (found : instances placeholder blueprint = .ok copies) (there : copies[position]? = some copy) :
    expand placeholder blueprint.template position = .ok copy := by
  obtain ⟨count, _, expanded⟩ := bind_eq_ok.mp found
  simpa only [Nat.zero_add] using getElem?_expandFrom expanded there

theorem expandFrom_of_settled {template : Node}
    (settled : ∀ index, expand placeholder template index = .ok template) (start count : Nat) :
    expandFrom placeholder template start count = .ok (List.replicate count template) := by
  induction count generalizing start with
  | zero => rfl
  | succ remaining ih =>
    rw [expandFrom, settled, ih, List.replicate_succ]
    rfl

/-- A blueprint without tokens repeats its template as it is, as often as its count says. -/
theorem instances_of_settled {blueprint : Blueprint}
    (settled : ∀ index, expand placeholder blueprint.template index = .ok blueprint.template) :
    instances placeholder blueprint =
      (List.replicate · blueprint.template) <$> resolveCount blueprint.count := by
  simp only [instances, expandFrom_of_settled settled]
  rfl

/-- The copies that a blueprint of a template has inside an instance of the template. The blueprint
is the one written in the template, and the copies are those found in the same place of the instance:
below the children of the same number, and inside any copy made by the blueprints around it. -/
inductive CopyWithin (placeholder : Placeholder) (blueprint : Blueprint) : Node → Node → Node → Prop where
  | own {template copy repeated : Node} {copies : List Node}
      (repeats : template.blueprint = some blueprint)
      (expanded : ownInstances placeholder copy = .ok copies) (member : repeated ∈ copies) :
      CopyWithin placeholder blueprint template copy repeated
  | around {template copy repeated between : Node} {outer : Blueprint} {copies : List Node}
      (repeats : template.blueprint = some outer)
      (expanded : ownInstances placeholder copy = .ok copies) (member : between ∈ copies)
      (within : CopyWithin placeholder blueprint outer.template between repeated) :
      CopyWithin placeholder blueprint template copy repeated
  | child {template copy repeated child below : Node} (position : Nat)
      (original : template.children[position]? = some child)
      (same : copy.children[position]? = some below)
      (within : CopyWithin placeholder blueprint child below repeated) :
      CopyWithin placeholder blueprint template copy repeated

/-- A blueprint that has been expanded with the node around it makes equal copies. -/
theorem expand_of_ownInstances (numberless : placeholder.Numberless) {template copy repeated : Node}
    {blueprint : Blueprint} {copies : List Node}
    (expanded : expand placeholder template index = .ok copy)
    (repeats : template.blueprint = some blueprint)
    (found : ownInstances placeholder copy = .ok copies) (member : repeated ∈ copies) :
    expand placeholder blueprint.template index = .ok repeated := by
  obtain ⟨_, blueprints, _⟩ := mapNode_eq_ok.mp expanded
  rw [repeats] at blueprints
  cases inner : copy.blueprint with
  | none =>
    rw [inner] at blueprints
    cases mapOption_eq_none.mp blueprints
  | some changed =>
    rw [inner] at blueprints
    obtain ⟨_, same, copied⟩ := mapOption_eq_some.mp blueprints
    cases same
    have inside : expand placeholder blueprint.template index = .ok changed.template :=
      (mapBlueprint_eq_ok.mp copied).2
    have alike := instances_of_settled (expand_of_expanded numberless inside)
    simp only [ownInstances, inner, alike, map_eq_ok] at found
    obtain ⟨count, _, rfl⟩ := found
    rw [List.eq_of_mem_replicate member]
    exact inside

theorem CopyWithin.expanded (numberless : placeholder.Numberless) {template copy repeated : Node}
    {blueprint : Blueprint} (within : CopyWithin placeholder blueprint template copy repeated)
    (expanded : expand placeholder template index = .ok copy) :
    expand placeholder blueprint.template index = .ok repeated := by
  induction within with
  | own repeats found member => exact expand_of_ownInstances numberless expanded repeats found member
  | around repeats found member _ ih =>
    exact ih (expand_of_ownInstances numberless expanded repeats found member)
  | child _ original same _ ih =>
    obtain ⟨_, _, children⟩ := mapNode_eq_ok.mp expanded
    have copied := getElem?_mapList children original same
    exact ih copied

/-- The index of the outermost blueprint is the only one that ever appears. Its instances stay as
they are under every other index, and whatever the blueprints inside them repeat has that index too. -/
theorem outer_index_prevails (numberless : placeholder.Numberless) :
    (∀ template index copy, expand placeholder template index = .ok copy →
      ∀ other, expand placeholder copy other = .ok copy) ∧
    ∀ outer copies, instances placeholder outer = .ok copies →
      ∀ (index : Nat) copy, copies[index]? = some copy →
        ∀ inner repeated, CopyWithin placeholder inner outer.template copy repeated →
          expand placeholder inner.template index = .ok repeated ∧
            ∀ another, CopyWithin placeholder inner outer.template copy another →
              another = repeated := by
  constructor
  · intro template index copy expanded
    exact expand_of_expanded numberless expanded
  · intro outer copies found index copy there inner repeated within
    have expanded := getElem?_instances found there
    have first := within.expanded numberless expanded
    refine ⟨first, fun another again => ?_⟩
    have second := again.expanded numberless expanded
    exact Except.ok.inj (second.symm.trans first)

theorem numberless_standard : Placeholder.standard.Numberless := by decide

/-- The innermost of three blueprints. Its count has a token too. -/
def verses : Blueprint where
  count := .expression "cwrapIndex+1"
  template := { own := { tag := some "li", text := some "verse cwrapIndex+3" } }

def chapters : Blueprint where
  count := .literal 2
  template := {
    own := { tag := some "section", className := some "n-cwrapIndex" }
    blueprint := some {
      count := .literal 2
      template := {
        own := { tag := some "p" }
        children := [{ own := { tag := some "ul" }, blueprint := some verses }] } } }

private def verse (text : String) : Node where
  own := { tag := some "li", text := some text }

private def passage (count text : String) : Node where
  own := { tag := some "p" }
  children := [{
    own := { tag := some "ul" }
    blueprint := some { count := .expression count, template := verse text } }]

private def chapter (className count text : String) : Node where
  own := { tag := some "section", className := some className }
  blueprint := some { count := .literal 2, template := passage count text }

/-- The second chapter has index one, so in both of its passages every verse is the fourth. -/
theorem outer_index_prevails_chapters :
    instances .standard chapters = .ok [chapter "n-0" "1" "verse 3", chapter "n-1" "2" "verse 4"] ∧
      expand .standard (chapter "n-1" "2" "verse 4") 7 = .ok (chapter "n-1" "2" "verse 4") ∧
      CopyWithin .standard verses chapters.template (chapter "n-1" "2" "verse 4") (verse "verse 4") ∧
      expand .standard verses.template 1 = .ok (verse "verse 4") := by
  obtain ⟨settled, inner⟩ := outer_index_prevails numberless_standard
  have found : instances .standard chapters =
      .ok [chapter "n-0" "1" "verse 3", chapter "n-1" "2" "verse 4"] := by cbv
  have expanded : expand .standard chapters.template (1 : Nat) = .ok (chapter "n-1" "2" "verse 4") :=
    getElem?_instances found rfl
  have passages : ownInstances .standard (chapter "n-1" "2" "verse 4") =
      .ok [passage "2" "verse 4", passage "2" "verse 4"] := by cbv
  have repeated : ownInstances .standard ⟨{ tag := some "ul" }, some ⟨.expression "2", verse "verse 4"⟩, []⟩ =
      .ok [verse "verse 4", verse "verse 4"] := by cbv
  have within : CopyWithin .standard verses chapters.template (chapter "n-1" "2" "verse 4")
      (verse "verse 4") :=
    .around rfl passages List.mem_cons_self (.child 0 rfl rfl (.own rfl repeated List.mem_cons_self))
  exact ⟨found, settled _ _ _ expanded 7, within, (inner _ _ found 1 _ rfl _ _ within).1⟩

end Instances

end Pagewright.Expansion
