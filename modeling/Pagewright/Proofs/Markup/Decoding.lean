import Mathlib
import Pagewright.Proofs.Markup.Written
import Pagewright.Proofs.Text.Span

/-! What can be read back from markup. Names, quoted values and texts each end at the first character
that they cannot hold, so the markup of a plain tree tells its elements apart whatever stands behind it,
and two plain trees with the same markup look the same. -/

namespace Pagewright.Markup

open Skeleton Expansion
open Style (CompileError)
open Text (Stops stops_cons takeWhile_span span_inj bne_of_absent delimited_inj)

variable {placeholder : Placeholder}

section Plain

/-- The characters of tags and attribute names. -/
def isNameCharacter (c : Char) : Bool := c.isAlphanum || c == '-'

structure IsName (name : String) : Prop where
  present : name ≠ ""
  characters : ∀ c ∈ name.toList, isNameCharacter c = true

instance (name : String) : Decidable (IsName name) :=
  decidable_of_iff (name ≠ "" ∧ name.toList.all isNameCharacter = true)
    ⟨fun given => ⟨given.1, List.all_eq_true.mp given.2⟩,
      fun named => ⟨named.present, List.all_eq_true.mpr named.characters⟩⟩

/-- What an element says of itself can be told from the markup around it. -/
structure PlainElement (tag : String) (own : Element) : Prop where
  tagged : own.tag = some tag
  name : IsName tag
  className : ∀ className, own.className = some className → '"' ∉ className.toList
  attributes : ∀ entry ∈ own.attributes.entries,
    IsName entry.1 ∧ entry.1 ≠ "class" ∧ '"' ∉ entry.2.display.toList
  text : ∀ text, own.text = some text → text ≠ "" ∧ '<' ∉ text.toList

/-- A tree of plain elements alone: without blueprints, without inert nodes, and without anything that
a tag without content would hide. -/
inductive PlainTree : Node → Prop where
  | node {node : Node} {tag : String} (own : PlainElement tag node.own)
      (single : node.blueprint = none)
      (closed : isSelfClosing tag = true → node.own.text = none ∧ node.children = [])
      (below : ∀ child ∈ node.children, PlainTree child) : PlainTree node

/-- The attributes of an element in their order, with the values that are shown. -/
def shownAttributes (own : Element) : List (String × String) :=
  own.attributes.entries.map fun (name, value) => (name, value.display)

/-- Trees that look the same on a page. -/
inductive SameLook : Node → Node → Prop where
  | node {first second : Node} (tag : first.own.tag = second.own.tag)
      (className : first.own.className = second.own.className)
      (attributes : shownAttributes first.own = shownAttributes second.own)
      (text : first.own.text = second.own.text)
      (children : List.Forall₂ SameLook first.children second.children) : SameLook first second

end Plain

section Attributes

/-- What is written for attributes, character by character. -/
def attributeCharacters : List (String × String) → List Char
  | [] => []
  | (name, value) :: rest =>
    ' ' :: (name.toList ++ '=' :: '"' :: (value.toList ++ '"' :: attributeCharacters rest))

/-- The class stands in front of the attributes and is written as they are. -/
def writtenAttributes (own : Element) : List (String × String) :=
  (own.className.map fun className => ("class", className)).toList ++ shownAttributes own

structure PlainAttribute (name value : String) : Prop where
  name : IsName name
  value : '"' ∉ value.toList

theorem IsName.not_mem {name : String} (named : IsName name) {c : Char}
    (other : isNameCharacter c = false) : c ∉ name.toList := by
  intro member
  rw [named.characters c member] at other
  cases other

theorem IsName.exists_cons {name : String} (named : IsName name) :
    ∃ c rest, name.toList = c :: rest ∧ isNameCharacter c = true := by
  have present : name.toList ≠ [] := by simpa using named.present
  obtain ⟨c, rest, same⟩ := List.exists_cons_of_ne_nil present
  exact ⟨c, rest, same, named.characters c (by simp [same])⟩

/-- What stands behind the last attribute: no further attribute starts with it. -/
def EndsTag (text : List Char) : Prop := ∀ c rest, text = ' ' :: c :: rest → isNameCharacter c = false

theorem not_endsTag {name : String} (named : IsName name) (value : String)
    (rest : List (String × String)) (more : List Char) :
    ¬ EndsTag (attributeCharacters ((name, value) :: rest) ++ more) := by
  intro ends
  obtain ⟨c, later, same, character⟩ := named.exists_cons
  rw [ends c _ (by rw [attributeCharacters, same]; rfl)] at character
  cases character

/-- The attributes of a tag can be told from what is written for them. -/
theorem attributes_inj {first second : List (String × String)} {more others : List Char}
    (plain : ∀ entry ∈ first, PlainAttribute entry.1 entry.2)
    (plain' : ∀ entry ∈ second, PlainAttribute entry.1 entry.2)
    (ends : EndsTag more) (ends' : EndsTag others)
    (same : attributeCharacters first ++ more = attributeCharacters second ++ others) :
    first = second ∧ more = others := by
  induction first generalizing second with
  | nil =>
    cases second with
    | nil => exact ⟨rfl, same⟩
    | cons entry second =>
      have ahead : EndsTag (attributeCharacters (entry :: second) ++ others) := same ▸ ends
      exact absurd ahead (not_endsTag (plain' entry List.mem_cons_self).name entry.2 second others)
  | cons entry first ih =>
    obtain ⟨name, value⟩ := entry
    obtain ⟨one, plainRest⟩ := List.forall_mem_cons.mp plain
    cases second with
    | nil =>
      have ahead : EndsTag (attributeCharacters ((name, value) :: first) ++ more) := same.symm ▸ ends'
      exact absurd ahead (not_endsTag one.name value first more)
    | cons entry second =>
      obtain ⟨name', value'⟩ := entry
      obtain ⟨two, plainOthers⟩ := List.forall_mem_cons.mp plain'
      have equals : isNameCharacter '=' = false := by decide
      simp only [attributeCharacters, List.cons_append, List.append_assoc, List.cons.injEq,
        true_and] at same
      -- No name holds an equals sign and no value a quote, so both end where they seem to.
      obtain ⟨names, behind⟩ := delimited_inj (one.name.not_mem equals) (two.name.not_mem equals) same
      obtain ⟨values, rest⟩ := delimited_inj one.value two.value (List.cons.inj behind).2
      obtain ⟨rfl, left⟩ := ih plainRest plainOthers rest
      obtain rfl : name = name' := String.toList_inj.mp names
      obtain rfl : value = value' := String.toList_inj.mp values
      exact ⟨rfl, left⟩

theorem toList_attributes (entries : List (String × String)) :
    (String.join (entries.map fun entry => attributeText entry.1 entry.2)).toList =
      attributeCharacters entries := by
  induction entries with
  | nil => rfl
  | cons entry rest ih =>
    rw [List.map_cons, String.join_cons, String.toList_append, ih, attributeCharacters]
    simp [attributeText]

theorem toList_openingText (tag : String) (own : Element) :
    (openingText tag own).toList = '<' :: (tag.toList ++ attributeCharacters (writtenAttributes own)) := by
  have shown : (String.join (own.attributes.entries.map fun (name, value) =>
      attributeText name value.display)).toList = attributeCharacters (shownAttributes own) := by
    rw [← toList_attributes, shownAttributes, List.map_map]
    rfl
  rw [openingText, String.toList_append, shown, writtenAttributes]
  cases own.className with
  | none => simp
  | some className => simp [attributeCharacters, attributeText]

theorem PlainElement.written {tag : String} {own : Element} (plain : PlainElement tag own) :
    ∀ entry ∈ writtenAttributes own, PlainAttribute entry.1 entry.2 := by
  intro entry member
  rw [writtenAttributes, List.mem_append, Option.mem_toList, Option.map_eq_some_iff] at member
  rcases member with ⟨className, present, rfl⟩ | shown
  · have named : IsName "class" := by decide
    exact ⟨named, plain.className className present⟩
  · obtain ⟨original, inside, rfl⟩ := List.mem_map.mp shown
    obtain ⟨name, _, value⟩ := plain.attributes original inside
    exact ⟨name, value⟩

/-- No attribute is taken for the class. -/
theorem PlainElement.written_inj {tag tag' : String} {own other : Element} (plain : PlainElement tag own)
    (plain' : PlainElement tag' other) (same : writtenAttributes own = writtenAttributes other) :
    own.className = other.className ∧ shownAttributes own = shownAttributes other := by
  have apart : ∀ {tag own} value rest, PlainElement tag own →
      shownAttributes own ≠ ("class", value) :: rest := by
    intro tag own value rest plain starts
    have member : ("class", value) ∈ shownAttributes own := by simp [starts]
    obtain ⟨original, inside, named⟩ := List.mem_map.mp member
    exact (plain.attributes original inside).2.1 (congrArg Prod.fst named)
  rw [writtenAttributes, writtenAttributes] at same
  cases one : own.className with
  | none =>
    cases two : other.className with
    | none => simpa [one, two] using same
    | some className =>
      rw [one, two] at same
      exact absurd same (apart className _ plain)
  | some className =>
    cases two : other.className with
    | none =>
      rw [one, two] at same
      exact absurd same.symm (apart className _ plain')
    | some className' => simpa [one, two] using same

end Attributes

section Trees

/-- An element with content shows its attributes, its text and its children, and nothing else. -/
theorem render_plain {node : Node} {tag markup : String} (tagged : node.own.tag = some tag)
    (single : node.blueprint = none) (content : isSelfClosing tag = false) :
    render placeholder node = .ok markup ↔
      ∃ children, joinTexts (render placeholder) node.children = .ok children ∧
        markup = openingText tag node.own ++ ">" ++ node.own.text.getD "" ++ children ++
          "</" ++ tag ++ ">" := by
  rw [render_element tagged content, ownInstances_of_none single]
  constructor
  · intro given
    obtain ⟨_, copies, children, ⟨⟩, nothing, below, rfl⟩ := given
    cases nothing
    exact ⟨children, below, by rw [String.join_nil, String.append_empty]⟩
  · intro given
    obtain ⟨children, below, rfl⟩ := given
    exact ⟨[], "", children, rfl, joinTexts_nil _, below, by rw [String.append_empty]⟩

/-- Plain trees are always rendered. -/
theorem PlainTree.exists_markup (placeholder : Placeholder) {node : Node} (plain : PlainTree node) :
    ∃ markup, render placeholder node = .ok markup := by
  induction plain with
  | @node node tag own single closed _ ih =>
    cases content : isSelfClosing tag with
    | true => exact ⟨_, render_selfClosing own.tagged content⟩
    | false =>
      obtain ⟨texts, mapped⟩ := mapList_of_exists ih
      exact ⟨_, (render_plain own.tagged single content).mpr
        ⟨String.join texts, map_eq_ok.mpr ⟨texts, mapped, rfl⟩, rfl⟩⟩

/-- What stands in the markup of a plain node behind its last attribute. -/
inductive Remainder (placeholder : Placeholder) (node : Node) (tag : String) : List Char → Prop where
  | closed (content : isSelfClosing tag = true) (text : node.own.text = none)
      (children : node.children = []) : Remainder placeholder node tag [' ', '/', '>']
  | content {children : String} (content : isSelfClosing tag = false)
      (below : joinTexts (render placeholder) node.children = .ok children) :
      Remainder placeholder node tag
        ('>' :: ((node.own.text.getD "").toList ++ (children.toList ++ '<' :: '/' :: (tag.toList ++ ['>']))))

theorem Remainder.endsTag {node : Node} {tag : String} {rest : List Char}
    (remains : Remainder placeholder node tag rest) (more : List Char) : EndsTag (rest ++ more) := by
  intro c later same
  cases remains with
  | closed =>
    rw [← (List.cons.inj (List.cons.inj same).2).1]
    decide
  | content => simp at same

/-- The markup of a plain node is its tag, its attributes, and a remainder. -/
theorem PlainTree.markup {node : Node} {markup : String} (plain : PlainTree node)
    (shown : render placeholder node = .ok markup) :
    ∃ tag rest, PlainElement tag node.own ∧ (∀ child ∈ node.children, PlainTree child) ∧
      Remainder placeholder node tag rest ∧
      markup.toList =
        '<' :: (tag.toList ++ (attributeCharacters (writtenAttributes node.own) ++ rest)) := by
  cases plain with
  | @node _ tag own single closed below =>
    cases content : isSelfClosing tag with
    | true =>
      rw [render_selfClosing own.tagged content] at shown
      cases shown
      obtain ⟨text, children⟩ := closed content
      refine ⟨tag, _, own, below, .closed content text children, ?_⟩
      simp [toList_openingText]
    | false =>
      obtain ⟨children, under, rfl⟩ := (render_plain own.tagged single content).mp shown
      refine ⟨tag, _, own, below, .content content under, ?_⟩
      simp [toList_openingText]

/-- A name ends where its tag goes on, with attributes or without them. -/
theorem Remainder.stops {node : Node} {tag : String} {rest : List Char}
    (remains : Remainder placeholder node tag rest) (entries : List (String × String)) (more : List Char) :
    Stops isNameCharacter (attributeCharacters entries ++ (rest ++ more)) := by
  cases entries with
  | nil => cases remains <;> exact stops_cons (by decide)
  | cons entry entries => exact stops_cons (by decide)

/-- A tag and its attributes can be told from everything that is written behind them. -/
theorem head_inj {first second : Node} {tag tag' : String} {rest rest' more others : List Char}
    (own : PlainElement tag first.own) (own' : PlainElement tag' second.own)
    (remains : Remainder placeholder first tag rest) (remains' : Remainder placeholder second tag' rest')
    (same : tag.toList ++ (attributeCharacters (writtenAttributes first.own) ++ (rest ++ more)) =
      tag'.toList ++ (attributeCharacters (writtenAttributes second.own) ++ (rest' ++ others))) :
    tag = tag' ∧ first.own.className = second.own.className ∧
      shownAttributes first.own = shownAttributes second.own ∧ rest ++ more = rest' ++ others := by
  obtain ⟨tags, behind⟩ := span_inj own.name.characters own'.name.characters
    (remains.stops _ _) (remains'.stops _ _) same
  obtain ⟨attributes, after⟩ :=
    attributes_inj own.written own'.written (remains.endsTag more) (remains'.endsTag others) behind
  obtain ⟨className, shown⟩ := own.written_inj own' attributes
  exact ⟨String.toList_inj.mp tags, className, shown, after⟩

theorem PlainElement.text_characters {tag : String} {own : Element} (plain : PlainElement tag own) :
    ∀ c ∈ (own.text.getD "").toList, (c != '<') = true := by
  apply bne_of_absent
  cases given : own.text with
  | none => simp
  | some text => exact (plain.text text given).2

/-- An absent text is not taken for a present one, which is never empty. -/
theorem PlainElement.text_inj {tag tag' : String} {own other : Element} (plain : PlainElement tag own)
    (plain' : PlainElement tag' other) (same : own.text.getD "" = other.text.getD "") :
    own.text = other.text := by
  cases one : own.text with
  | none =>
    cases two : other.text with
    | none => rfl
    | some text => exact absurd (by simpa [one, two] using same.symm) (plain'.text text two).1
  | some text =>
    cases two : other.text with
    | none => exact absurd (by simpa [one, two] using same) (plain.text text one).1
    | some text' => simpa [one, two] using same

theorem PlainTree.opens {node : Node} {markup : String} (plain : PlainTree node)
    (shown : render placeholder node = .ok markup) :
    ∃ c rest, markup.toList = '<' :: c :: rest ∧ isNameCharacter c = true := by
  obtain ⟨tag, rest, own, _, _, written⟩ := plain.markup shown
  obtain ⟨c, later, named, character⟩ := own.name.exists_cons
  exact ⟨c, _, by rw [written, named]; rfl, character⟩

/-- An element is not taken for the closing tag of the element around it. -/
theorem PlainTree.not_closing {node : Node} {markup : String} (plain : PlainTree node)
    (shown : render placeholder node = .ok markup) (more others : List Char) :
    markup.toList ++ more ≠ '<' :: '/' :: others := by
  obtain ⟨c, rest, opens, character⟩ := plain.opens shown
  rw [opens]
  intro same
  rw [(List.cons.inj (List.cons.inj same).2).1] at character
  exact absurd character (by decide)

/-- A text ends where the row behind it starts or, if there is none, where its element is closed. -/
theorem stops_row {nodes : List Node} {row : String} (plain : ∀ child ∈ nodes, PlainTree child)
    (shown : joinTexts (render placeholder) nodes = .ok row) (more : List Char) :
    Stops (· != '<') (row.toList ++ '<' :: more) := by
  cases nodes with
  | nil =>
    cases shown
    exact stops_cons (by decide)
  | cons child rest =>
    obtain ⟨head, others, found, _, rfl⟩ := joinTexts_cons_eq_ok.mp shown
    obtain ⟨c, later, opens, _⟩ := (plain child List.mem_cons_self).opens found
    rw [String.toList_append, opens]
    exact stops_cons (by decide)

/-- The markup of a node can be told from everything that may stand behind it. -/
def Told (placeholder : Placeholder) (first : Node) : Prop :=
  ∀ {second one two more others}, PlainTree second → render placeholder first = .ok one →
    render placeholder second = .ok two → one.toList ++ more = two.toList ++ others →
    SameLook first second ∧ more = others

/-- A row of nodes ends at the first tag that closes an element instead of opening one. -/
theorem row_told {first second : List Node} {one two : String} {more others : List Char}
    (plain : ∀ child ∈ first, PlainTree child) (told : ∀ child ∈ first, Told placeholder child)
    (plain' : ∀ child ∈ second, PlainTree child)
    (shown : joinTexts (render placeholder) first = .ok one)
    (shown' : joinTexts (render placeholder) second = .ok two)
    (same : one.toList ++ '<' :: '/' :: more = two.toList ++ '<' :: '/' :: others) :
    List.Forall₂ SameLook first second ∧ more = others := by
  induction first generalizing second one two with
  | nil =>
    cases shown
    cases second with
    | nil =>
      cases shown'
      exact ⟨.nil, (List.cons.inj (List.cons.inj same).2).2⟩
    | cons other second =>
      obtain ⟨head, rest, found, _, rfl⟩ := joinTexts_cons_eq_ok.mp shown'
      rw [String.toList_append, List.append_assoc] at same
      exact absurd same.symm ((plain' other List.mem_cons_self).not_closing found _ _)
  | cons child first ih =>
    obtain ⟨plainChild, plainRest⟩ := List.forall_mem_cons.mp plain
    obtain ⟨toldChild, toldRest⟩ := List.forall_mem_cons.mp told
    obtain ⟨head, rest, found, joined, rfl⟩ := joinTexts_cons_eq_ok.mp shown
    rw [String.toList_append, List.append_assoc] at same
    cases second with
    | nil =>
      cases shown'
      exact absurd same (plainChild.not_closing found _ _)
    | cons other second =>
      obtain ⟨plainOther, plainOthers⟩ := List.forall_mem_cons.mp plain'
      obtain ⟨head', rest', found', joined', rfl⟩ := joinTexts_cons_eq_ok.mp shown'
      rw [String.toList_append, List.append_assoc] at same
      obtain ⟨look, behind⟩ := toldChild plainOther found found' same
      obtain ⟨looks, left⟩ := ih plainRest toldRest plainOthers joined joined' behind
      exact ⟨.cons look looks, left⟩

/-- Equal remainders of one tag show the same text, and children that look the same. -/
theorem remainder_told {first second : Node} {tag : String} {rest rest' more others : List Char}
    (own : PlainElement tag first.own) (own' : PlainElement tag second.own)
    (plain : ∀ child ∈ first.children, PlainTree child)
    (told : ∀ child ∈ first.children, Told placeholder child)
    (plain' : ∀ child ∈ second.children, PlainTree child)
    (remains : Remainder placeholder first tag rest) (remains' : Remainder placeholder second tag rest')
    (same : rest ++ more = rest' ++ others) :
    first.own.text = second.own.text ∧ List.Forall₂ SameLook first.children second.children ∧
      more = others := by
  -- Whether an element has content is settled by its tag, so both remainders are of one kind.
  cases remains with
  | closed content text children =>
    cases remains' with
    | closed _ text' children' =>
      rw [text, text', children, children']
      exact ⟨rfl, .nil, List.append_cancel_left same⟩
    | content content' => simp [content] at content'
  | content content below =>
    cases remains' with
    | closed content' => simp [content] at content'
    | content _ below' =>
      simp only [List.cons_append, List.append_assoc, List.nil_append] at same
      obtain ⟨texts, behind⟩ := span_inj own.text_characters own'.text_characters
        (stops_row plain below _) (stops_row plain' below' _) (List.cons.inj same).2
      obtain ⟨looks, ends⟩ := row_told plain told plain' below below' behind
      exact ⟨own.text_inj own' (String.toList_inj.mp texts), looks,
        (List.cons.inj (List.append_cancel_left ends)).2⟩

/-- By induction on the first tree; the second one is taken apart as it is read. -/
theorem PlainTree.told {first : Node} (plain : PlainTree first) : Told placeholder first := by
  induction plain with
  | @node first tag own single closed below ih =>
    intro second one two more others plain' shown shown' same
    obtain ⟨tag, rest, own, below, remains, written⟩ :=
      (PlainTree.node own single closed below).markup shown
    obtain ⟨tag', rest', own', below', remains', written'⟩ := plain'.markup shown'
    simp only [written, written', List.cons_append, List.append_assoc] at same
    obtain ⟨rfl, className, attributes, behind⟩ := head_inj own own' remains remains' (List.cons.inj same).2
    obtain ⟨text, children, left⟩ := remainder_told own own' below ih below' remains remains' behind
    exact ⟨.node (own.tagged.trans own'.tagged.symm) className attributes text children, left⟩

/-- Markup loses nothing of a plain tree. -/
theorem sameLook_of_render {first second : Node} (plain : PlainTree first) (plain' : PlainTree second)
    (same : render placeholder first = render placeholder second) : SameLook first second := by
  obtain ⟨markup, shown⟩ := plain.exists_markup placeholder
  have whole : markup.toList ++ [] = markup.toList ++ [] := rfl
  exact (plain.told plain' shown (same ▸ shown) whole).1

def picture : Node where
  own := { tag := some "img", attributes := .ofList [("src", .text "new.png")] }

/-- A card whose count may be kept as a number or as a text, and whose title looks like markup. -/
def card (count : Scalar) (style : Option String) : Node where
  own :=
    { tag := some "div", className := some "card", style
      attributes := .ofList [("data-count", count), ("title", .text "<b>3</b> />")]
      text := some "New > old" }
  children := [picture, { own := { tag := some "div" }, children := [picture] }]

theorem plain_picture : PlainTree picture := by
  refine .node ⟨rfl, by decide, nofun, ?_, nofun⟩ rfl (fun _ => ⟨rfl, rfl⟩) nofun
  intro entry member
  obtain rfl := List.mem_singleton.mp (Keyed.mem_ofList member)
  exact ⟨by decide, by decide, by decide⟩

theorem plain_card (count : Scalar) (style : Option String) (quoted : '"' ∉ count.display.toList) :
    PlainTree (card count style) := by
  have division : IsName "div" := by decide
  have row : PlainTree { own := { tag := some "div" }, children := [picture] } := by
    refine .node ⟨rfl, division, nofun, nofun, nofun⟩ rfl nofun ?_
    intro child member
    obtain rfl := List.mem_singleton.mp member
    exact plain_picture
  refine .node ⟨rfl, division, ?_, ?_, ?_⟩ rfl nofun ?_
  · intro className same
    cases same
    decide
  · intro entry member
    have listed := Keyed.mem_ofList member
    simp only [List.mem_cons, List.not_mem_nil, or_false] at listed
    rcases listed with rfl | rfl
    · have named : IsName "data-count" ∧ "data-count" ≠ "class" := by decide
      exact ⟨named.1, named.2, quoted⟩
    · exact ⟨by decide, by decide, by decide⟩
  · intro text same
    cases same
    exact ⟨by decide, by decide⟩
  · intro child member
    simp only [card, List.mem_cons, List.not_mem_nil, or_false] at member
    rcases member with rfl | rfl
    · exact plain_picture
    · exact row

theorem sameLook_of_render_card :
    PlainTree (card (.text "3") none) ∧ PlainTree (card (.number (.integer 3)) (some "color: red")) ∧
      render .standard (card (.text "3") none) =
        render .standard (card (.number (.integer 3)) (some "color: red")) ∧
      SameLook (card (.text "3") none) (card (.number (.integer 3)) (some "color: red")) := by
  have first := plain_card (.text "3") none (by decide)
  have second := plain_card (.number (.integer 3)) (some "color: red") (by decide)
  have same : render .standard (card (.text "3") none) =
      render .standard (card (.number (.integer 3)) (some "color: red")) := by cbv
  exact ⟨first, second, same, sameLook_of_render first second same⟩

end Trees

end Pagewright.Markup
