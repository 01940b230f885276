import Pagewright.Proofs.Json.Carried
import Pagewright.Proofs.Skeleton.Reread

/-! A node whose fields stand beside those of a page or beside the count of a blueprint. There it
is picked out of an object that has been read whole, while a node of its own is read as its
members come. Both readings give the same tree, to any depth. -/

namespace Pagewright.Skeleton

open Json

variable {related : Correspondence} (conveys : Conveys related)
include conveys

theorem carries_scalar : Carries related decodeScalar := by
  intro access before other after value corresponds found
  simp only [decodeScalar, bind_eq_ok] at found ⊢
  obtain ⟨_, _, found⟩ := found
  refine ⟨⟨⟩, conveys.whole corresponds, ?_⟩
  cases conveys.shape corresponds with
  | number same =>
    simp only [← same]
    exact found
  | bool | string => exact found
  | _ => cases found

theorem carries_displayed : Carries related decodeDisplayed := by
  intro access before other after value corresponds found
  obtain ⟨scalar, decoded, rfl⟩ := map_eq_ok.mp found
  exact map_eq_ok.mpr
    ⟨scalar, conveys.optional (carries_scalar conveys) _ _ _ _ _ corresponds decoded, rfl⟩

theorem carries_count : Carries related decodeCount := by
  intro access before other after value corresponds found
  simp only [decodeCount, bind_eq_ok] at found ⊢
  obtain ⟨_, _, found⟩ := found
  refine ⟨⟨⟩, conveys.whole corresponds, ?_⟩
  cases conveys.shape corresponds with
  | number same =>
    simp only [← same]
    exact found
  | string => exact found
  | _ => cases found

theorem carries_extension : Carries related decodeExtension := by
  refine conveys.record ?_ _ _
  simp only [List.forall_mem_cons]
  exact ⟨conveys.string.of _ _, conveys.string.of _ _, by simp⟩

theorem carries_mediaQuery : Carries related decodeMediaQuery := by
  refine conveys.record ?_ _ _
  simp only [List.forall_mem_cons]
  exact ⟨conveys.string.of _ _, conveys.string.of _ _, by simp⟩

theorem carries_blueprint {fields : List (RecordField Node)}
    (carries : ∀ field ∈ fields, field.Carries related) : Carries related (decodeBlueprint fields) := by
  intro access before other after blueprint corresponds found
  have counts : ∀ field ∈ [RecordField.of "count" decodeCount fun count _ => count],
      field.Carries related := by
    simp only [List.forall_mem_cons]
    exact ⟨(carries_count conveys).of _ _, by simp⟩
  obtain ⟨pair, joined, same⟩ := bind_eq_ok.mp found
  exact bind_eq_ok.mpr
    ⟨pair, conveys.joined counts carries _ _ _ _ _ _ _ _ corresponds joined, same⟩

theorem carries_nodeFields (height : Nat) : ∀ field ∈ nodeFields height, field.Carries related := by
  induction height with
  | zero => simp [nodeFields]
  | succ height ih =>
    have displayed : Carries related decodeDisplayed := carries_displayed conveys
    have children := conveys.list (conveys.record ih {} [])
    simp only [nodeFields, List.forall_mem_cons]
    exact ⟨(conveys.optional conveys.string).of _ _, displayed.of _ _, displayed.of _ _,
      (conveys.list (carries_extension conveys)).of _ _, (conveys.list (carries_mediaQuery conveys)).of _ _,
      (conveys.optional (carries_blueprint conveys ih)).of _ _, children.of _ _,
      (conveys.keyed (carries_scalar conveys)).of _ _, displayed.of _ _, by simp⟩

theorem carries_head : Carries related decodeHead := by
  have rows := conveys.list (conveys.keyed (carries_scalar conveys))
  refine conveys.record ?_ _ _
  simp only [List.forall_mem_cons]
  exact ⟨(conveys.optional conveys.string).of _ _, rows.of _ _, rows.of _ _, by simp⟩

theorem carries_font : Carries related decodeFont := by
  refine conveys.record ?_ _ _
  simp only [List.forall_mem_cons]
  exact ⟨conveys.string.of _ _, conveys.string.of _ _, (conveys.optional conveys.string).of _ _, by simp⟩

theorem carries_classroomRule : Carries related decodeClassroomRule := by
  refine conveys.record ?_ _ _
  simp only [List.forall_mem_cons]
  exact ⟨conveys.string.of _ _, conveys.string.of _ _, conveys.string.of _ _,
    (conveys.list (carries_mediaQuery conveys)).of _ _, by simp⟩

theorem carries_pageFields : ∀ field ∈ pageFields, field.Carries related := by
  simp only [pageFields, List.forall_mem_cons]
  exact ⟨(conveys.optional (carries_head conveys)).of _ _, (conveys.list (carries_font conveys)).of _ _,
    (conveys.keyed (carries_scalar conveys)).of _ _, (conveys.list (carries_classroomRule conveys)).of _ _,
    by simp⟩

theorem carries_page : Carries related decodePage := by
  intro access before other after page corresponds found
  obtain ⟨pair, joined, same⟩ := bind_eq_ok.mp found
  exact bind_eq_ok.mpr ⟨pair, conveys.joined (carries_pageFields conveys) (carries_nodeFields conveys _)
    _ _ _ _ _ _ _ _ corresponds joined, same⟩

omit conveys

theorem strict_head : Strict decodeHead := by
  refine Strict.record ?_ _ _
  simp only [List.forall_mem_cons]
  exact ⟨Strict.string.optional.of _ _, strict_scalar.keyed.list.of _ _, strict_scalar.keyed.list.of _ _,
    by simp⟩

theorem strict_font : Strict decodeFont := by
  refine Strict.record ?_ _ _
  simp only [List.forall_mem_cons]
  exact ⟨Strict.string.of _ _, Strict.string.of _ _, Strict.string.optional.of _ _, by simp⟩

theorem strict_classroomRule : Strict decodeClassroomRule := by
  refine Strict.record ?_ _ _
  simp only [List.forall_mem_cons]
  exact ⟨Strict.string.of _ _, Strict.string.of _ _, Strict.string.of _ _,
    strict_mediaQuery.list.of _ _, by simp⟩

theorem strict_pageFields : ∀ field ∈ pageFields, field.Strict := by
  simp only [pageFields, List.forall_mem_cons]
  exact ⟨strict_head.optional.of _ _, strict_font.list.of _ _, strict_scalar.keyed.of _ _,
    strict_classroomRule.list.of _ _, by simp⟩

/-- No field of a node has the name of another field of a page, or that of the count. -/
theorem nodeNames_apart : ∀ name ∈ nodeNames,
    pageFields.find? (·.name = name) = none ∧ name ≠ "count" := by
  have apart : ∀ name ∈ nodeNames, name ∉ pageFields.map (·.name) ∧ name ≠ "count" := by decide
  intro name member
  refine ⟨List.find?_eq_none.mpr fun field known same => (apart name member).1 ?_, (apart name member).2⟩
  exact List.mem_map.mpr ⟨field, known, by simpa using same⟩

theorem mem_nodeNames {field : RecordField Node} {height : Nat} (member : field ∈ nodeFields height) :
    field.name ∈ nodeNames := by
  cases height with
  | zero => cases member
  | succ height =>
    have names : (nodeFields (height + 1)).map (·.name) = nodeNames := names_nodeFields (height + 1)
    exact names ▸ List.mem_map_of_mem member

theorem node_of_page {room : Nat} {reading : Reading} {page : Page}
    (found : decodePage (.stream room) reading = .ok page) :
    decodeNode (.stream room) reading = .ok page.root := by
  obtain ⟨⟨_, root⟩, joined, same⟩ := bind_eq_ok.mp found
  cases same
  exact record_of_joined strict_pageFields (carries_nodeFields conveys_buffered _)
    (fun field member => (nodeNames_apart _ (mem_nodeNames member)).1) joined

theorem node_of_blueprint {room : Nat} {reading : Reading} {blueprint : Blueprint}
    (found : decodeBlueprint (nodeFields documentHeight) (.stream room) reading = .ok blueprint) :
    decodeNode (.stream room) reading = .ok blueprint.template := by
  obtain ⟨⟨_, template⟩, joined, same⟩ := bind_eq_ok.mp found
  cases same
  refine record_of_joined ?_ (carries_nodeFields conveys_buffered _) ?_ joined
  · simp only [List.forall_mem_cons]
    exact ⟨strict_count.of _ _, by simp⟩
  · intro field member
    have other := (nodeNames_apart _ (mem_nodeNames member)).2
    simpa [RecordField.of] using other.symm

/-- Whoever reads the text of a page or of a blueprint as the text of a node gets its root or its
template. -/
theorem read_as_node (text : String) :
    (∀ page, Page.ofText text = .ok page → Node.ofText text = .ok page.root) ∧
      ∀ blueprint, Blueprint.ofText text = .ok blueprint → Node.ofText text = .ok blueprint.template :=
  ⟨fun _ accepted => ofText_eq_ok.mpr ((ofText_eq_ok.mp accepted).imp_left node_of_page),
    fun _ accepted => ofText_eq_ok.mpr ((ofText_eq_ok.mp accepted).imp_left node_of_blueprint)⟩

/-- A list whose items repeat, with members that a page, a blueprint and a node each read or leave
alone: a count, a head, and one that none of them asks for. -/
def listingText : String :=
  "\x7b\"count\":2,\"element\":\"ul\",\"class\":7,\"text\":null,\"head\":\x7b\"title\":\"News\"\x7d," ++
  "\"extend\":[[\":hover\"]],\"note\":[null],\"blueprint\":\x7b\"count\":\"3\",\"element\":\"li\"," ++
  "\"children\":[[\"b\",true]],\"attributes\":\x7b\"id\":1,\"id\":\"a\"\x7d\x7d\x7d"

def listing : Node where
  own := { tag := some "ul", className := some "7", extensions := [{ suffix := ":hover" }] }
  blueprint := some {
    count := .expression "3"
    template := {
      own := { tag := some "li", attributes := .ofList [("id", .text "a")] }
      children := [{ own := { tag := some "b", className := some "true" } }] } }

set_option maxRecDepth 2000 in
theorem read_as_node_listing :
    Page.ofText listingText = .ok { root := listing, head := some { title := some "News" } } ∧
      Blueprint.ofText listingText = .ok { count := .literal 2, template := listing } ∧
      Node.ofText listingText = .ok listing := by
  have page : Page.ofText listingText =
      .ok { root := listing, head := some { title := some "News" } } := by cbv
  have blueprint : Blueprint.ofText listingText = .ok { count := .literal 2, template := listing } := by cbv
  exact ⟨page, blueprint, (read_as_node listingText).1 _ page⟩

end Pagewright.Skeleton
