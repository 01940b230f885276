import Pagewright.Proofs.Style.Events
import Pagewright.Style.Sheet

/-! A stylesheet is a row of blocks. What the page has declared and what its classroom declares is one
stream, and every media query of that stream has one block behind all others. -/

namespace Pagewright.Style

open Skeleton

inductive Block where
  | font (font : Font)
  | properties (properties : Keyed String Scalar)
  | rule (selector style : String)
  | media (query : String) (rules : Rules)

/-- The lines of a block. -/
def Block.lines : Block → List String
  | .font face =>
    ["@font-face \x7b", "    font-family: \"" ++ face.family ++ "\";", "    src: \"" ++ face.source ++ "\";"] ++
      face.display.toList.map (fun display => "    font-display: " ++ display ++ ";") ++ ["\x7d"]
  | .properties table =>
    [":root \x7b"] ++ table.entries.map (fun (name, value) => name ++ ": " ++ value.display ++ ";") ++ ["\x7d"]
  | .rule selector style => [selector ++ " \x7b" ++ style ++ "\x7d"]
  | .media query rules =>
    ["@media (" ++ query ++ ") \x7b"] ++
      rules.entries.map (fun (selector, style) => "  " ++ selector ++ " \x7b" ++ style ++ "\x7d") ++ ["\x7d"]

/-- A block as it stands in a sheet, with an end to each of its lines. -/
def Block.text (block : Block) : String := String.join (block.lines.map (· ++ "\n"))

/-- The blocks before those of the media queries. A rule of the classroom is given by its selector and
its style alone. -/
def leading (fonts : List Font) (properties : Keyed String Scalar)
    (classroom rules : List (String × String)) : List Block :=
  fonts.map .font ++
  (if properties.isEmpty then [] else [.properties properties]) ++
  classroom.map (fun (selector, style) => .rule selector style) ++
  rules.map fun (selector, style) => .rule selector style

/-- Every collection of styles comes from writing declarations one after the other. -/
def accumulate (events : List Event) : Styles := events.foldl Event.write {}

/-- What a rule of a classroom applies to: the elements of a class, or those with a tag. -/
def addressed (kind name : String) : String := if kind = "class" then "." ++ name else name

/-- What a classroom declares under media queries. -/
def classroomEvents (classroom : List ClassroomRule) : List Event :=
  classroom.flatMap fun rule =>
    rule.mediaQueries.map fun media => .media media.query (addressed rule.kind rule.name) media.style

/-- The declarations that a collection holds under media queries, in its own order. -/
def Styles.mediaEvents (styles : Styles) : List Event :=
  styles.media.entries.flatMap fun (query, rules) =>
    rules.entries.map fun (selector, style) => .media query selector style

/-- Every query of a stream has one block, in the order in which the queries first come. The block
gathers what the stream declares under its query. -/
structure Merges (stream : List Event) (blocks : List (String × Rules)) : Prop where
  queries : blocks.map Prod.fst = (stream.filterMap Event.query?).eraseDups
  rules : ∀ query rules, (query, rules) ∈ blocks →
    Gathers (stream.filterMap (Event.under? query)) rules.entries

section Duplicates

variable {κ : Type} [DecidableEq κ]

/-- Going on in the same way adds the same keys. -/
theorem eraseDups_append_congr {first second : List κ} (same : first.eraseDups = second.eraseDups)
    (more : List κ) : (first ++ more).eraseDups = (second ++ more).eraseDups := by
  induction more using List.reverseRecOn with
  | nil => simpa using same
  | append_singleton more key ih =>
    have known : key ∈ first ++ more ↔ key ∈ second ++ more := by
      rw [← List.mem_eraseDups, ih, List.mem_eraseDups]
    rw [← List.append_assoc, ← List.append_assoc, eraseDups_concat, eraseDups_concat, ih]
    simp only [known]

theorem eraseDups_append_replicate (keys : List κ) (key : κ) (more : Nat) :
    (keys ++ List.replicate (more + 1) key).eraseDups = (keys ++ [key]).eraseDups := by
  induction more with
  | zero => rfl
  | succ more ih =>
    rw [List.replicate_succ', ← List.append_assoc, eraseDups_concat, if_pos (by simp), ih]

end Duplicates

section Held

theorem under_of_mem {styles : Styles} {query : String} {rules : Rules}
    (member : (query, rules) ∈ styles.media.entries) : styles.under query = rules := by
  rw [Styles.under, Keyed.get?_of_mem member, Option.getD_some]

theorem merges_of_folds {events : List Event} {last : Styles} (folds : Folds {} events last) :
    Merges events last.media.entries where
  queries := folds.queries
  rules query _ member := under_of_mem member ▸ folds.media query

theorem mem_filterMap_query {events : List Event} {query : String} (member : query ∈ events.filterMap Event.query?) :
    events.filterMap (Event.under? query) ≠ [] := by
  obtain ⟨event, present, named⟩ := List.mem_filterMap.mp member
  cases event with
  | rule => cases named
  | media other selector style =>
    cases named
    exact List.ne_nil_of_mem (List.mem_filterMap.mpr ⟨_, present, if_pos rfl⟩)

/-- No query is held without a rule. -/
theorem Merges.ne_nil {stream : List Event} {blocks : List (String × Rules)} (merges : Merges stream blocks)
    {query : String} {rules : Rules} (member : (query, rules) ∈ blocks) : rules.entries ≠ [] := by
  have declared : query ∈ stream.filterMap Event.query? := by
    rw [← List.mem_eraseDups, ← merges.queries]
    exact List.mem_map_of_mem member
  have keys := (merges.rules query rules member).keys
  obtain ⟨entry, present⟩ := List.exists_mem_of_ne_nil _ (mem_filterMap_query declared)
  have kept : entry.1 ∈ rules.entries.map Prod.fst := by
    rw [keys, List.mem_eraseDups]
    exact List.mem_map_of_mem present
  rintro nothing
  rw [nothing] at kept
  cases kept

theorem filterMap_query_mediaEvents (styles : Styles) :
    styles.mediaEvents.filterMap Event.query? =
      styles.media.entries.flatMap fun (query, rules) => List.replicate rules.entries.length query := by
  simp [Styles.mediaEvents, List.filterMap_flatMap, List.filterMap_map, Function.comp_def, Event.query?,
    List.map_const']

/-- The queries that are held come in the declarations in the order in which they are held. -/
theorem eraseDups_replicated {blocks : List (String × Rules)} (held : ∀ block ∈ blocks, block.2.entries ≠ []) :
    (blocks.flatMap fun (query, rules) => List.replicate rules.entries.length query).eraseDups =
      (blocks.map Prod.fst).eraseDups := by
  induction blocks using List.reverseRecOn with
  | nil => rfl
  | append_singleton blocks block ih =>
    obtain ⟨query, rules⟩ := block
    obtain ⟨more, count⟩ : ∃ more, rules.entries.length = more + 1 :=
      Nat.exists_eq_succ_of_ne_zero fun none => held (query, rules) (by simp) (List.length_eq_zero_iff.mp none)
    simp only [List.flatMap_append, List.flatMap_singleton, List.map_append, List.map_singleton]
    rw [count, eraseDups_append_replicate]
    exact eraseDups_append_congr (ih fun block member => held block (List.mem_append_left _ member)) _

theorem filterMap_under_map (rules : Rules) (query other : String) :
    (rules.entries.map fun (selector, style) => Event.media other selector style).filterMap (Event.under? query) =
      if other = query then rules.entries else [] := by
  by_cases same : other = query <;> simp [List.filterMap_map, Function.comp_def, Event.under?, same]

theorem flatMap_lookup {blocks : List (String × Rules)} (distinct : (blocks.map Prod.fst).Nodup) (query : String) :
    (blocks.flatMap fun (other, rules) => if other = query then rules.entries else []) =
      ((blocks.lookup query).getD ∅).entries := by
  induction blocks with
  | nil => rfl
  | cons block rest ih =>
    obtain ⟨other, rules⟩ := block
    rw [List.map_cons, List.nodup_cons] at distinct
    rw [List.flatMap_cons, ih distinct.2]
    by_cases same : other = query
    · subst same
      have absent : rest.lookup other = none := by
        refine List.lookup_eq_none_iff.mpr fun entry member => ?_
        have apart : other ≠ entry.1 := fun again =>
          distinct.1 (List.mem_map.mpr ⟨entry, member, again.symm⟩)
        simpa using apart
      simp [absent, EmptyCollection.emptyCollection, Keyed.empty]
    · have apart : (query == other) = false := beq_false_of_ne (Ne.symm same)
      simp [same, List.lookup_cons, apart]

theorem filterMap_under_mediaEvents (styles : Styles) (query : String) :
    styles.mediaEvents.filterMap (Event.under? query) = (styles.under query).entries := by
  rw [Styles.mediaEvents, List.filterMap_flatMap]
  simp only [filterMap_under_map]
  exact flatMap_lookup styles.media.distinct query

/-- The declarations that a collection holds stand for those that it was written from. -/
theorem merges_of_held {styles last : Styles} {events : List Event}
    (held : ∀ block ∈ styles.media.entries, block.2.entries ≠ []) (folds : Folds styles events last) :
    Merges (styles.mediaEvents ++ events) last.media.entries where
  queries := by
    rw [folds.queries, List.filterMap_append, filterMap_query_mediaEvents]
    exact (eraseDups_append_congr (eraseDups_replicated held) _).symm
  rules query _ member := by
    rw [List.filterMap_append, filterMap_under_mediaEvents, ← under_of_mem member]
    exact folds.media query

end Held

section Texts

theorem text_font (font : Font) : (Block.font font).text = fontFace font := by
  have start : "@font-face \x7b\n" = "@font-face \x7b" ++ "\n" := rfl
  have quoted : "\";\n" = "\";" ++ "\n" := rfl
  have plain : ";\n" = ";" ++ "\n" := rfl
  have close : "\x7d\n" = "\x7d" ++ "\n" := rfl
  obtain ⟨family, source, display⟩ := font
  unfold fontFace Block.text Block.lines
  rw [start, quoted, close]
  cases display with
  | none =>
    simp only [Option.toList_none, List.map_cons, List.map_nil, List.nil_append, List.cons_append, String.join_cons,
      String.join_nil, String.append_assoc, String.append_empty]
  | some display =>
    simp only [Option.toList_some, List.map_cons, List.map_nil, List.nil_append, List.cons_append, String.join_cons,
      String.join_nil, String.append_assoc, String.append_empty]
    rw [plain, String.append_assoc]

theorem text_properties (table : Keyed String Scalar) :
    String.join ((if table.isEmpty then [] else [Block.properties table]).map Block.text) = propertyBlock table := by
  cases empty : table.isEmpty <;>
    simp [Block.text, Block.lines, propertyBlock, empty, String.append_assoc, Function.comp_def, String.join_append]

theorem text_rule (selector style : String) : (Block.rule selector style).text = ruleLine selector style := by
  simp [Block.text, Block.lines, ruleLine, String.append_assoc]

theorem text_media (query : String) (rules : Rules) : (Block.media query rules).text = mediaBlock query rules := by
  simp [Block.text, Block.lines, mediaBlock, ruleLine, String.append_assoc, Function.comp_def, String.join_append]

end Texts

theorem insertClassroom_eq_foldl (classroom : List ClassroomRule) (styles : Styles) :
    classroom.foldl Styles.insertClassroom styles = (classroomEvents classroom).foldl Event.write styles := by
  rw [classroomEvents, List.foldl_flatMap]
  simp only [List.foldl_map]
  rfl

theorem accumulate_append (events more : List Event) :
    accumulate (events ++ more) = more.foldl Event.write (accumulate events) :=
  List.foldl_append

/-- The text of a sheet is that of its blocks. -/
theorem sheet_eq_join (page : Page) (styles : Styles) :
    sheet page styles =
      String.join ((leading page.fonts page.properties
          (page.classroom.map fun rule : ClassroomRule => (addressed rule.kind rule.name, rule.style))
          styles.rules.entries ++
        ((classroomEvents page.classroom).foldl Event.write styles).media.entries.map fun (query, rules) =>
          Block.media query rules).map Block.text) := by
  rw [sheet, insertClassroom_eq_foldl, ← text_properties]
  simp only [leading, List.map_append, List.map_map, String.join_append, Function.comp_def, text_font, text_rule,
    text_media]
  rfl

/-- A sheet has the blocks of its fonts, of its properties if there are any, of its classroom and of the
rules that were declared, and behind these one block for every media query of the stream. For the stream
it makes no difference whether the declarations count as they were written or as they are held. -/
theorem sheet_merges_queries (page : Page) (events : List Event) :
    ∃ rules queries,
      sheet page (accumulate events) =
        String.join ((leading page.fonts page.properties
            (page.classroom.map fun rule : ClassroomRule => (addressed rule.kind rule.name, rule.style)) rules ++
          queries.map fun (query, rules) => Block.media query rules).map Block.text) ∧
      Gathers (events.filterMap Event.rule?) rules ∧
      Merges (events ++ classroomEvents page.classroom) queries ∧
      Merges ((accumulate events).mediaEvents ++ classroomEvents page.classroom) queries := by
  have collected : Folds {} events (accumulate events) := folds_foldl {} events
  have merged := folds_foldl {} (events ++ classroomEvents page.classroom)
  refine ⟨_, _, sheet_eq_join page (accumulate events), collected.rules, ?_, ?_⟩
  · rw [← accumulate_append]
    exact merges_of_folds merged
  · have held : ∀ block ∈ (accumulate events).media.entries, block.2.entries ≠ [] :=
      fun _ member => (merges_of_folds collected).ne_nil member
    exact merges_of_held held (folds_foldl (accumulate events) _)

/-- The classroom comes behind, both with its queries and inside of one; a style that is declared again
stays where it was. -/
example :
    sheet { classroom := [
        { kind := "class", name := "a", style := "x", mediaQueries := [⟨"print", "1"⟩, ⟨"wide", "2"⟩] },
        { kind := "tag", name := "p", style := "y", mediaQueries := [⟨"print", "3"⟩] }] }
      (accumulate [.media "print" "p" "0", .rule "p" "z", .media "tall" "p" "4"]) =
    ".a \x7bx\x7d\np \x7by\x7d\np \x7bz\x7d\n" ++
    "@media (print) \x7b\n  p \x7b3\x7d\n  .a \x7b1\x7d\n\x7d\n" ++
    "@media (tall) \x7b\n  p \x7b4\x7d\n\x7d\n@media (wide) \x7b\n  .a \x7b2\x7d\n\x7d\n" := by
  decide

end Pagewright.Style
