import Pagewright.Skeleton.Page
import Pagewright.Style.Styles

/-! The stylesheet of a page: fonts, custom properties, classroom rules, collected rules, and
last the media queries, those of the classroom behind those collected. -/

namespace Pagewright.Style

open Skeleton

def fontFace (font : Font) : String :=
  "@font-face \x7b\n" ++
  "    font-family: \"" ++ font.family ++ "\";\n" ++
  "    src: \"" ++ font.source ++ "\";\n" ++
  (match font.display with
    | none => ""
    | some display => "    font-display: " ++ display ++ ";\n") ++
  "\x7d\n"

def propertyBlock (properties : Keyed String Scalar) : String :=
  if properties.isEmpty then ""
  else
    ":root \x7b\n" ++
    String.join (properties.entries.map fun (name, value) =>
      name ++ ": " ++ value.display ++ ";\n") ++
    "\x7d\n"

def ruleLine (selector style : String) : String := selector ++ " \x7b" ++ style ++ "\x7d\n"

def mediaBlock (query : String) (rules : Rules) : String :=
  "@media (" ++ query ++ ") \x7b\n" ++
  String.join (rules.entries.map fun (selector, style) => "  " ++ ruleLine selector style) ++
  "\x7d\n"

/-- Adds the media queries of a classroom rule under the rule's own selector. -/
def Styles.insertClassroom (styles : Styles) (rule : ClassroomRule) : Styles :=
  rule.mediaQueries.foldl (fun styles media =>
    styles.insertMedia media.query rule.selector media.style) styles

def sheet (page : Page) (styles : Styles) : String :=
  let media := (page.classroom.foldl Styles.insertClassroom styles).media
  String.join (page.fonts.map fontFace) ++
  propertyBlock page.properties ++
  String.join (page.classroom.map fun rule => ruleLine rule.selector rule.style) ++
  String.join (styles.rules.entries.map fun (selector, style) => ruleLine selector style) ++
  String.join (media.entries.map fun (query, rules) => mediaBlock query rules)

end Pagewright.Style
