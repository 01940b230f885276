import Pagewright.Markup.Render
import Pagewright.Skeleton.Page
import Pagewright.Style.Sheet

/-! The two documents of a page: its markup with the head in front, and its stylesheet. -/

namespace Pagewright.Markup

open Skeleton Expansion
open Style (CompileError)

/-- A tag of the head on a line of its own. -/
def headLine (tag : String) (attributes : Attributes) : String :=
  "    <" ++ tag ++
  String.join (attributes.entries.map fun (name, value) => attributeText name value.display) ++
  ">\n"

/-- An empty title is left out. -/
def titleLine : Option String → String
  | none => ""
  | some title => if title.isEmpty then "" else "<title>" ++ title ++ "</title>\n"

def renderHead (head : Head) : String :=
  "<head>\n" ++ titleLine head.title ++
  String.join (head.links.map (headLine "link")) ++
  String.join (head.metas.map (headLine "meta")) ++
  "    <link rel=\"stylesheet\" href=\"styles.css\">\n</head>"

def shell (head body : String) : String :=
  "<!DOCTYPE html>\n<html lang=\"en\">\n" ++ head ++ "\n" ++ body ++ "\n</html>\n"

structure Documents where
  html : String
  css : String
deriving DecidableEq

/-- Compiles a page that lies `depth` directories below the root of its site. -/
def compile (placeholder : Placeholder) (depth : Nat) (page : Page) :
    Except CompileError Documents := do
  let styles ← Style.collectStyles placeholder page.root
  let body ← renderBody placeholder depth page.root
  return { html := shell (renderHead (page.head.getD {})) body, css := Style.sheet page styles }

end Pagewright.Markup
