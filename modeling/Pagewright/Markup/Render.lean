import Pagewright.Style.Selector

/-! The markup of a tree. Texts, classes and attribute values are written as they are, so that
tokens which the page itself replaces later reach it untouched. -/

namespace Pagewright.Markup

open Skeleton Expansion
open Style (CompileError)

def attributeText (name value : String) : String := " " ++ name ++ "=\"" ++ value ++ "\""

/-- An opening tag up to its last attribute. -/
def openingText (tag : String) (own : Element) : String :=
  "<" ++ tag ++
  (match own.className with
    | none => ""
    | some className => attributeText "class" className) ++
  String.join (own.attributes.entries.map fun (name, value) => attributeText name value.display)

/-- The texts of some parts one after another; the first part without one is the error. -/
def joinTexts (f : α → Except ε String) (parts : List α) : Except ε String :=
  String.join <$> mapList f parts

/-- Renders a tree that has at most the given height. -/
def renderWithin (placeholder : Placeholder) : Nat → Node → Except CompileError String
  | 0, _ => .ok ""
  | height + 1, node =>
    match node.own.tag with
    | none => .ok ""
    | some tag =>
      if isSelfClosing tag then .ok (openingText tag node.own ++ " />")
      else
        match ownInstances placeholder node with
        | .error cause => .error { location := "<" ++ tag ++ ">", cause }
        | .ok instances => do
          let copies ← joinTexts (renderWithin placeholder height) instances
          let children ← joinTexts (renderWithin placeholder height) node.children
          return openingText tag node.own ++ ">" ++ node.own.text.getD "" ++ copies ++ children ++
            "</" ++ tag ++ ">"

def render (placeholder : Placeholder) (node : Node) : Except CompileError String :=
  renderWithin placeholder (height node) node

/-- Where the client script lies under the output root. -/
def scriptPath : String := "scripts/cwrapFunctions.js"

def climb (depth : Nat) : String := String.join (List.replicate depth "../")

/-- The tag that loads the client script into a page that lies `depth` directories deep. -/
def scriptTag (depth : Nat) : String :=
  "<script src=\"" ++ climb depth ++ scriptPath ++ "\" type=\"module\"></script>"

def renderBody (placeholder : Placeholder) (depth : Nat) (root : Node) :
    Except CompileError String := do
  return (← render placeholder root) ++ scriptTag depth

end Pagewright.Markup
