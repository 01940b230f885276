import Pagewright.Expansion.Instances
import Pagewright.Style.Styles

/-! The selectors of a tree and the declarations under them. A selector is the path of tags
from the root; a `div` also has its number among the `div`s of its level. A level is opened for
the children of a node, while instances of a blueprint still count on the level of the node
they repeat in. -/

namespace Pagewright.Style

open Skeleton Expansion

/-- A blueprint that could not be expanded, and where it stands. -/
structure CompileError where
  location : String
  cause : ExpansionError
deriving DecidableEq

def CompileError.message (error : CompileError) : String :=
  "Blueprint under `" ++ error.location ++ "` could not be expanded: " ++ error.cause.message

/-- Tags that stand once on a page and are not numbered. -/
def landmarkTags : List String := ["body", "main", "footer"]

/-- The styles so far, and how many `div`s each open level has, innermost level first. The counts are those
of a machine as long as they stay below `2 ^ 64`: the elements of one page never come to so many, so this
only leaves out walks that are started with a count close to it. -/
structure Collection where
  styles : Styles := {}
  levels : List Nat := []
deriving DecidableEq

namespace Collection

/-- Counts a `div` on the innermost level and gives its number. -/
def countDiv (collection : Collection) : Nat × Collection :=
  match collection.levels with
  | [] => (1, { collection with levels := [1] })
  | count :: outer => (count + 1, { collection with levels := (count + 1) :: outer })

def openLevel (collection : Collection) : Collection :=
  { collection with levels := 0 :: collection.levels }

def closeLevel (collection : Collection) : Collection :=
  { collection with levels := collection.levels.drop 1 }

/-- Writes the declarations of an element under its selector. -/
def record (collection : Collection) (selector : String) (own : Element) : Collection :=
  let styles := match own.style with
    | none => collection.styles
    | some style => collection.styles.insertRule selector style
  let styles := own.extensions.foldl (fun styles extension =>
    styles.insertRule (selector ++ extension.suffix) extension.style) styles
  let styles := own.mediaQueries.foldl (fun styles media =>
    styles.insertMedia media.query selector media.style) styles
  { collection with styles }

end Collection

/-- What a tag adds to the selector of its parent. -/
def tagStep (parent tag : String) (collection : Collection) : String × Collection :=
  if tag ∈ landmarkTags then
    (if parent.isEmpty then tag else " > " ++ tag, collection)
  else if tag = "div" then
    let (number, collection) := collection.countDiv
    (" > div:nth-of-type(" ++ String.ofList (Text.writeNatural number) ++ ")", collection)
  else (" > " ++ tag, collection)

def classStep : Option String → String
  | none => ""
  | some className => "." ++ className

/-- A collection keeps what it has when it ends in an error. -/
abbrev Collecting := ExceptT CompileError (StateM Collection)

/-- Collects a tree that has at most the given height. The result is the selector of its root,
or the parent's where the root is inert. -/
def collectWithin (placeholder : Placeholder) : Nat → String → Node → Collecting String
  | 0, parent, _ => return parent
  | height + 1, parent, node => do
    let some tag := node.own.tag | return parent
    let (step, collection) := tagStep parent tag (← get)
    let selector := parent ++ step ++ classStep node.own.className
    set (collection.record selector node.own)
    match ownInstances placeholder node with
    | .error cause => throw { location := selector, cause }
    | .ok instances =>
      instances.forM fun copy => discard (collectWithin placeholder height selector copy)
      unless node.children.isEmpty do
        modify Collection.openLevel
        node.children.forM fun child => discard (collectWithin placeholder height selector child)
        modify Collection.closeLevel
      return selector

def collect (placeholder : Placeholder) (parent : String) (node : Node) : Collecting String :=
  collectWithin placeholder (height node) parent node

/-- The styles of a whole tree. -/
def collectStyles (placeholder : Placeholder) (root : Node) : Except CompileError Styles :=
  match (collect placeholder "" root).run {} with
  | (.ok _, collection) => .ok collection.styles
  | (.error error, _) => .error error

end Pagewright.Style
