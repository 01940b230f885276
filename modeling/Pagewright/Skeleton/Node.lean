import Pagewright.Json.Number
import Pagewright.Keyed

/-! The tree of a page. A node has what it says of its own element, a blueprint for elements
that repeat, and children. A node without a tag is inert: neither it nor anything below it has
a place on the page. -/

namespace Pagewright.Skeleton

/-- A value that a document may give as a text, a number or a truth value. -/
inductive Scalar where
  | text (value : String)
  | number (value : Json.Number)
  | bool (value : Bool)
deriving DecidableEq

/-- How a scalar stands on a page. -/
def Scalar.display : Scalar → String
  | .text value => value
  | .number value => String.ofList value.write
  | .bool value => if value then "true" else "false"

abbrev Attributes := Keyed String Scalar

/-- Declarations for an element's selector with a suffix such as a pseudo-class. -/
structure Extension where
  suffix : String := ""
  style : String := ""
deriving DecidableEq

/-- Declarations for an element's selector while a media query holds. -/
structure MediaQuery where
  query : String := ""
  style : String := ""
deriving DecidableEq

structure Element where
  tag : Option String := none
  className : Option String := none
  style : Option String := none
  extensions : List Extension := []
  mediaQueries : List MediaQuery := []
  attributes : Attributes := ∅
  text : Option String := none
deriving DecidableEq

/-- How often a blueprint is repeated. The text form may depend on the index of a blueprint
around it. -/
inductive Count where
  | literal (value : Int)
  | expression (text : String)
deriving DecidableEq

mutual

structure Node where
  own : Element := {}
  blueprint : Option Blueprint := none
  children : List Node := []

structure Blueprint where
  count : Count := .literal 0
  template : Node

end

instance : Inhabited Node := ⟨{}⟩
instance : Inhabited Blueprint := ⟨{ template := {} }⟩

def Node.isInert (node : Node) : Bool := node.own.tag.isNone

/-- Elements that are written without content. -/
def selfClosingTags : List String := ["img", "br", "hr", "input", "meta", "link"]

def isSelfClosing (tag : String) : Bool := selfClosingTags.contains tag

end Pagewright.Skeleton
