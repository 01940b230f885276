import Pagewright.Json.Decoder
import Pagewright.Skeleton.Page

/-! The documents of pages. The members of a blueprint's template stand beside its count, and
those of a page's root beside the page's own; all other records are read as their members
come. -/

namespace Pagewright.Skeleton

open Json Json.Decoder

def decodeScalar : Decoder Scalar := fun access value => do
  access.whole value
  match value with
  | .bool value => return .bool value
  | .number literal => return .number (← decodeNumber literal)
  | .string text => return .text (← decodeString text)
  | _ => .error .misshapen

/-- A scalar that is kept only as it is displayed. -/
def decodeDisplayed : Decoder (Option String) := fun access value =>
  Option.map Scalar.display <$> optional decodeScalar access value

def decodeCount : Decoder Count := fun access value => do
  access.whole value
  match value with
  | .number literal =>
    match ← decodeNumber literal with
    | .integer n => if Text.InRange64 n then return .literal n else .error .misshapen
    | .real _ => .error .misshapen
  | .string text => return .expression (← decodeString text)
  | _ => .error .misshapen

def decodeAttributes : Decoder Attributes := keyed decodeScalar

def decodeExtension : Decoder Extension :=
  record [
    .of "extension" string fun suffix extension => { extension with suffix },
    .of "style" string fun style extension => { extension with style }] {} []

def decodeMediaQuery : Decoder MediaQuery :=
  record [
    .of "query" string fun query media => { media with query },
    .of "style" string fun style media => { media with style }] {} []

/-- A field of a node that only concerns its own element. -/
def ownField (name : String) (decoder : Decoder α) (write : α → Element → Element) :
    RecordField Node :=
  .of name decoder fun value node => { node with own := write value node.own }

def decodeBlueprint (nodeFields : List (RecordField Node)) : Decoder Blueprint :=
    fun access value => do
  let count : RecordField Count := .of "count" decodeCount fun count _ => count
  let (count, template) ←
    joined [count] (.literal 0) ["count"] nodeFields {} access value
  return { count, template }

/-- The fields of a node that has fewer than the given number of nodes and templates below one
another. -/
def nodeFields : Nat → List (RecordField Node)
  | 0 => []
  | height + 1 => [
    ownField "element" (optional string) fun tag own => { own with tag },
    ownField "class" decodeDisplayed fun className own => { own with className },
    ownField "style" decodeDisplayed fun style own => { own with style },
    ownField "extend" (list decodeExtension) fun extensions own => { own with extensions },
    ownField "mediaQueries" (list decodeMediaQuery) fun mediaQueries own =>
      { own with mediaQueries },
    .of "blueprint" (optional (decodeBlueprint (nodeFields height))) fun blueprint node =>
      { node with blueprint },
    .of "children" (list (record (nodeFields height) {} [])) fun children node =>
      { node with children },
    ownField "attributes" decodeAttributes fun attributes own => { own with attributes },
    ownField "text" decodeDisplayed fun text own => { own with text }]

/-- Every node and every template is a container of its own, so the nesting limit also bounds
the height of the tree. -/
def documentHeight : Nat := nestingLimit + 1

def decodeNode : Decoder Node := record (nodeFields documentHeight) {} []

def decodeHead : Decoder Head :=
  record [
    .of "title" (optional string) fun title head => { head with title },
    .of "link" (list decodeAttributes) fun links head => { head with links },
    .of "meta" (list decodeAttributes) fun metas head => { head with metas }] {} []

def decodeFont : Decoder Font :=
  record [
    .of "font-family" string fun family font => { font with family },
    .of "src" string fun source font => { font with source },
    .of "font-display" (optional string) fun display font => { font with display }] {} []

def decodeClassroomRule : Decoder ClassroomRule :=
  record [
    .of "type" string fun kind rule => { rule with kind },
    .of "name" string fun name rule => { rule with name },
    .of "style" string fun style rule => { rule with style },
    .of "mediaQueries" (list decodeMediaQuery) fun mediaQueries rule =>
      { rule with mediaQueries }] {} ["name"]

def pageFields : List (RecordField Page) := [
  .of "head" (optional decodeHead) fun head page => { page with head },
  .of "fonts" (list decodeFont) fun fonts page => { page with fonts },
  .of "root" (keyed decodeScalar) fun properties page => { page with properties },
  .of "classroom" (list decodeClassroomRule) fun classroom page => { page with classroom }]

def decodePage : Decoder Page := fun access value => do
  let (page, root) ← joined pageFields {} [] (nodeFields documentHeight) {} access value
  return { page with root }

def Node.ofText : String → Except Fault Node := decodeNode.ofText

def Blueprint.ofText : String → Except Fault Blueprint :=
  (decodeBlueprint (nodeFields documentHeight)).ofText

def Head.ofText : String → Except Fault Head := decodeHead.ofText

def Page.ofText : String → Except Fault Page := decodePage.ofText

end Pagewright.Skeleton
