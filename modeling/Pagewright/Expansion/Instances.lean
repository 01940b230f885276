import Pagewright.Expansion.Placeholder
import Pagewright.Text.Blank
import Pagewright.Skeleton.Node

/-! Instances of a blueprint. An instance is the template with every text in it substituted,
blueprints inside it included, so an inner blueprint no longer has tokens when its own turn
comes. -/

namespace Pagewright.Expansion

open Skeleton

variable {ε : Type}

def mapList (f : α → Except ε β) : List α → Except ε (List β)
  | [] => .ok []
  | first :: rest => do
    let first ← f first
    return first :: (← mapList f rest)

def mapOption (f : α → Except ε β) : Option α → Except ε (Option β)
  | none => .ok none
  | some value => some <$> f value

/-- Changes texts and leaves other scalars as they are. -/
def mapScalar (f : String → Except ε String) : Scalar → Except ε Scalar
  | .text value => .text <$> f value
  | scalar => .ok scalar

def mapExtension (f : String → Except ε String) (extension : Extension) :
    Except ε Extension := do
  let suffix ← f extension.suffix
  let style ← f extension.style
  return { suffix, style }

def mapMediaQuery (f : String → Except ε String) (media : MediaQuery) :
    Except ε MediaQuery := do
  let query ← f media.query
  let style ← f media.style
  return { query, style }

/-- Keys are changed too. Those that become equal keep the first place and the last value. -/
def mapAttributes (f : String → Except ε String) (attributes : Attributes) :
    Except ε Attributes := do
  let entries ← mapList (fun (key, value) => do
    let value ← mapScalar f value
    let key ← f key
    return (key, value)) attributes.entries
  return Keyed.ofList entries

def mapCount (f : String → Except ε String) : Count → Except ε Count
  | .literal value => .ok (.literal value)
  | .expression text => .expression <$> f text

mutual

/-- Changes every text of a tree. The order decides which of several errors is reported. -/
def mapNode (f : String → Except ε String) : Node → Except ε Node
  | ⟨own, blueprint, children⟩ => do
    let extensions ← mapList (mapExtension f) own.extensions
    let mediaQueries ← mapList (mapMediaQuery f) own.mediaQueries
    let blueprint ← match blueprint with
      | none => .ok none
      | some ⟨count, template⟩ => do
        let count ← mapCount f count
        let template ← mapNode f template
        .ok (some { count, template })
    let children ← mapNodes f children
    let tag ← mapOption f own.tag
    let className ← mapOption f own.className
    let style ← mapOption f own.style
    let attributes ← mapAttributes f own.attributes
    let text ← mapOption f own.text
    return {
      own := { tag, className, style, extensions, mediaQueries, attributes, text }
      blueprint, children }

def mapNodes (f : String → Except ε String) : List Node → Except ε (List Node)
  | [] => .ok []
  | node :: rest => do
    let first ← mapNode f node
    return first :: (← mapNodes f rest)

end

/-- The copy of a template that has an index. -/
def expand (placeholder : Placeholder) (template : Node) (index : Int) :
    Except ExpansionError Node :=
  mapNode (substitute placeholder index) template

/-- A count below zero is as good as zero. -/
def resolveCount : Count → Except ExpansionError Nat
  | .literal value => .ok value.toNat
  | .expression text =>
    match Text.readInteger64 (Text.trimBlank text.toList) with
    | some value => .ok value.toNat
    | none => .error (.countNotInteger text)

/-- A number of copies with successive indices. The first that fails ends the expansion. -/
def expandFrom (placeholder : Placeholder) (template : Node) (index : Nat) :
    Nat → Except ExpansionError (List Node)
  | 0 => .ok []
  | remaining + 1 => do
    let first ← expand placeholder template index
    return first :: (← expandFrom placeholder template (index + 1) remaining)

def instances (placeholder : Placeholder) (blueprint : Blueprint) :
    Except ExpansionError (List Node) := do
  let count ← resolveCount blueprint.count
  expandFrom placeholder blueprint.template 0 count

/-- The instances that a node has in front of its children. -/
def ownInstances (placeholder : Placeholder) (node : Node) : Except ExpansionError (List Node) :=
  match node.blueprint with
  | none => .ok []
  | some blueprint => instances placeholder blueprint

mutual

/-- How many nodes and templates stand below one another at most. An instance is no higher
than its template. -/
def height : Node → Nat
  | ⟨_, none, children⟩ => greatestHeight children + 1
  | ⟨_, some ⟨_, template⟩, children⟩ => max (height template) (greatestHeight children) + 1

def greatestHeight : List Node → Nat
  | [] => 0
  | node :: rest => max (height node) (greatestHeight rest)

end

end Pagewright.Expansion
