import Pagewright.Skeleton.Node

/-! The document of one page: its tree, and what is said once for the whole page. -/

namespace Pagewright.Skeleton

structure Head where
  title : Option String := none
  links : List Attributes := []
  metas : List Attributes := []
deriving DecidableEq

structure Font where
  family : String := ""
  source : String := ""
  display : Option String := none
deriving DecidableEq

/-- A rule under a name of its own, which any page element may use. -/
structure ClassroomRule where
  kind : String := ""
  name : String := ""
  style : String := ""
  mediaQueries : List MediaQuery := []
deriving DecidableEq

/-- A rule of the kind `class` selects a class, any other selects a tag. -/
def ClassroomRule.selector (rule : ClassroomRule) : String :=
  if rule.kind = "class" then "." ++ rule.name else rule.name

structure Page where
  root : Node := {}
  head : Option Head := none
  fonts : List Font := []
  properties : Keyed String Scalar := ∅
  classroom : List ClassroomRule := []

end Pagewright.Skeleton
