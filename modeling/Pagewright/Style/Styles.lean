import Pagewright.Keyed

/-! Declarations collected for one page: rules by selector, and rules by selector under each
media query. Whatever is written again keeps its first place. -/

namespace Pagewright.Style

abbrev Rules := Keyed String String

structure Styles where
  rules : Rules := ∅
  media : Keyed String Rules := ∅
deriving DecidableEq

namespace Styles

def insertRule (styles : Styles) (selector style : String) : Styles :=
  { styles with rules := styles.rules.insert selector style }

def insertMedia (styles : Styles) (query selector style : String) : Styles :=
  let rules := (styles.media.get? query).getD ∅
  { styles with media := styles.media.insert query (rules.insert selector style) }

def isEmpty (styles : Styles) : Bool := styles.rules.isEmpty && styles.media.isEmpty

end Styles
end Pagewright.Style
