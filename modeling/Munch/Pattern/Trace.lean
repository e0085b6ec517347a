import Munch.Event
import Munch.Pattern.Parser

set_option autoImplicit false

/-! # Tracing the parser -/

namespace Munch.Pattern

/-- The productions entered while parsing a pattern, as events. -/
def visitEvents (text : Bytes) : List Event :=
  (visits text).map fun v => .enteringProduction v.production v.offset (text.drop v.offset)

end Munch.Pattern
