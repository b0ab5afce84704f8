import Gremlin.Options

/-!
# Settings

What a query source can be configured with from outside.
-/

namespace Gremlin

/-- The name of a source, the strategies to do without, and the options. -/
structure Settings where
  name : String := "g"
  excluded : List String := []
  options : Options := {}
deriving DecidableEq, Inhabited

end Gremlin
