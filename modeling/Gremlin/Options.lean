import Gremlin.Text.Debug

/-!
# Options

The flags that a query source hands to its traversals.
-/

namespace Gremlin

/-- Flags of a query source. -/
structure Options where
  /-- Write literals into the script instead of binding them to parameters. -/
  inlineParameters : Bool := false
  /-- Leave out `single` on property steps, which some servers reject (TINKERPOP-2112). -/
  omitSingle : Bool := false
deriving DecidableEq, Inhabited

namespace Options

/-- The options with the given flags set. -/
def adjust (o : Options) (inlineParameters omitSingle : Option Bool) : Options :=
  ⟨inlineParameters.getD o.inlineParameters, omitSingle.getD o.omitSingle⟩

def debug (o : Options) : String :=
  Text.debugRecord "QueryOptions"
    [("inline_parameters", Text.debugBool o.inlineParameters),
     ("workaround_tinkerpop_2112", Text.debugBool o.omitSingle)]

end Options

end Gremlin
