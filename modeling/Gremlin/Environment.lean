import Gremlin.Model
import Gremlin.Options

/-!
# Environments

What a traversal compiles and runs against: a graph model, options and a pipeline. What a
pipeline is stays open here, since a pipeline may itself hold rules that mention traversals.
-/

namespace Gremlin

/-- The model, the options and the pipeline shared by a family of traversals. -/
structure Environment (ρ : Type) where
  model : Model := .dynamic
  options : Options := {}
  pipeline : ρ

namespace Environment

variable {ρ : Type}

instance [Inhabited ρ] : Inhabited (Environment ρ) := ⟨{ pipeline := default }⟩

/-- The pipeline is not shown. -/
def debug (e : Environment ρ) : String :=
  Text.debugOpenRecord "QueryEnvironment"
    [("model", e.model.debug), ("options", e.options.debug)]

end Environment

end Gremlin
