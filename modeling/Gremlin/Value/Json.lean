import Gremlin.Json
import Gremlin.Value.Debug

/-!
# JSON forms of values

The form in which a value is bound to a parameter or handed over in bytecode. A number that is
not finite has none and becomes `null`, an entity becomes the object of its members, and a
nested traversal is only shown.
-/

namespace Gremlin

variable {ρ : Type}

/-- A finite number, or `null`. -/
def Json.ofDouble (x : Double) : Json := if x.isFinite then .float x else .null

mutual

def Value.toJson : Value ρ → Json
  | .null => .null
  | .bool b => .bool b
  | .int n => .int n.toInt
  | .long n => .int n.toInt
  | .float x => Json.ofDouble x
  | .text s | .key s | .token s | .elementType s => .text s
  | .member m => .text m.text
  | .entity e => e.toJson
  | .traversal t => .text t.debug

def Entity.toJson : Entity ρ → Json
  | ⟨_, members⟩ => Json.ofFields (memberFields members)

def memberFields : List (String × Value ρ) → List (String × Json)
  | [] => []
  | (name, value) :: rest => (name, value.toJson) :: memberFields rest

end

end Gremlin
