import Gremlin.Decimal.Layout
import Gremlin.Value

/-!
# Debug texts of values

A value is shown as its kind with its content, a step as its name with its parameters. Of a
traversal the graph and the steps are shown, first to last, and the rest is left out.
-/

namespace Gremlin

open Text

variable {ρ : Type}

mutual

def Value.debug : Value ρ → String
  | .null => "Null"
  | .bool b => debugCall "Bool" (debugBool b)
  | .int n => debugCall "Int" (toString n)
  | .long n => debugCall "Long" (toString n)
  | .float x => debugCall "Float" x.text
  | .text s => debugCall "String" (debugString s)
  | .key s => debugCall "Key" (debugString s)
  | .token s => debugCall "Token" (debugString s)
  | .member m => debugCall "Member" m.debug
  | .elementType s => debugCall "TypeLabel" (debugString s)
  | .entity e => debugCall "Object" e.debug
  | .traversal t => debugCall "Query" t.debug

def Entity.debug : Entity ρ → String
  | ⟨typeName, members⟩ =>
    debugRecord "DomainObject"
      [("type_name", debugString typeName), ("members", debugList (debugMembers members))]

def debugMembers : List (String × Value ρ) → List String
  | [] => []
  | (name, value) :: rest =>
    debugItems "(" ")" [debugString name, value.debug] :: debugMembers rest

def Step.debug : Step ρ → String
  | ⟨name, parameters⟩ => debugCall name (debugList (debugValues parameters))

def debugValues : List (Value ρ) → List String
  | [] => []
  | value :: rest => value.debug :: debugValues rest

/-- The shown steps, newest first like the nodes. -/
def debugNodes : List (Node ρ) → List String
  | [] => []
  | ⟨_, step⟩ :: rest => step.debug :: debugNodes rest

def Traversal.debug : Traversal ρ → String
  | ⟨graph, ⟨nodes⟩, _, _, _⟩ =>
    debugOpenRecord "Query"
      [("graph_name", debugString graph), ("steps", debugList (debugNodes nodes).reverse)]

end

def StepList.debug (steps : StepList ρ) : String :=
  debugList (debugNodes steps.newestFirst).reverse

end Gremlin
