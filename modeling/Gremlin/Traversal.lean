import Gremlin.Error
import Gremlin.Expression
import Gremlin.StepList
import Gremlin.Supply

/-!
# Traversals

Operations on traversals give new traversals and leave the old ones as they are. All
traversals derived from one belong to its family and draw their step labels from one sequence,
also those in another environment and those without steps.
-/

namespace Gremlin.Traversal

variable {ρ : Type}

/-- The graph name of traversals that start from wherever they are used. -/
def anonymousGraph : String := "__"

/-- A traversal without steps, in a family of its own. -/
def create (graph : String) (environment : Environment ρ) : Building (Traversal ρ) := do
  return ⟨graph, .empty, environment, ← Supply.newFamily, ∅⟩

/-- An anonymous traversal without steps, in a family of its own. -/
def anonymous (environment : Environment ρ) : Building (Traversal ρ) :=
  create anonymousGraph environment

def isAnonymous (t : Traversal ρ) : Bool := t.graph == anonymousGraph

/-- The traversal with a step appended. -/
def addStep (t : Traversal ρ) (step : Step ρ) : Building (Traversal ρ) := do
  return { t with steps := t.steps.push (← Supply.freshNode) step }

/-- The traversal with steps appended in order. -/
def addSteps (t : Traversal ρ) : List (Step ρ) → Building (Traversal ρ)
  | [] => pure t
  | step :: rest => do (← t.addStep step).addSteps rest

/-- The anonymous traversal of the same family, environment and mappings, without steps. -/
def toAnonymous (t : Traversal ρ) : Traversal ρ :=
  { t with graph := anonymousGraph, steps := .empty }

/-- The traversal in another environment. -/
def replaceEnvironment (t : Traversal ρ) (environment : Environment ρ) : Traversal ρ :=
  { t with environment }

/-- Names a member for this traversal and everything derived from it. -/
def mapMember (t : Traversal ρ) (expression : Expression ρ) (name : String) :
    Except Error (Traversal ρ) :=
  match expression.member? with
  | some m => .ok { t with mappings := t.mappings.insert m name }
  | none => .error (.invalidMappingExpression expression.debug)

end Gremlin.Traversal
