import Gremlin.Value

/-!
# Nesting

How many traversals nest inside one another, members of entities included. A nested traversal
is one level below the traversal whose step it is a parameter of.
-/

namespace Gremlin

variable {ρ : Type}

mutual

/-- The number of levels of traversals in a value. -/
def Value.nesting : Value ρ → Nat
  | .entity e => e.nesting
  | .traversal t => t.nesting + 1
  | _ => 0

def Entity.nesting : Entity ρ → Nat
  | ⟨_, members⟩ => membersNesting members

def membersNesting : List (String × Value ρ) → Nat
  | [] => 0
  | (_, value) :: rest => max value.nesting (membersNesting rest)

def Step.nesting : Step ρ → Nat
  | ⟨_, parameters⟩ => valuesNesting parameters

def valuesNesting : List (Value ρ) → Nat
  | [] => 0
  | value :: rest => max value.nesting (valuesNesting rest)

def nodesNesting : List (Node ρ) → Nat
  | [] => 0
  | ⟨_, step⟩ :: rest => max step.nesting (nodesNesting rest)

/-- The number of levels of traversals below a traversal. -/
def Traversal.nesting : Traversal ρ → Nat
  | ⟨_, ⟨nodes⟩, _, _, _⟩ => nodesNesting nodes

end

end Gremlin
