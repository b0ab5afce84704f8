import Gremlin.StepList
import Gremlin.Supply

/-!
# Shelves of step lists

A shelf holds step lists by number, the empty one first. Lists are put on it by appending to a
list that is there, by collecting steps, or by copying; clearing a place leaves the empty list
there and touches no other. Every append makes one node with an identity of its own.
-/

namespace Gremlin

variable {ρ : Type}

namespace StepList

/-- The list with a step appended, as a new node. -/
def append (steps : StepList ρ) (step : Step ρ) : Building (StepList ρ) := do
  return steps.push (← Supply.freshNode) step

/-- The list of some steps, each a new node after the ones before. -/
def collect (steps : StepList ρ) : List (Step ρ) → Building (StepList ρ)
  | [] => return steps
  | step :: rest => do (← steps.append step).collect rest

end StepList

/-- Step lists by number. -/
structure Shelf (ρ : Type) where
  lists : Array (StepList ρ) := #[.empty]

namespace Shelf

/-- What is done to a shelf. -/
inductive Edit (ρ : Type) where
  /-- Puts up a list with a step appended. -/
  | push (list : Nat) (step : Step ρ)
  /-- Puts up the list of some steps. -/
  | collect (steps : List (Step ρ))
  /-- Puts up a list once more. -/
  | copy (list : Nat)
  /-- Leaves the empty list in a place. -/
  | clear (list : Nat)

/-- The list with a number; a place that was never filled is empty. -/
def get (shelf : Shelf ρ) (list : Nat) : StepList ρ := shelf.lists.getD list .empty

/-- Puts up one more list. -/
def put (shelf : Shelf ρ) (steps : StepList ρ) : Shelf ρ := ⟨shelf.lists.push steps⟩

/-- Edits a shelf and gives the list that the edit made or left. -/
def edit (shelf : Shelf ρ) : Edit ρ → Building (StepList ρ × Shelf ρ)
  | .push list step => do
    let steps ← (shelf.get list).append step
    return (steps, shelf.put steps)
  | .collect steps => do
    let steps ← StepList.empty.collect steps
    return (steps, shelf.put steps)
  | .copy list => return (shelf.get list, shelf.put (shelf.get list))
  | .clear list => return (.empty, ⟨shelf.lists.setIfInBounds list .empty⟩)

end Shelf

end Gremlin
