import Gremlin.Value.Debug

/-!
# Step lists

Appending to a step list makes one node and shares all others, so a list keeps what it was
whatever is derived from it. A list is told to be derived from another by the identities of
its nodes: `a.sharesPrefixWith b` drops what `b` has beyond the length of `a` and compares the
newest node of what is left. Steps that are merely equal are never taken for shared.
-/

namespace Gremlin.StepList

variable {ρ : Type}

def empty : StepList ρ := ⟨[]⟩

instance : Inhabited (StepList ρ) := ⟨empty⟩

/-- The list with a step appended under a new identity. -/
def push (steps : StepList ρ) (id : Nat) (step : Step ρ) : StepList ρ :=
  ⟨⟨id, step⟩ :: steps.newestFirst⟩

/-- The steps, first to last. -/
def toList (steps : StepList ρ) : List (Step ρ) := (steps.newestFirst.map (·.step)).reverse

def length (steps : StepList ρ) : Nat := steps.newestFirst.length

def isEmpty (steps : StepList ρ) : Bool := steps.newestFirst.isEmpty

/-- The step appended last. -/
def last? (steps : StepList ρ) : Option (Step ρ) := steps.newestFirst.head?.map (·.step)

/-- `other` was derived from this list by appending. -/
def sharesPrefixWith (steps other : StepList ρ) : Bool :=
  steps.length ≤ other.length &&
    (other.newestFirst.drop (other.length - steps.length)).head?.map (·.id) ==
      steps.newestFirst.head?.map (·.id)

@[simp] theorem toList_empty : (empty : StepList ρ).toList = [] := rfl

@[simp] theorem toList_push (steps : StepList ρ) (id : Nat) (step : Step ρ) :
    (steps.push id step).toList = steps.toList ++ [step] := by
  simp [push, toList]

@[simp] theorem length_push (steps : StepList ρ) (id : Nat) (step : Step ρ) :
    (steps.push id step).length = steps.length + 1 := rfl

@[simp] theorem length_toList (steps : StepList ρ) : steps.toList.length = steps.length := by
  simp [toList, length]

@[simp] theorem last?_push (steps : StepList ρ) (id : Nat) (step : Step ρ) :
    (steps.push id step).last? = some step := rfl

end Gremlin.StepList
