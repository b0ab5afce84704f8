import Gremlin.Step
import Gremlin.Traversal

/-!
# Resolution

A step may mention logical names: members, element types, entities to be stored. Resolving it
against the model and the member names of its traversal gives the steps that the provider
understands, in order: members become keys, types become labels, and an entity is spread into
one property step per member. Nested traversals are kept as they are; they resolve in their own
scope when their turn comes.
-/

namespace Gremlin

/-- What the names in the steps of one traversal mean. -/
structure Scope where
  model : Model
  mappings : Mappings

variable {ρ : Type}

/-- The scope of a traversal's own steps. -/
def Traversal.scope (t : Traversal ρ) : Scope := ⟨t.environment.model, t.mappings⟩

namespace Scope

/-- The token for the identifier of an element where a key is expected. -/
def idToken : String := "T.id"

/-- The key of a member: the name given to it, else the identifier token for `id`, else the
model's key. -/
def member (scope : Scope) (m : Member) : Except Error (Value ρ) :=
  match scope.mappings[m]? with
  | some name => .ok (.key name)
  | none =>
    if m.name = "id" then .ok (.token idToken)
    else (scope.model.property m).map .key

/-- A parameter with its logical names resolved. -/
def value (scope : Scope) : Value ρ → Except Error (Value ρ)
  | .member m => scope.member m
  | .elementType t => (scope.model.label t).map .text
  | v => .ok v

/-- The parameters with their logical names resolved, the first failure first. -/
def values (scope : Scope) : List (Value ρ) → Except Error (List (Value ρ))
  | [] => .ok []
  | v :: rest => do
    let first ← scope.value v
    return first :: (← scope.values rest)

/-- One property step per member that is not null, in order. -/
def properties (scope : Scope) (typeName : String) :
    List (String × Value ρ) → Except Error (List (Step ρ))
  | [] => .ok []
  | (name, v) :: rest =>
    if v.isNull then scope.properties typeName rest
    else do
      let key ← scope.member ⟨typeName, name⟩
      let resolved ← scope.value v
      return ⟨"property", [key, resolved]⟩ :: (← scope.properties typeName rest)

end Scope

/-- What a step asks resolution for. -/
inductive Step.Request (ρ : Type) where
  /-- Store a new element by the named step. -/
  | create (name : String) (e : Entity ρ)
  /-- Overwrite the properties of an element. -/
  | update (e : Entity ρ)
  /-- Keep elements of a type. -/
  | ofType (typeName : String)
  /-- Disable no strategies. -/
  | vacuous
  /-- Nothing but names to look up. -/
  | plain

namespace Step

/-- The request that the name and the parameters of a step make. -/
def request (s : Step ρ) : Request ρ :=
  match s.parameters with
  | [.entity e] =>
    if s.name = "addV" ∨ s.name = "addE" then .create s.name e
    else if s.name = "update" then .update e
    else .plain
  | [.elementType t] => if s.name = "ofType" then .ofType t else .plain
  | [] => if s.name = "withoutStrategies" then .vacuous else .plain
  | _ => .plain

/-- The steps that the provider understands, in order. -/
def resolve (scope : Scope) (s : Step ρ) : Except Error (List (Step ρ)) :=
  match s.request with
  | .create name e => do
    let label ← scope.model.label e.typeName
    return ⟨name, [.text label]⟩ :: (← scope.properties e.typeName e.members)
  | .update e => scope.properties e.typeName (e.members.filter (·.1 != "id"))
  | .ofType t => do
    let labels ← scope.model.derivedLabels t
    return if labels.isEmpty then [] else [hasLabel labels]
  | .vacuous => .ok []
  | .plain => do return [⟨s.name, ← scope.values s.parameters⟩]

end Step

end Gremlin
