import Gremlin.Value

/-!
# Entities

An entity lists the members of a logical element in the order in which they were first given,
each name once and with the value given last.
-/

namespace Gremlin

variable {ρ : Type}

/-- Sets a member: a name that is there keeps its place, a new one goes last. -/
def setMember (name : String) (value : Value ρ) :
    List (String × Value ρ) → List (String × Value ρ)
  | [] => [(name, value)]
  | (n, v) :: rest =>
    if n = name then (n, value) :: rest else (n, v) :: setMember name value rest

namespace Entity

/-- The entity without members. -/
def empty (typeName : String) : Entity ρ := ⟨typeName, []⟩

/-- The entity with a member set. -/
def withMember (e : Entity ρ) (name : String) (value : Value ρ) : Entity ρ :=
  { e with members := setMember name value e.members }

/-- The `id` member, if there is one and it is not null. -/
def id? (e : Entity ρ) : Option (Value ρ) :=
  (e.members.find? fun m => m.1 == "id" && !m.2.isNull).map (·.2)

end Entity

end Gremlin
