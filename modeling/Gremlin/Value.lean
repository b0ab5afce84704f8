import Gremlin.Decimal.Double
import Gremlin.Environment

/-!
# Values, entities, steps and traversals

A traversal is a sequence of steps, a step has values as parameters, and a value may be a whole
traversal again, or an entity whose members are values; so the four are defined together.

A step list keeps its newest node first, and every node has an identity: two lists that share a
node share everything before it. Identities, environments and families tell traversals apart
that were built differently, but they are not part of what a traversal says, so `==` leaves
them out. Numbers are compared as numbers.
-/

namespace Gremlin

mutual

/-- A step parameter. -/
inductive Value (ρ : Type) where
  | null
  | bool (b : Bool)
  | int (n : Int32)
  | long (n : Int64)
  | float (x : Double)
  | text (s : String)
  /-- A key as the provider stores it. -/
  | key (name : String)
  /-- A bare word of the language, such as `single`. -/
  | token (word : String)
  /-- A member, to be resolved to its key. -/
  | member (m : Member)
  /-- A logical type, to be resolved to its label. -/
  | elementType (name : String)
  | entity (e : Entity ρ)
  /-- A nested traversal. -/
  | traversal (t : Traversal ρ)

/-- A logical element to be stored: its type and its members in order. -/
structure Entity (ρ : Type) where
  typeName : String
  members : List (String × Value ρ)

/-- One operation of a traversal. -/
structure Step (ρ : Type) where
  name : String
  parameters : List (Value ρ)

/-- A step with the identity of the append that made it. -/
structure Node (ρ : Type) where
  id : Nat
  step : Step ρ

/-- A sequence of steps, newest first. -/
structure StepList (ρ : Type) where
  newestFirst : List (Node ρ)

/-- A traversal under construction: where it starts, its steps, what it compiles against, the
family that it draws step labels from, and the names given to members. -/
structure Traversal (ρ : Type) where
  graph : String
  steps : StepList ρ
  environment : Environment ρ
  family : Nat
  mappings : Mappings

end

variable {ρ : Type}

instance : Inhabited (Value ρ) := ⟨.null⟩
instance : Inhabited (Step ρ) := ⟨⟨"", []⟩⟩
instance : Inhabited (Entity ρ) := ⟨⟨"", []⟩⟩

/-! ## Kinds -/

/-- The kind of a value. -/
inductive Kind where
  | null | bool | int | long | float | text | key | token | member | elementType | entity
  | traversal
deriving DecidableEq, Inhabited

namespace Kind

/-- The public name of a kind. -/
def name : Kind → String
  | null => "Null"
  | bool => "Bool"
  | int => "Int"
  | long => "Long"
  | float => "Float"
  | text => "String"
  | key => "Key"
  | token => "Token"
  | member => "Member"
  | elementType => "TypeLabel"
  | entity => "Object"
  | traversal => "Query"

def all : List Kind :=
  [null, bool, int, long, float, text, key, token, member, elementType, entity, traversal]

/-- The kind with a public name. -/
def ofName? (s : String) : Option Kind := all.find? (·.name == s)

end Kind

namespace Value

def kind : Value ρ → Kind
  | null => .null
  | bool _ => .bool
  | int _ => .int
  | long _ => .long
  | float _ => .float
  | text _ => .text
  | key _ => .key
  | token _ => .token
  | member _ => .member
  | elementType _ => .elementType
  | entity _ => .entity
  | traversal _ => .traversal

/-- The value is a literal of the script language. -/
def isLiteral : Value ρ → Bool
  | null | bool _ | int _ | long _ | float _ | text _ => true
  | _ => false

/-- The integer of either width. -/
def integer? : Value ρ → Option Int64
  | int n => some n.toInt64
  | long n => some n
  | _ => none

/-- The text of a text literal; keys and tokens have none. -/
def text? : Value ρ → Option String
  | text s => some s
  | _ => none

def isNull : Value ρ → Bool
  | null => true
  | _ => false

end Value

/-! ## Equality -/

mutual

def Value.same : Value ρ → Value ρ → Bool
  | .null, .null => true
  | .bool a, .bool b => a == b
  | .int a, .int b => a == b
  | .long a, .long b => a == b
  | .float a, .float b => a.sameNumber b
  | .text a, .text b => a == b
  | .key a, .key b => a == b
  | .token a, .token b => a == b
  | .member a, .member b => a == b
  | .elementType a, .elementType b => a == b
  | .entity a, .entity b => a.same b
  | .traversal a, .traversal b => a.same b
  | _, _ => false

/-- The types agree, and the members one by one in order. -/
def Entity.same : Entity ρ → Entity ρ → Bool
  | ⟨s, as⟩, ⟨t, bs⟩ => s == t && sameMembers as bs

def sameMembers : List (String × Value ρ) → List (String × Value ρ) → Bool
  | [], [] => true
  | (n, a) :: as, (m, b) :: bs => n == m && a.same b && sameMembers as bs
  | _, _ => false

/-- The names agree, and the parameters one by one. -/
def Step.same : Step ρ → Step ρ → Bool
  | ⟨s, as⟩, ⟨t, bs⟩ => s == t && sameValues as bs

def sameValues : List (Value ρ) → List (Value ρ) → Bool
  | [], [] => true
  | a :: as, b :: bs => a.same b && sameValues as bs
  | _, _ => false

/-- The steps agree one by one; identities are left out. -/
def sameNodes : List (Node ρ) → List (Node ρ) → Bool
  | [], [] => true
  | ⟨_, a⟩ :: as, ⟨_, b⟩ :: bs => a.same b && sameNodes as bs
  | _, _ => false

/-- Graph, steps and mappings agree; environment and family are left out. -/
def Traversal.same : Traversal ρ → Traversal ρ → Bool
  | ⟨g, ⟨as⟩, _, _, m⟩, ⟨h, ⟨bs⟩, _, _, n⟩ =>
    g == h && sameNodes as bs && m.toList == n.toList

end

instance : BEq (Value ρ) := ⟨Value.same⟩
instance : BEq (Entity ρ) := ⟨Entity.same⟩
instance : BEq (Step ρ) := ⟨Step.same⟩
instance : BEq (Traversal ρ) := ⟨Traversal.same⟩
instance : BEq (StepList ρ) := ⟨fun a b => sameNodes a.newestFirst b.newestFirst⟩

end Gremlin
