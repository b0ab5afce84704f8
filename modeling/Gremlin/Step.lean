import Gremlin.Entity
import Gremlin.Value

/-!
# Steps

The steps of the traversal language. Members, logical types and entities are kept as they are
and resolved against a model only when the traversal is compiled.
-/

namespace Gremlin

variable {ρ : Type}

/-- How many values a property of one name may have. -/
inductive Cardinality where
  | single | list | set
deriving DecidableEq

def Cardinality.word : Cardinality → String
  | single => "single"
  | list => "list"
  | set => "set"

namespace Step

/-- A step without parameters. -/
def bare (name : String) : Step ρ := ⟨name, []⟩

/-- A step whose parameters are text literals. -/
def texts (name : String) (items : List String) : Step ρ := ⟨name, items.map .text⟩

/-- The integer at a parameter position, of either width. -/
def integerAt (s : Step ρ) (index : Nat) : Option Int64 :=
  s.parameters[index]?.bind Value.integer?

/-! ## Where a traversal starts -/

def v (ids : List (Value ρ)) : Step ρ := ⟨"V", ids⟩
def e (ids : List (Value ρ)) : Step ρ := ⟨"E", ids⟩
def addV (vertex : Entity ρ) : Step ρ := ⟨"addV", [.entity vertex]⟩
def addE (edge : Entity ρ) : Step ρ := ⟨"addE", [.entity edge]⟩
def inject (elements : List (Value ρ)) : Step ρ := ⟨"inject", elements⟩

/-- Tells the server to do without the named strategies. -/
def withoutStrategies (names : List String) : Step ρ := ⟨"withoutStrategies", names.map .token⟩

/-! ## Filters -/

def has (m : Member) (value : Value ρ) : Step ρ := ⟨"has", [.member m, value]⟩
def hasKey (key : String) (value : Value ρ) : Step ρ := ⟨"has", [.key key, value]⟩
def hasNot (m : Member) : Step ρ := ⟨"hasNot", [.member m]⟩
def hasLabel (labels : List String) : Step ρ := texts "hasLabel" labels

/-- Keeps elements of a logical type and its subtypes. -/
def ofType (typeName : String) : Step ρ := ⟨"ofType", [.elementType typeName]⟩

def dedup : Step ρ := bare "dedup"
def identity : Step ρ := bare "identity"

/-- Keeps nothing. -/
def nothing : Step ρ := bare "none"

/-- Keeps what the nested traversal yields nothing for. -/
def lacking (inner : Traversal ρ) : Step ρ := ⟨"not", [.traversal inner]⟩

/-- Keeps what the nested traversal yields something for. -/
def having (inner : Traversal ρ) : Step ρ := ⟨"where", [.traversal inner]⟩

/-! ## Navigation -/

def out (labels : List String) : Step ρ := texts "out" labels
def into (labels : List String) : Step ρ := texts "in" labels
def both (labels : List String) : Step ρ := texts "both" labels
def outE (labels : List String) : Step ρ := texts "outE" labels
def inE (labels : List String) : Step ρ := texts "inE" labels
def outV : Step ρ := bare "outV"
def inV : Step ρ := bare "inV"

/-! ## Projection and paging -/

def valuesOf (members : List Member) : Step ρ := ⟨"values", members.map .member⟩
def elementId : Step ρ := bare "id"
def label : Step ρ := bare "label"
def count : Step ρ := bare "count"
def fold : Step ρ := bare "fold"
def limit (n : Int64) : Step ρ := ⟨"limit", [.long n]⟩
def skip (n : Int64) : Step ρ := ⟨"skip", [.long n]⟩
def tail (n : Int64) : Step ρ := ⟨"tail", [.long n]⟩
def range (lower upper : Int64) : Step ρ := ⟨"range", [.long lower, .long upper]⟩

/-- Puts a label on the current step. -/
def mark (label : String) : Step ρ := ⟨"as", [.text label]⟩

/-- Goes back to a labelled step. -/
def select (label : String) : Step ρ := ⟨"select", [.text label]⟩

/-! ## Mutation -/

def property (m : Member) (value : Value ρ) : Step ρ := ⟨"property", [.member m, value]⟩

def propertyWith (cardinality : Cardinality) (m : Member) (value : Value ρ) : Step ρ :=
  ⟨"property", [.token cardinality.word, .member m, value]⟩

/-- Overwrites the properties of the current element with the members of an entity. -/
def update (element : Entity ρ) : Step ρ := ⟨"update", [.entity element]⟩

def drop : Step ρ := bare "drop"

end Step

end Gremlin
