import Gremlin.Error
import Gremlin.Member
import Std.Data.TreeSet

/-!
# Graph models

A model gives the label under which a logical element type is stored and the key under which a
member is. It may be any functions that keep to a contract: a lookup that fails reports a name
without meaning. Two models are at hand. The dynamic model takes the names as they are; a schema
lists them in tables and also says which types derive from which.

`Schema.derivedLabels` walks a type and its subtypes depth first and in name order, each type
once. Every step of the walk either drops a type that was seen or takes one subtype list of a
new type, so a walk is over after one step more than the schema has subtype entries.
-/

namespace Gremlin

/-- The names of a set are listed in ascending order. -/
theorem ascending_toList (names : Std.TreeSet String) : names.toList.Pairwise (· < ·) := by
  have hordered := Std.TreeSet.ordered_toList (t := names)
  apply hordered.imp
  intro a b hab
  exact compareOfLessAndEq_eq_lt.mp hab

/-- Tables of labels, subtypes and property keys. -/
structure Schema where
  labels : Std.TreeMap String String := ∅
  subtypes : Std.TreeMap String (Std.TreeSet String) := ∅
  properties : Std.TreeMap Member String := ∅
  unconstrained : Std.TreeSet String := ∅
deriving Inhabited

namespace Schema

/-- Stores a type under a label. -/
def withType (s : Schema) (typeName label : String) : Schema :=
  { s with labels := s.labels.insert typeName label }

/-- Declares that `typeName` derives from `base`. -/
def withSubtype (s : Schema) (base typeName : String) : Schema :=
  { s with subtypes := s.subtypes.insert base ((s.subtypes.getD base ∅).insert typeName) }

/-- Declares a type that matches every label. -/
def withUnconstrained (s : Schema) (typeName : String) : Schema :=
  { s with unconstrained := s.unconstrained.insert typeName }

/-- Stores a member under a key. -/
def withProperty (s : Schema) (m : Member) (key : String) : Schema :=
  { s with properties := s.properties.insert m key }

def label (s : Schema) (typeName : String) : Except Error String :=
  match s.labels[typeName]? with
  | some l => .ok l
  | none => .error (.unknownMapping typeName)

def property (s : Schema) (m : Member) : Except Error String :=
  match s.properties[m]? with
  | some k => .ok k
  | none => .error (.unknownMapping m.text)

/-- The declared subtypes of a type in name order. -/
def subtypesOf (s : Schema) (typeName : String) : List String :=
  (s.subtypes.getD typeName ∅).toList

/-- The number of subtype declarations. -/
def subtypeCount (s : Schema) : Nat :=
  s.subtypes.toList.foldl (fun n e => n + e.2.size) 0

/-- Walks the types still to be visited, depth first, for at most `steps` steps, and adds their
labels. -/
def walk (s : Schema) : (steps : Nat) → (pending : List String) →
    (seen labels : Std.TreeSet String) → Except Error (Std.TreeSet String)
  | 0, _, _, labels => .ok labels
  | _, [], _, labels => .ok labels
  | steps + 1, t :: pending, seen, labels =>
    if seen.contains t then s.walk steps pending seen labels
    else
      match s.label t with
      | .error e => .error e
      | .ok l => s.walk steps (s.subtypesOf t ++ pending) (seen.insert t) (labels.insert l)

/-- The labels of a type and of everything that derives from it, in ascending order; none for a
type that matches every label. -/
def derivedLabels (s : Schema) (typeName : String) : Except Error (List String) :=
  if s.unconstrained.contains typeName then .ok []
  else (s.walk (s.subtypeCount + 1) [typeName] ∅ ∅).map (·.toList)

def debug (s : Schema) : String :=
  let key := Text.debugString
  Text.debugRecord "StaticModel"
    [("labels", Text.debugMap (s.labels.toList.map fun e => (key e.1, key e.2))),
     ("subtypes", Text.debugMap
        (s.subtypes.toList.map fun e => (key e.1, Text.debugSet (e.2.toList.map key)))),
     ("properties", Text.debugMap (s.properties.toList.map fun e =>
        (Text.debugItems "(" ")" [key e.1.owner, key e.1.name], key e.2))),
     ("unconstrained", Text.debugSet (s.unconstrained.toList.map key))]

/-! ### What lookups fail with -/

theorem isUnknown_of_label {s : Schema} {typeName : String} {e : Error}
    (h : s.label typeName = .error e) : e.IsUnknown := by
  unfold label at h
  split at h
  · contradiction
  · injection h with h
    exact ⟨typeName, h.symm⟩

theorem isUnknown_of_property {s : Schema} {m : Member} {e : Error}
    (h : s.property m = .error e) : e.IsUnknown := by
  unfold property at h
  split at h
  · contradiction
  · injection h with h
    exact ⟨m.text, h.symm⟩

theorem isUnknown_of_walk {s : Schema} {steps : Nat} {pending : List String}
    {seen labels : Std.TreeSet String} {e : Error}
    (h : s.walk steps pending seen labels = .error e) : e.IsUnknown := by
  induction steps generalizing pending seen labels with
  | zero => simp [walk] at h
  | succ steps ih =>
    cases pending with
    | nil => simp [walk] at h
    | cons t pending =>
      simp only [walk] at h
      split at h
      · exact ih h
      · -- the type has not been met before, so its label is looked up
        split at h
        · rename_i label
          injection h with h
          rw [← h]
          exact isUnknown_of_label label
        · exact ih h

theorem isUnknown_of_derivedLabels {s : Schema} {typeName : String} {e : Error}
    (h : s.derivedLabels typeName = .error e) : e.IsUnknown := by
  unfold derivedLabels at h
  split at h
  · contradiction
  · cases hwalk : s.walk (s.subtypeCount + 1) [typeName] ∅ ∅ with
    | error e' =>
      rw [hwalk] at h
      injection h with h
      rw [← h]
      exact isUnknown_of_walk hwalk
    | ok labels =>
      rw [hwalk] at h
      contradiction

end Schema

/-! ## Models -/

/-- The contract of a model: what its lookups fail with is that a name has no meaning. -/
structure Model.ReportsUnknown (label : String → Except Error String)
    (property : Member → Except Error String)
    (derivedLabels : String → Except Error (List String)) : Prop where
  label : ∀ {typeName : String} {e : Error}, label typeName = .error e → e.IsUnknown
  property : ∀ {m : Member} {e : Error}, property m = .error e → e.IsUnknown
  derivedLabels : ∀ {typeName : String} {e : Error},
    derivedLabels typeName = .error e → e.IsUnknown

theorem Schema.reportsUnknown (s : Schema) :
    Model.ReportsUnknown s.label s.property s.derivedLabels :=
  ⟨isUnknown_of_label, isUnknown_of_property, isUnknown_of_derivedLabels⟩

/-- How logical types and members are stored. -/
structure Model where
  /-- The label of a type. -/
  label : (typeName : String) → Except Error String
  /-- The key of a member. -/
  property : Member → Except Error String
  /-- The labels that a type may be stored under, which is its own one if nothing else is said; none
  if all may be. -/
  derivedLabels : (typeName : String) → Except Error (List String) :=
    fun typeName => (label typeName).map ([·])
  /-- How the model is shown. -/
  debug : String
  reportsUnknown : Model.ReportsUnknown label property derivedLabels

namespace Model

/-- Labels are type names and keys are member names. -/
def dynamic : Model where
  label t := .ok t
  property m := .ok m.name
  debug := "DynamicModel"
  reportsUnknown := by constructor <;> intro _ _ h <;> contradiction

instance : Inhabited Model := ⟨dynamic⟩

/-- Labels, keys and subtypes are looked up in tables. -/
def schema (s : Schema) : Model where
  label := s.label
  property := s.property
  derivedLabels := s.derivedLabels
  debug := s.debug
  reportsUnknown := s.reportsUnknown

end Model

end Gremlin
