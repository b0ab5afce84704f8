import Gremlin.Entity
import Gremlin.Error
import Gremlin.Json.Text
import Gremlin.Text.Position
import Gremlin.Value.Json

/-!
# Entities from data

A datum is what a record of an application hands over to be stored: scalars, lists, maps, or
a refusal with its reason. It is first brought into JSON, where the first failure in the order
given wins; a position at the end of its reason is written plainly. An object of scalars then
becomes an entity with its members in ascending order of their names.
-/

namespace Gremlin

/-- Data handed over by an application. -/
inductive Datum where
  | null
  | bool (b : Bool)
  | int (n : Int64)
  | unsigned (n : UInt64)
  | float (x : Double)
  | text (s : String)
  | list (items : List Datum)
  | map (entries : List (Datum × Datum))
  /-- The application could not hand the datum over. -/
  | refused (reason : String)
deriving Inhabited

namespace Datum

/-- The field name for a map key. -/
def fieldName : Datum → Except String String
  | text s => .ok s
  | bool b => .ok (if b then "true" else "false")
  | int n => .ok (toString n)
  | unsigned n => .ok (toString n)
  | float x =>
    if x.isFinite then .ok (Json.numberText x)
    else .error "float key must be finite (got NaN or +/-inf)"
  | refused reason => .error (Text.plainPosition reason)
  | null | list _ | map _ => .error "key must be a string"

mutual

/-- The JSON form, or the reason of the first failure. -/
def toJson : Datum → Except String Json
  | null => .ok .null
  | bool b => .ok (.bool b)
  | int n => .ok (.int n.toInt)
  | unsigned n => .ok (.int n.toNat)
  | float x => .ok (Json.ofDouble x)
  | text s => .ok (.text s)
  | list items => do return .array (← toItems items)
  | map entries => do return Json.ofFields (← toFields entries)
  | refused reason => .error (Text.plainPosition reason)

def toItems : List Datum → Except String (List Json)
  | [] => .ok []
  | item :: rest => do
    let first ← item.toJson
    return first :: (← toItems rest)

def toFields : List (Datum × Datum) → Except String (List (String × Json))
  | [] => .ok []
  | (key, value) :: rest => do
    let name ← key.fieldName
    let first ← value.toJson
    return (name, first) :: (← toFields rest)

end

end Datum

variable {ρ : Type}

/-- The value that stores a JSON scalar; an integer too large for 64 bits is rounded. -/
def Value.ofJson? : Json → Option (Value ρ)
  | .null => some .null
  | .bool b => some (.bool b)
  | .int n =>
    if Int64.minValue.toInt ≤ n ∧ n ≤ Int64.maxValue.toInt then some (.long (Int64.ofInt n))
    else some (.float (Double.ofNat n.natAbs))
  | .float x => some (.float x)
  | .text s => some (.text s)
  | .array _ | .object _ => none

namespace Entity

/-- The members for the fields of an object, or the first field that is no scalar. -/
def membersOfFields : List (String × Json) → Except Json (List (String × Value ρ))
  | [] => .ok []
  | (name, json) :: rest =>
    match Value.ofJson? json with
    | none => .error json
    | some value => do return (name, value) :: (← membersOfFields rest)

/-- The entity of a type for a datum. -/
def ofDatum (typeName : String) (datum : Datum) : Except Error (Entity ρ) :=
  match datum.toJson with
  | .error reason => .error (.invalidEntity typeName reason)
  | .ok (.object fields) =>
    match membersOfFields fields with
    | .error nested =>
      .error (.invalidEntity typeName
        ("nested value " ++ nested.compact ++ " cannot be stored as a property"))
    | .ok members => .ok ⟨typeName, members⟩
  | .ok _ => .error (.invalidEntity typeName "expected a struct or map")

end Entity

end Gremlin
