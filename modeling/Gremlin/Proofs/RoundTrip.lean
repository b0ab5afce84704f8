import Gremlin.Entity.Datum
import Gremlin.Proofs.Fields
import Gremlin.Proofs.Results

/-!
# Entities from data and back

A datum whose JSON is an object of scalars becomes an entity, whose JSON is that object again but
for integers that no value holds, which are rounded. JSON can itself be handed over as a datum, and
the JSON of an entity gives the entity once more.

* `Json.IsRegular`: what the JSON of data is like, by `Datum.isRegular_toJson`;
* `Datum.toJson_ofJson`: JSON that is like this, handed over as a datum, stays as it is;
* `Value.toJson_of_ofJson?`: what a stored scalar is given back as;
* `Datum.IsUnfit`: why there is no entity for a datum;
* `Entity.ofDatum_round_trip`: for which data there are entities, what these give back, and what
  goes wrong for others.
-/

namespace Gremlin

variable {ρ : Type}

/-! ## Rounded integers -/

namespace Double

/-- A pattern below that of infinity is the one of a finite number. -/
theorem isFinite_of_lt {pattern : Nat} (h : pattern < 2047 * Nat.pow 2 52) :
    isFinite ⟨UInt64.ofNat pattern⟩ = true := by
  rw [Nat.pow_eq] at h
  have hbits : (UInt64.ofNat pattern).toNat = pattern :=
    UInt64.toNat_ofNat_of_lt' (by rw [UInt64.size]; omega)
  have hexponent : pattern / 2 ^ 52 < 2047 := Nat.div_lt_of_lt_mul (by omega)
  rw [isFinite, exponentField, hbits, bne_iff_ne, Nat.pow_eq, Nat.pow_eq]
  omega

/-- An integer of 64 bits is rounded to a finite number. -/
theorem isFinite_ofNat {n : Nat} (h : n < UInt64.size) : (ofNat n).isFinite = true := by
  rw [ofNat]
  split
  · rfl
  case isFalse hn =>
    simp -zeta only [Nat.pow_eq]
    extract_lets top unit whole rest rounded pattern
    have htop : top < 64 := (Nat.log2_lt hn).mpr h
    have hn : n < 2 ^ (top + 1) := Nat.lt_log2_self
    -- rounding up reaches the next power of two at most
    have hrounded : rounded ≤ 2 ^ 53 := by
      subst rounded
      split
      case isTrue hsmall =>
        have hpower : 2 ^ (top + 1) * 2 ^ (52 - top) = 2 ^ 53 := by
          rw [← Nat.pow_add, show top + 1 + (52 - top) = 53 by omega]
        exact hpower ▸ Nat.mul_le_mul_right _ (Nat.le_of_lt hn)
      case isFalse hlarge =>
        have hpower : unit * 2 ^ 53 = 2 ^ (top + 1) := by
          rw [← Nat.pow_add, show top - 52 + 53 = top + 1 by omega]
        have hwhole : whole < 2 ^ 53 := Nat.div_lt_of_lt_mul (hpower ▸ hn)
        split <;> omega
    have hpattern : pattern < 2047 * 2 ^ 52 := by
      subst pattern
      omega
    rw [Nat.min_eq_left (Nat.le_of_lt hpattern)]
    exact isFinite_of_lt hpattern

end Double

/-! ## JSON of data -/

namespace Json

/-- Neither a list nor a map. -/
def isScalar : Json → Bool
  | .array _ | .object _ => false
  | _ => true

/-- JSON as it is made from data: integers have 64 bits, with or without a sign, numbers are finite,
and the fields of an object are in ascending order of their names. -/
inductive IsRegular : Json → Prop
  | null : IsRegular .null
  | bool (b : Bool) : IsRegular (.bool b)
  | int {n : Int} (hlow : Int64.minValue.toInt ≤ n) (hhigh : n < UInt64.size) : IsRegular (.int n)
  | float {x : Double} (hfinite : x.isFinite = true) : IsRegular (.float x)
  | text (s : String) : IsRegular (.text s)
  | array {items : List Json} (hitems : ∀ item ∈ items, IsRegular item) : IsRegular (.array items)
  | object {fields : List (String × Json)} (hnames : IsAscending fields)
      (hfields : ∀ f ∈ fields, IsRegular f.2) : IsRegular (.object fields)

theorem ofDouble_of_isFinite {x : Double} (h : x.isFinite = true) : ofDouble x = .float x :=
  if_pos h

theorem isRegular_ofDouble (x : Double) : (ofDouble x).IsRegular := by
  rw [ofDouble]
  split
  · exact .float ‹_›
  · exact .null

theorem isRegular_ofFields {fields : List (String × Json)} (h : ∀ f ∈ fields, f.2.IsRegular) :
    (ofFields fields).IsRegular := by
  obtain ⟨sorted, hsorted, hnames, hmem⟩ := exists_ofFields fields
  rw [hsorted]
  exact .object hnames fun f hf => h f (hmem f hf)

/-- What is given back for a scalar: an integer beyond the range with a sign is rounded. -/
def rounded : Json → Json
  | .int n => if Int64.maxValue.toInt < n then .float (Double.ofNat n.natAbs) else .int n
  | json => json

/-- What is given back for the fields of an object. -/
def roundedFields (fields : List (String × Json)) : List (String × Json) :=
  fields.map fun f => (f.1, f.2.rounded)

theorem IsRegular.rounded {json : Json} (h : json.IsRegular) : json.rounded.IsRegular := by
  cases h with
  | @int n hlow hhigh =>
    rw [Json.rounded]
    split
    case isTrue hbeyond =>
      rw [Int64.toInt_maxValue] at hbeyond
      exact .float (Double.isFinite_ofNat (by omega))
    case isFalse => exact .int hlow hhigh
  | null => exact .null
  | bool b => exact .bool b
  | float hfinite => exact .float hfinite
  | text s => exact .text s
  | array hitems => exact .array hitems
  | object hnames hfields => exact .object hnames hfields

theorem isRegular_roundedFields {fields : List (String × Json)} (h : IsRegular (.object fields)) :
    IsRegular (.object (roundedFields fields)) := by
  cases h with
  | object hnames hfields =>
    refine .object ?_ fun f hf => ?_
    · rwa [IsAscending, roundedFields, List.map_map]
    · obtain ⟨g, hg, rfl⟩ := List.mem_map.mp hf
      exact (hfields g hg).rounded

end Json

namespace Datum

mutual

theorem isRegular_toJson : {d : Datum} → {json : Json} → d.toJson = .ok json → json.IsRegular
  | .null, _, h => by
    cases h
    exact .null
  | .bool b, _, h => by
    cases h
    exact .bool b
  | .int n, _, h => by
    cases h
    have hhigh := n.toInt_lt
    exact .int n.minValue_le_toInt (by rw [UInt64.size]; omega)
  | .unsigned n, _, h => by
    cases h
    have hlow : Int64.minValue.toInt ≤ 0 := by decide
    exact .int (by omega) (Int.ofNat_lt.mpr n.toNat_lt)
  | .float x, _, h => by
    cases h
    exact Json.isRegular_ofDouble x
  | .text s, _, h => by
    cases h
    exact .text s
  | .list items, _, h => by
    obtain ⟨made, hmade, hjson⟩ := bind_eq_ok_iff.mp h
    cases hjson
    exact .array (isRegular_toItems hmade)
  | .map entries, _, h => by
    obtain ⟨made, hmade, hjson⟩ := bind_eq_ok_iff.mp h
    cases hjson
    exact Json.isRegular_ofFields (isRegular_toFields hmade)

theorem isRegular_toItems : {items : List Datum} → {made : List Json} →
    toItems items = .ok made → ∀ json ∈ made, json.IsRegular
  | [], _, h => by
    cases h
    simp
  | item :: rest, _, h => by
    obtain ⟨first, hfirst, h⟩ := bind_eq_ok_iff.mp h
    obtain ⟨others, hothers, h⟩ := bind_eq_ok_iff.mp h
    cases h
    exact List.forall_mem_cons.mpr ⟨isRegular_toJson hfirst, isRegular_toItems hothers⟩

theorem isRegular_toFields : {entries : List (Datum × Datum)} → {made : List (String × Json)} →
    toFields entries = .ok made → ∀ f ∈ made, f.2.IsRegular
  | [], _, h => by
    cases h
    simp
  | (key, value) :: rest, _, h => by
    obtain ⟨name, hname, h⟩ := bind_eq_ok_iff.mp h
    obtain ⟨first, hfirst, h⟩ := bind_eq_ok_iff.mp h
    obtain ⟨others, hothers, h⟩ := bind_eq_ok_iff.mp h
    cases h
    exact List.forall_mem_cons.mpr ⟨isRegular_toJson hfirst, isRegular_toFields hothers⟩

end

mutual

/-- JSON as a datum: integers have a sign only if they are negative. -/
def ofJson : Json → Datum
  | .null => .null
  | .bool b => .bool b
  | .int n => if n < 0 then .int (Int64.ofInt n) else .unsigned (UInt64.ofNat n.toNat)
  | .float x => .float x
  | .text s => .text s
  | .array items => .list (ofItems items)
  | .object fields => .map (ofFields fields)

def ofItems : List Json → List Datum
  | [] => []
  | item :: rest => ofJson item :: ofItems rest

def ofFields : List (String × Json) → List (Datum × Datum)
  | [] => []
  | (name, json) :: rest => (.text name, ofJson json) :: ofFields rest

end

/-- An integer of a datum is handed over as it is. -/
theorem toJson_ofJson_int {n : Int} (hlow : Int64.minValue.toInt ≤ n) (hhigh : n < UInt64.size) :
    (ofJson (.int n)).toJson = .ok (.int n) := by
  rw [ofJson]
  split
  case isTrue hnegative =>
    rw [toJson, Int64.toInt_ofInt_of_le hlow (by omega)]
  case isFalse hnonnegative =>
    have hsize : n.toNat < UInt64.size := by omega
    rw [toJson, UInt64.toNat_ofNat_of_lt' hsize, Int.toNat_of_nonneg (Int.not_lt.mp hnonnegative)]

mutual

/-- JSON as it is made from data, handed over as a datum, stays as it is. -/
theorem toJson_ofJson : {json : Json} → json.IsRegular → (ofJson json).toJson = .ok json
  | .null, _ => rfl
  | .bool _, _ => rfl
  | .int _, .int hlow hhigh => toJson_ofJson_int hlow hhigh
  | .float x, .float hfinite => by rw [ofJson, toJson, Json.ofDouble_of_isFinite hfinite]
  | .text _, _ => rfl
  | .array items, .array hitems => by
    rw [ofJson, toJson, toItems_ofItems hitems]
    rfl
  | .object fields, .object hnames hfields => by
    rw [ofJson, toJson, toFields_ofFields hfields, ← Json.ofFields_of_ascending hnames]
    rfl

theorem toItems_ofItems : {items : List Json} → (∀ item ∈ items, item.IsRegular) →
    toItems (ofItems items) = .ok items
  | [], _ => rfl
  | item :: rest, h => by
    obtain ⟨hitem, hrest⟩ := List.forall_mem_cons.mp h
    rw [ofItems, toItems, toJson_ofJson hitem, toItems_ofItems hrest]
    rfl

theorem toFields_ofFields : {fields : List (String × Json)} → (∀ f ∈ fields, f.2.IsRegular) →
    toFields (ofFields fields) = .ok fields
  | [], _ => rfl
  | (name, json) :: rest, h => by
    obtain ⟨hjson, hrest⟩ := List.forall_mem_cons.mp h
    rw [ofFields, toFields, toJson_ofJson hjson, toFields_ofFields hrest]
    rfl

end

end Datum

/-! ## Stored scalars -/

namespace Value

theorem isSome_ofJson? (json : Json) :
    (ofJson? json : Option (Value ρ)).isSome = json.isScalar := by
  cases json with
  | int n =>
    rw [ofJson?]
    split <;> rfl
  | _ => rfl

/-- A value for a scalar is given back as the scalar, rounded if need be. -/
theorem toJson_of_ofJson? {json : Json} (h : json.IsRegular) {v : Value ρ}
    (hv : ofJson? json = some v) : v.toJson = json.rounded := by
  cases h with
  | @int n hlow hhigh =>
    rw [ofJson?] at hv
    rw [Json.rounded]
    split at hv
    case isTrue hfits =>
      -- the integer is kept by the value
      obtain ⟨-, hupper⟩ := hfits
      cases hv
      have hback : (Int64.ofInt n).toInt = n := by
        rw [Int64.toInt_maxValue] at hupper
        exact Int64.toInt_ofInt_of_le hlow (by omega)
      rw [if_neg (Int.not_lt.mpr hupper), toJson, hback]
    case isFalse hbeyond =>
      -- no integer of a datum is too small, so it is too large
      cases hv
      have hupper : Int64.maxValue.toInt < n := by omega
      have hpositive : 0 < n := Int.lt_trans (by decide) hupper
      have hfinite : (Double.ofNat n.natAbs).isFinite = true := Double.isFinite_ofNat (by omega)
      rw [if_pos hupper, toJson, Json.ofDouble_of_isFinite hfinite]
  | float hfinite =>
    cases hv
    rw [toJson, Json.ofDouble_of_isFinite hfinite]
    rfl
  | array _ => cases hv
  | object _ _ => cases hv
  | _ =>
    cases hv
    rfl

/-- What is given back for a scalar is stored as the same value. -/
theorem ofJson?_rounded (json : Json) :
    (ofJson? json.rounded : Option (Value ρ)) = ofJson? json := by
  cases json with
  | int n =>
    rw [Json.rounded]
    split
    case isTrue hbeyond => rw [ofJson?, ofJson?, if_neg (by omega)]
    case isFalse => rfl
  | _ => rfl

end Value

namespace Entity

/-- The member for a field. -/
def memberOfField (field : String × Json) : Except Json (String × Value ρ) :=
  match Value.ofJson? field.2 with
  | none => .error field.2
  | some value => .ok (field.1, value)

theorem membersOfFields_eq_mapM (fields : List (String × Json)) :
    (membersOfFields fields : Except Json (List (String × Value ρ))) =
      fields.mapM memberOfField := by
  induction fields with
  | nil => rfl
  | cons field rest ih =>
    rw [membersOfFields, List.mapM_cons, memberOfField, ih]
    cases Value.ofJson? (ρ := ρ) field.2 <;> rfl

theorem memberOfField_eq_ok_iff {field : String × Json} {m : String × Value ρ} :
    memberOfField field = .ok m ↔ m.1 = field.1 ∧ Value.ofJson? field.2 = some m.2 := by
  rw [memberOfField]
  cases Value.ofJson? (ρ := ρ) field.2 with
  | none => simp
  | some v => simp [Prod.ext_iff, eq_comm]

theorem memberOfField_eq_error_iff {field : String × Json} {json : Json} :
    (memberOfField field : Except Json (String × Value ρ)) = .error json ↔
      json = field.2 ∧ field.2.isScalar = false := by
  rw [memberOfField, ← Value.isSome_ofJson? (ρ := ρ)]
  cases Value.ofJson? (ρ := ρ) field.2 <;> simp [eq_comm]

theorem exists_memberOfField_iff {field : String × Json} :
    (∃ m : String × Value ρ, memberOfField field = .ok m) ↔ field.2.isScalar = true := by
  rw [memberOfField, ← Value.isSome_ofJson? (ρ := ρ)]
  cases Value.ofJson? (ρ := ρ) field.2 <;> simp

/-- There are members for the fields of an object exactly if all are scalars. -/
theorem exists_members_iff {fields : List (String × Json)} :
    (∃ members : List (String × Value ρ), membersOfFields fields = .ok members) ↔
      ∀ f ∈ fields, f.2.isScalar = true := by
  rw [membersOfFields_eq_mapM]
  constructor
  · rintro ⟨members, hmembers⟩ f hf
    obtain ⟨m, -, hm⟩ := exists_of_mem_left (mapM_eq_ok_iff.mp hmembers) hf
    exact exists_memberOfField_iff.mp ⟨m, hm⟩
  · intro hscalars
    cases hmembers : fields.mapM (memberOfField (ρ := ρ)) with
    | ok members => exact ⟨members, rfl⟩
    | error json =>
      obtain ⟨f, hf, hfail⟩ := exists_of_mapM_eq_error hmembers
      have hscalar := hscalars f hf
      rw [(memberOfField_eq_error_iff.mp hfail).2] at hscalar
      contradiction

/-- The first field that is no scalar is the one that is told. -/
theorem membersOfFields_eq_error_iff {fields : List (String × Json)} {json : Json} :
    (membersOfFields fields : Except Json (List (String × Value ρ))) = .error json ↔
      ∃ before name after, fields = before ++ (name, json) :: after ∧
        (∀ f ∈ before, f.2.isScalar = true) ∧ json.isScalar = false := by
  rw [membersOfFields_eq_mapM, mapM_eq_error_iff]
  simp only [exists_memberOfField_iff, memberOfField_eq_error_iff]
  constructor
  · rintro ⟨before, ⟨name, nested⟩, after, hsplit, hbefore, rfl, hnested⟩
    exact ⟨before, name, after, hsplit, hbefore, hnested⟩
  · rintro ⟨before, name, after, hsplit, hbefore, hnested⟩
    exact ⟨before, (name, json), after, hsplit, hbefore, rfl, hnested⟩

section Members

variable {fields : List (String × Json)} {members : List (String × Value ρ)}

/-- Members have the names of the fields and are given back as these, rounded if need be. -/
theorem memberFields_of_membersOfFields (hregular : ∀ f ∈ fields, f.2.IsRegular)
    (h : membersOfFields fields = .ok members) :
    members.map (·.1) = fields.map (·.1) ∧
      memberFields members = Json.roundedFields fields := by
  rw [membersOfFields_eq_mapM, mapM_eq_ok_iff] at h
  induction h with
  | nil => exact ⟨rfl, rfl⟩
  | @cons field member rest others hfirst _ ih =>
    obtain ⟨hfield, hrest⟩ := List.forall_mem_cons.mp hregular
    obtain ⟨hname, hvalue⟩ := memberOfField_eq_ok_iff.mp hfirst
    obtain ⟨hnames, hfields⟩ := ih hrest
    rw [List.map_cons, List.map_cons, memberFields, hname, hnames, hfields,
      Value.toJson_of_ofJson? hfield hvalue]
    exact ⟨rfl, rfl⟩

theorem toJson_of_membersOfFields (hobject : Json.IsRegular (.object fields))
    (h : membersOfFields fields = .ok members) (typeName : String) :
    (Entity.mk typeName members).toJson = .object (Json.roundedFields fields) := by
  cases hobject with
  | object hnames hregular =>
    cases Json.isRegular_roundedFields (.object hnames hregular) with
    | object hnames' _ =>
      obtain ⟨-, hfields⟩ := memberFields_of_membersOfFields hregular h
      rw [toJson, hfields, Json.ofFields_of_ascending hnames']

/-- What is given back for the fields makes the same members. -/
theorem membersOfFields_rounded (h : membersOfFields fields = .ok members) :
    membersOfFields (Json.roundedFields fields) = .ok members := by
  rw [membersOfFields_eq_mapM, mapM_eq_ok_iff] at h ⊢
  rw [Json.roundedFields, List.forall₂_map_left_iff]
  apply h.imp
  intro f m hm
  rw [memberOfField_eq_ok_iff] at hm ⊢
  rwa [Value.ofJson?_rounded]

end Members

end Entity

/-! ## Round trips -/

/-- Why there is no entity for a datum. -/
inductive Datum.IsUnfit (d : Datum) : (reason : String) → Prop
  /-- The datum has no JSON. -/
  | failed {reason : String} (h : d.toJson = .error reason) : IsUnfit d reason
  /-- The JSON is no object. -/
  | noObject {json : Json} (h : d.toJson = .ok json) (hother : ∀ fields, json ≠ .object fields) :
    IsUnfit d "expected a struct or map"
  /-- A field is a list or a map, and those with names before its own are scalars. -/
  | nested {before after : List (String × Json)} {name : String} {json : Json}
    (h : d.toJson = .ok (.object (before ++ (name, json) :: after)))
    (hnames : Json.IsAscending (before ++ (name, json) :: after))
    (hbefore : ∀ f ∈ before, f.2.isScalar = true) (hnested : json.isScalar = false) :
    IsUnfit d ("nested value " ++ json.compact ++ " cannot be stored as a property")

namespace Entity

variable {typeName : String} {d : Datum}

theorem ofDatum_eq_ok_iff {e : Entity ρ} :
    ofDatum typeName d = .ok e ↔
      e.typeName = typeName ∧
        ∃ fields, d.toJson = .ok (.object fields) ∧ membersOfFields fields = .ok e.members := by
  obtain ⟨name, members⟩ := e
  rw [ofDatum]
  split
  case h_1 reason hjson => simp [hjson]
  case h_2 fields hjson =>
    rw [hjson]
    cases hmembers : membersOfFields (ρ := ρ) fields with
    | error json => simp [hmembers]
    | ok made => simp [hmembers, eq_comm]
  case h_3 json hother hjson =>
    simp only [hjson, reduceCtorEq, Except.ok.injEq, false_iff, not_and, not_exists]
    rintro - fields rfl
    exact absurd rfl (hother fields)

theorem ofDatum_of_isUnfit {reason : String} (h : d.IsUnfit reason) :
    (ofDatum typeName d : Except Error (Entity ρ)) = .error (.invalidEntity typeName reason) := by
  cases h with
  | failed hjson => rw [ofDatum, hjson]
  | @noObject json hjson hother =>
    rw [ofDatum, hjson]
    cases json with
    | object fields => exact absurd rfl (hother fields)
    | _ => rfl
  | @nested before after name json hjson _ hbefore hnested =>
    have hmembers := (membersOfFields_eq_error_iff (ρ := ρ)).mpr
      ⟨before, name, after, rfl, hbefore, hnested⟩
    rw [ofDatum, hjson]
    simp only [hmembers]

theorem ofDatum_eq_error_iff {error : Error} :
    (ofDatum typeName d : Except Error (Entity ρ)) = .error error ↔
      ∃ reason, error = .invalidEntity typeName reason ∧ d.IsUnfit reason := by
  constructor
  · intro h
    rw [ofDatum] at h
    split at h
    case h_1 reason hjson =>
      cases h
      exact ⟨reason, rfl, .failed hjson⟩
    case h_2 fields hjson =>
      split at h
      case h_1 json hmembers =>
        cases h
        obtain ⟨before, name, after, rfl, hbefore, hnested⟩ :=
          membersOfFields_eq_error_iff.mp hmembers
        cases Datum.isRegular_toJson hjson with
        | object hnames _ => exact ⟨_, rfl, .nested hjson hnames hbefore hnested⟩
      case h_2 members hmembers => cases h
    case h_3 json hother hjson =>
      cases h
      exact ⟨_, rfl, .noObject hjson hother⟩
  · rintro ⟨_, rfl, hunfit⟩
    exact ofDatum_of_isUnfit hunfit

/-- For all type names and data: there is an entity for a datum exactly if the JSON of the datum is
an object of scalars. The members of an entity made from a datum are in ascending order of their
names, it gives back the JSON of the datum with the integers rounded that are beyond the range with
a sign, and what it gives back, handed over as a datum, makes the same entity. For another datum
the reason is that it has no JSON, that the JSON is no object, or the first field that is a list or
a map. -/
theorem ofDatum_round_trip (typeName : String) (d : Datum) :
    ((∃ e : Entity ρ, ofDatum typeName d = .ok e) ↔
      ∃ fields, d.toJson = .ok (.object fields) ∧ ∀ f ∈ fields, f.2.isScalar = true) ∧
    (∀ e : Entity ρ, ofDatum typeName d = .ok e →
      e.typeName = typeName ∧ (e.members.map (·.1)).Pairwise (· < ·) ∧
      (∃ fields, d.toJson = .ok (.object fields) ∧
        e.toJson = .object (Json.roundedFields fields)) ∧
      ofDatum typeName (Datum.ofJson e.toJson) = .ok e) ∧
    ∀ error : Error, (ofDatum typeName d : Except Error (Entity ρ)) = .error error ↔
      ∃ reason, error = .invalidEntity typeName reason ∧ d.IsUnfit reason := by
  refine ⟨?_, ?_, fun error => ofDatum_eq_error_iff⟩
  · constructor
    · rintro ⟨e, he⟩
      obtain ⟨-, fields, hjson, hmembers⟩ := ofDatum_eq_ok_iff.mp he
      exact ⟨fields, hjson, exists_members_iff.mp ⟨_, hmembers⟩⟩
    · rintro ⟨fields, hjson, hscalars⟩
      obtain ⟨members, hmembers⟩ := exists_members_iff.mpr hscalars
      exact ⟨⟨typeName, members⟩, ofDatum_eq_ok_iff.mpr ⟨rfl, fields, hjson, hmembers⟩⟩
  · intro e he
    obtain ⟨htype, fields, hjson, hmembers⟩ := ofDatum_eq_ok_iff.mp he
    have hobject := Datum.isRegular_toJson hjson
    have hback : e.toJson = .object (Json.roundedFields fields) := by
      obtain ⟨name, members⟩ := e
      exact toJson_of_membersOfFields hobject hmembers name
    refine ⟨htype, ?_, ⟨fields, hjson, hback⟩, ?_⟩
    · cases hobject with
      | object hnames hregular =>
        rw [(memberFields_of_membersOfFields hregular hmembers).1]
        exact hnames
    · -- what is given back is regular, so it stays as it is when it is handed over
      have hagain := Datum.toJson_ofJson (Json.isRegular_roundedFields hobject)
      rw [hback]
      exact ofDatum_eq_ok_iff.mpr ⟨htype, _, hagain, membersOfFields_rounded hmembers⟩

/-- A record with an integer beyond the range with a sign, a name that is given twice, and a key
that is no text. -/
def parcel : Datum :=
  .map [(.text "weight", .unsigned 9223372036854775808), (.text "name", .text "a"),
    (.text "name", .null), (.int 7, .float ⟨9223372036854775808⟩)]

/-- A record with two lists. -/
def bag : Datum := .map [(.text "items", .list [.int 1]), (.text "boxes", .list [])]

/-- The record with the integer becomes an entity that makes itself again, and the one with the
lists is refused for the first of them. -/
theorem ofDatum_round_trip_parcel :
    (∃ e : Entity Unit, ofDatum "Parcel" parcel = .ok e ∧
      e.members.map (·.1) = ["7", "name", "weight"] ∧
      (e.members.map (·.1)).Pairwise (· < ·) ∧
      ofDatum "Parcel" (Datum.ofJson e.toJson) = .ok e) ∧
    (ofDatum "Bag" bag : Except Error (Entity Unit)) =
      .error (.invalidEntity "Bag" "nested value [] cannot be stored as a property") := by
  constructor
  · obtain ⟨-, hback, -⟩ := ofDatum_round_trip (ρ := Unit) "Parcel" parcel
    have hparcel : (ofDatum "Parcel" parcel : Except Error (Entity Unit)) =
        .ok ⟨"Parcel", [("7", .float ⟨9223372036854775808⟩), ("name", .null),
          ("weight", .float (Double.ofNat 9223372036854775808))]⟩ := rfl
    obtain ⟨-, hnames, -, hagain⟩ := hback _ hparcel
    exact ⟨_, hparcel, rfl, hnames, hagain⟩
  · obtain ⟨-, -, herror⟩ := ofDatum_round_trip (ρ := Unit) "Bag" bag
    refine (herror _).mpr ⟨_, rfl, ?_⟩
    have hjson : bag.toJson =
        .ok (.object ([] ++ ("boxes", .array []) :: [("items", .array [.int 1])])) := rfl
    exact .nested hjson (by decide) (by simp) rfl

end Entity

end Gremlin
