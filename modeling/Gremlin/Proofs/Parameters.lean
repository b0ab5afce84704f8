import Gremlin.Script.Output

/-!
# Names of bound parameters

Binding a value looks its key up among the keys that are bound already and appends it if it is
not there. So a name, once given out, stays the name of its key however many values are bound
later, and the invariant `WellFormed` (each key once, each with the JSON form of its values) is
kept:

* `keyOf_eq_iff`: two values share a key exactly when they are written alike;
* `name_of_within`: the name of a bound value does not change;
* `name_eq_iff`: two bound values share a name exactly when they are written alike;
* `lookup_name`: under the name of a bound value stands its JSON form.
-/

namespace Gremlin

variable {ρ : Type}

/-- Two values are written alike: they have one kind and one payload, where numbers are compared
by their bits and everything that is no literal by its JSON form. -/
def Value.Alike : Value ρ → Value ρ → Prop
  | .null, .null => True
  | .bool a, .bool b => a = b
  | .int a, .int b => a = b
  | .long a, .long b => a = b
  | .float a, .float b => a.bits = b.bits
  | .text a, .text b => a = b
  | v, w => v.kind = w.kind ∧ v.toJson = w.toJson

namespace Parameters

theorem keyOf_eq_iff (v w : Value ρ) : keyOf v = keyOf w ↔ v.Alike w := by
  have hfloat : ∀ x y : Double, x = y ↔ x.bits = y.bits := by
    rintro ⟨x⟩ ⟨y⟩
    simp
  cases v <;> cases w <;>
    simp [keyOf, Value.Alike, Value.kind, Value.toJson, Int32.toInt_inj, Int64.toInt_inj, hfloat]

/-- The JSON form of the values with a key. -/
def Key.json (key : Key) : Json :=
  match key.kind, key.payload with
  | .float, .float x => Json.ofDouble x
  | _, json => json

theorem json_keyOf (v : Value ρ) : (keyOf v).json = v.toJson := by
  cases v <;> simp [keyOf, Key.json, Value.kind, Value.toJson]

/-! ## Names -/

/-- The number behind the `P` of a name can be read back. -/
theorem ofDigitChars_nameOf (n : Nat) :
    Nat.ofDigitChars 10 ((nameOf n).toList.drop 1) 0 = n := by
  simp [nameOf]

theorem nameOf_injective {m n : Nat} (h : nameOf m = nameOf n) : m = n := by
  rw [← ofDigitChars_nameOf m, h, ofDigitChars_nameOf n]

/-- The name that binding a value writes. -/
def name (p : Parameters) (v : Value ρ) : String :=
  nameOf ((p.indexOf? (keyOf v)).getD p.bound.length)

/-- The value is bound. -/
def Holds (p : Parameters) (v : Value ρ) : Prop := ∃ n, p.indexOf? (keyOf v) = some n

/-- Each key is bound once, and to the JSON form of its values. -/
structure WellFormed (p : Parameters) : Prop where
  nodup : (p.bound.map (·.1)).Nodup
  json : ∀ entry ∈ p.bound, entry.2 = entry.1.json

/-- What `p` binds is bound in `q` in the same place. -/
def Within (p q : Parameters) : Prop := p.bound <+: q.bound

theorem Within.refl (p : Parameters) : p.Within p := List.prefix_refl _

theorem Within.trans {p q r : Parameters} (hpq : p.Within q) (hqr : q.Within r) : p.Within r :=
  List.IsPrefix.trans hpq hqr

theorem wellFormed_empty : WellFormed {} := ⟨by simp, by simp⟩

theorem indexOf?_of_within {p q : Parameters} (hpq : p.Within q) {key : Key} {n : Nat}
    (h : p.indexOf? key = some n) : q.indexOf? key = some n := by
  rcases hpq with ⟨more, hq⟩
  unfold indexOf? at h ⊢
  rw [← hq, List.findIdx?_append, h]
  rfl

theorem getElem?_of_indexOf? {p : Parameters} {key : Key} {n : Nat}
    (h : p.indexOf? key = some n) : ∃ json, p.bound[n]? = some (key, json) := by
  rcases List.findIdx?_eq_some_iff_getElem.mp h with ⟨hn, hkey, _⟩
  refine ⟨p.bound[n].2, ?_⟩
  rw [List.getElem?_eq_getElem hn]
  have heq : p.bound[n].1 = key := by simpa using hkey
  rw [← heq]

theorem not_mem_of_indexOf? {p : Parameters} {key : Key} (h : p.indexOf? key = none) :
    key ∉ p.bound.map (·.1) := by
  have hall := List.findIdx?_eq_none_iff.mp h
  rw [List.mem_map]
  rintro ⟨entry, hmem, heq⟩
  have hne := hall entry hmem
  simp [heq] at hne

theorem Holds.of_within {p q : Parameters} (hpq : p.Within q) {v : Value ρ} (h : p.Holds v) :
    q.Holds v := by
  rcases h with ⟨n, hn⟩
  exact ⟨n, indexOf?_of_within hpq hn⟩

/-- A bound value keeps its name. -/
theorem name_of_within {p q : Parameters} (hpq : p.Within q) {v : Value ρ} (h : p.Holds v) :
    q.name v = p.name v := by
  rcases h with ⟨n, hn⟩
  simp [name, hn, indexOf?_of_within hpq hn]

/-! ## Binding -/

theorem bind_of_some {p : Parameters} {v : Value ρ} {n : Nat}
    (h : p.indexOf? (keyOf v) = some n) : p.bind v = (nameOf n, p) := by
  simp [bind, h]

theorem bind_of_none {p : Parameters} {v : Value ρ} (h : p.indexOf? (keyOf v) = none) :
    p.bind v = (nameOf p.bound.length, ⟨p.bound ++ [(keyOf v, v.toJson)]⟩) := by
  simp [bind, h]

theorem bind_fst (p : Parameters) (v : Value ρ) : (p.bind v).1 = p.name v := by
  cases h : p.indexOf? (keyOf v) with
  | none => simp [bind_of_none h, name, h]
  | some n => simp [bind_of_some h, name, h]

theorem within_bind (p : Parameters) (v : Value ρ) : p.Within (p.bind v).2 := by
  cases h : p.indexOf? (keyOf v) with
  | none =>
    rw [bind_of_none h]
    exact List.prefix_append _ _
  | some n =>
    rw [bind_of_some h]
    exact Within.refl p

theorem indexOf?_append_self (p : Parameters) {v : Value ρ}
    (h : p.indexOf? (keyOf v) = none) :
    indexOf? ⟨p.bound ++ [(keyOf v, v.toJson)]⟩ (keyOf v) = some p.bound.length := by
  unfold indexOf? at h ⊢
  rw [List.findIdx?_append, h]
  simp [List.findIdx?_cons]

theorem holds_bind (p : Parameters) (v : Value ρ) : (p.bind v).2.Holds v := by
  cases h : p.indexOf? (keyOf v) with
  | none =>
    rw [bind_of_none h]
    exact ⟨p.bound.length, indexOf?_append_self p h⟩
  | some n =>
    rw [bind_of_some h]
    exact ⟨n, h⟩

/-- The name written when a value is bound is the name it has from then on. -/
theorem name_bind (p : Parameters) (v : Value ρ) : (p.bind v).2.name v = p.name v := by
  cases h : p.indexOf? (keyOf v) with
  | none => simp [bind_of_none h, name, h, indexOf?_append_self p h]
  | some n => simp [bind_of_some h]

/-- Binding a value appends its key, if it is not bound yet. -/
theorem keys_bind (p : Parameters) (v : Value ρ) :
    (p.bind v).2.bound.map (·.1) =
      if keyOf v ∈ p.bound.map (·.1) then p.bound.map (·.1)
      else p.bound.map (·.1) ++ [keyOf v] := by
  cases hindex : p.indexOf? (keyOf v) with
  | some n =>
    obtain ⟨json, hentry⟩ := getElem?_of_indexOf? hindex
    have hmem : keyOf v ∈ p.bound.map (·.1) :=
      List.mem_map.mpr ⟨_, List.mem_of_getElem? hentry, rfl⟩
    rw [if_pos hmem, bind_of_some hindex]
  | none =>
    rw [if_neg (not_mem_of_indexOf? hindex), bind_of_none hindex]
    simp

/-- Binding a value adds no entry but its own. -/
theorem mem_of_mem_bind {p : Parameters} {v : Value ρ} {entry : Key × Json}
    (h : entry ∈ (p.bind v).2.bound) : entry ∈ p.bound ∨ entry = (keyOf v, v.toJson) := by
  cases hindex : p.indexOf? (keyOf v) with
  | some n =>
    rw [bind_of_some hindex] at h
    exact Or.inl h
  | none =>
    rw [bind_of_none hindex] at h
    simpa using h

theorem WellFormed.bind {p : Parameters} (hp : p.WellFormed) (v : Value ρ) :
    (p.bind v).2.WellFormed := by
  constructor
  · rw [keys_bind]
    by_cases hmem : keyOf v ∈ p.bound.map (·.1)
    · rw [if_pos hmem]
      exact hp.nodup
    · rw [if_neg hmem, List.nodup_append]
      refine ⟨hp.nodup, by simp, ?_⟩
      intro key hkey other hother heq
      have hother : other = keyOf v := List.mem_singleton.mp hother
      rw [heq, hother] at hkey
      contradiction
  · intro entry hentry
    rcases mem_of_mem_bind hentry with hold | hnew
    · exact hp.json entry hold
    · rw [hnew, json_keyOf]

/-! ## What the rows say -/

theorem lookup_mapIdx {α : Type} (label : Nat → String) (f : α → Json)
    (hinj : ∀ m n, label m = label n → m = n) (entries : List α) (k : Nat) :
    (entries.mapIdx fun n entry => (label n, f entry)).lookup (label k) =
      entries[k]?.map f := by
  induction entries generalizing label k with
  | nil => simp
  | cons entry rest ih =>
    rw [List.mapIdx_cons, List.lookup_cons]
    cases k with
    | zero => simp
    | succ k =>
      have hdiff : label (k + 1) ≠ label 0 := by
        intro h
        have hk := hinj _ _ h
        omega
      have hne : (label (k + 1) == label 0) = false := by simpa using hdiff
      -- the entries after the first are labelled from one on
      have hshifted : ∀ m n, label (m + 1) = label (n + 1) → m = n := by
        intro m n h
        have hmn := hinj _ _ h
        omega
      have htail := ih (fun n => label (n + 1)) hshifted k
      simpa [hne] using htail

/-- Under the name of a bound value stands its JSON form. -/
theorem lookup_name {p : Parameters} (hp : p.WellFormed) {v : Value ρ} (h : p.Holds v) :
    p.rows.lookup (p.name v) = some v.toJson := by
  rcases h with ⟨n, hn⟩
  rcases getElem?_of_indexOf? hn with ⟨json, hjson⟩
  have hmem : (keyOf v, json) ∈ p.bound := List.mem_of_getElem? hjson
  have hform : json = v.toJson := by
    rw [← json_keyOf v]
    exact hp.json _ hmem
  have hlookup := lookup_mapIdx nameOf (fun entry : Key × Json => entry.2)
    (fun _ _ => nameOf_injective) p.bound n
  simp only [rows, name, hn, Option.getD_some]
  rw [hlookup, hjson]
  simp [hform]

/-- Two bound values share a name exactly when they are written alike. -/
theorem name_eq_iff {p : Parameters} {v w : Value ρ} (hv : p.Holds v) (hw : p.Holds w) :
    p.name v = p.name w ↔ v.Alike w := by
  rcases hv with ⟨m, hm⟩
  rcases hw with ⟨n, hn⟩
  simp only [name, hm, hn, Option.getD_some]
  rw [← keyOf_eq_iff]
  constructor
  · -- one name is one place, and in one place there is one key
    intro h
    have hmn := nameOf_injective h
    rcases getElem?_of_indexOf? hm with ⟨_, hv⟩
    rcases getElem?_of_indexOf? hn with ⟨_, hw⟩
    rw [hmn, hw] at hv
    injection hv with hpair
    exact (congrArg Prod.fst hpair).symm
  · intro h
    rw [h, hn] at hm
    injection hm with hmn
    rw [hmn]

end Parameters

end Gremlin
