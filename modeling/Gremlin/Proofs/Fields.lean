import Gremlin.Json
import Mathlib.Data.List.Induction

/-!
# Fields of JSON objects

Fields are put into an object one after another, so what holds of the fields of an object holds
because setting a field keeps it.

* `Json.exists_ofFields`: the names of an object are in ascending order, and its fields are among
  those that were given;
* `Json.ofFields_of_ascending`: fields in ascending order of their names stay as they are.
-/

namespace Gremlin.Json

/-- The names are in ascending order, each one once. -/
def IsAscending (fields : List (String × Json)) : Prop := (fields.map (·.1)).Pairwise (· < ·)

instance (fields : List (String × Json)) : Decidable (IsAscending fields) :=
  inferInstanceAs (Decidable (List.Pairwise _ _))

section SetField

variable {name : String} {value : Json} {fields : List (String × Json)}

theorem mem_setField {f : String × Json} (h : f ∈ setField name value fields) :
    f = (name, value) ∨ f ∈ fields := by
  induction fields with
  | nil => exact .inl (List.mem_singleton.mp h)
  | cons first rest ih =>
    rw [setField] at h
    split at h
    · exact List.mem_cons.mp h
    · split at h
      · exact (List.mem_cons.mp h).imp_right (List.mem_cons_of_mem first)
      · rcases List.mem_cons.mp h with rfl | hrest
        · exact .inr List.mem_cons_self
        · exact (ih hrest).imp_right (List.mem_cons_of_mem first)

/-- Every name is the one that is set or one that was there. -/
theorem mem_names_setField {n : String} (h : n ∈ (setField name value fields).map (·.1)) :
    n = name ∨ n ∈ fields.map (·.1) := by
  obtain ⟨f, hf, rfl⟩ := List.mem_map.mp h
  rcases mem_setField hf with rfl | hmem
  · exact .inl rfl
  · exact .inr (List.mem_map_of_mem hmem)

theorem IsAscending.setField (h : IsAscending fields) (name : String) (value : Json) :
    IsAscending (setField name value fields) := by
  induction fields with
  | nil => exact List.pairwise_singleton _ _
  | cons first rest ih =>
    obtain ⟨hfirst, hrest⟩ := List.pairwise_cons.mp h
    rw [Json.setField]
    split
    -- the name comes before the first one, is the first one, or belongs among the others
    case isTrue hbefore =>
      refine List.pairwise_cons.mpr ⟨List.forall_mem_cons.mpr ⟨hbefore, ?_⟩, h⟩
      exact fun n hn => String.lt_trans hbefore (hfirst n hn)
    case isFalse hbefore =>
      split
      case isTrue hsame =>
        rw [IsAscending, List.map_cons, hsame]
        exact h
      case isFalse hother =>
        refine List.pairwise_cons.mpr ⟨fun n hn => ?_, ih hrest⟩
        rcases mem_names_setField hn with rfl | hn
        · exact Std.lt_of_le_of_ne (String.not_lt.mp hbefore) (Ne.symm hother)
        · exact hfirst n hn

/-- A name beyond all others goes last. -/
theorem setField_of_beyond (h : ∀ f ∈ fields, f.1 < name) :
    setField name value fields = fields ++ [(name, value)] := by
  induction fields with
  | nil => rfl
  | cons first rest ih =>
    obtain ⟨hfirst, hrest⟩ := List.forall_mem_cons.mp h
    have hother : name ≠ first.1 := fun hsame => String.lt_irrefl name (hsame ▸ hfirst)
    rw [setField, if_neg (String.lt_asymm hfirst), if_neg hother, ih hrest]
    rfl

end SetField

/-- An object has fields that were given, in ascending order of their names. -/
theorem exists_ofFields (fields : List (String × Json)) :
    ∃ sorted, ofFields fields = .object sorted ∧ IsAscending sorted ∧ ∀ f ∈ sorted, f ∈ fields := by
  refine ⟨_, rfl, ?_⟩
  -- the last field is the one that is set last
  induction fields using List.reverseRecOn with
  | nil => exact ⟨.nil, by simp⟩
  | append_singleton before last ih =>
    rw [List.foldl_append, List.foldl_cons, List.foldl_nil]
    refine ⟨ih.1.setField _ _, fun f hf => ?_⟩
    rw [List.mem_append, List.mem_singleton]
    rcases mem_setField hf with rfl | hmem
    · exact .inr rfl
    · exact .inl (ih.2 f hmem)

/-- Fields in ascending order of their names stay as they are. -/
theorem ofFields_of_ascending {fields : List (String × Json)} (h : IsAscending fields) :
    ofFields fields = .object fields := by
  rw [ofFields, object.injEq]
  induction fields using List.reverseRecOn with
  | nil => rfl
  | append_singleton before last ih =>
    rw [IsAscending, List.map_append, List.pairwise_append] at h
    obtain ⟨hbefore, -, hlast⟩ := h
    rw [List.foldl_append, List.foldl_cons, List.foldl_nil, ih hbefore]
    exact setField_of_beyond fun f hf => hlast _ (List.mem_map_of_mem hf) _ List.mem_cons_self

theorem ofFields_pair {first second : String} (h : first < second) (a b : Json) :
    ofFields [(first, a), (second, b)] = .object [(first, a), (second, b)] :=
  ofFields_of_ascending (List.pairwise_pair.mpr h)

end Gremlin.Json
