import Mathlib.Data.List.Induction
import Mathlib.Data.List.Nodup
import Gremlin.Proofs.Resolution

/-!
# Spreading entities

An entity is stored by one property step for each of its members.

1. `Entity.members_built`: which members an entity has, whatever members it was given and however
   often;
2. `Scope.member_eq_ok_iff`, `Scope.value_eq_ok_iff`: what a key and a value become;
3. `Model.Needs`: resolving fails when one of certain lookups does, and with the error of the first
   that does; this composes;
4. `Step.resolve_built`: what storing a new entity and overwriting an element resolve to.
-/

namespace Gremlin

variable {ρ : Type}

/-! ## Members -/

namespace Entity

/-- The entity with members given one after another. -/
def built (typeName : String) (given : List (String × Value ρ)) : Entity ρ :=
  given.foldl (fun e m => e.withMember m.1 m.2) (empty typeName)

/-- The value that was given to a name last. -/
def lastGiven (given : List (String × Value ρ)) (name : String) : Value ρ :=
  given.foldl (fun last m => if m.1 = name then m.2 else last) .null

/-- The names that were given, each once and in the order in which they were given first. -/
def namesOf (given : List (String × Value ρ)) : List String := (given.map (·.1)).eraseDups

/-- The members that are stored: for each name the value given last, unless that is null. -/
def stored (given : List (String × Value ρ)) : List (String × Value ρ) :=
  ((namesOf given).map fun name => (name, lastGiven given name)).filter fun m => !m.2.isNull

variable {given : List (String × Value ρ)}

theorem lastGiven_concat (given : List (String × Value ρ)) (name : String) (v : Value ρ) :
    lastGiven (given ++ [(name, v)]) = fun n => if n = name then v else lastGiven given n := by
  funext n
  simp [lastGiven, List.foldl_append, eq_comm]

theorem namesOf_concat (given : List (String × Value ρ)) (name : String) (v : Value ρ) :
    namesOf (given ++ [(name, v)]) =
      if name ∈ namesOf given then namesOf given else namesOf given ++ [name] := by
  unfold namesOf
  rw [List.map_append, List.eraseDups_append]
  by_cases hmem : name ∈ given.map (·.1)
  · simp [List.removeAll, hmem]
  · simp [List.removeAll, hmem, List.eraseDups_cons]

theorem nodup_namesOf (given : List (String × Value ρ)) : (namesOf given).Nodup := by
  induction given using List.reverseRecOn with
  | nil => exact .nil
  | append_singleton given m ih =>
    rw [namesOf_concat]
    split
    · exact ih
    · rename_i hnew
      rw [List.nodup_append']
      exact ⟨ih, List.nodup_singleton _, List.disjoint_singleton.mpr hnew⟩

/-- Setting a member of a list that has each name once. -/
theorem setMember_map {names : List String} (h : names.Nodup) (values : String → Value ρ)
    (name : String) (v : Value ρ) :
    setMember name v (names.map fun n => (n, values n)) =
      (if name ∈ names then names else names ++ [name]).map fun n =>
        (n, if n = name then v else values n) := by
  induction names with
  | nil => simp [setMember]
  | cons first rest ih =>
    obtain ⟨hfirst, hrest⟩ := List.nodup_cons.mp h
    rw [List.map_cons, setMember]
    by_cases hname : first = name
    · -- the first member is replaced, and no other has the name
      have hothers : rest.map (fun n => (n, if n = name then v else values n)) =
          rest.map fun n => (n, values n) := by
        apply List.map_congr_left
        intro n hn
        have hne : n ≠ name := by
          intro heq
          rw [hname, ← heq] at hfirst
          exact hfirst hn
        rw [if_neg hne]
      simp [hname, hothers]
    · rw [if_neg hname, ih hrest]
      by_cases hmem : name ∈ rest
      · simp [hmem, hname]
      · simp [hmem, hname, Ne.symm hname]

theorem members_built (typeName : String) (given : List (String × Value ρ)) :
    (built typeName given).members =
      (namesOf given).map fun name => (name, lastGiven given name) := by
  induction given using List.reverseRecOn with
  | nil => rfl
  | append_singleton given m ih =>
    obtain ⟨name, v⟩ := m
    have hbuilt : (built typeName (given ++ [(name, v)])).members =
        setMember name v (built typeName given).members := by
      simp [built, withMember]
    rw [hbuilt, ih, setMember_map (nodup_namesOf given), lastGiven_concat, namesOf_concat]

/-- A name keeps its place whatever it is given later, and loses it if that is null. -/
example : (stored [("name", .null), ("age", .int 1), ("name", .text "x"), ("age", .null),
    ("id", .int 2)] : List (String × Value Unit)) = [("name", .text "x"), ("id", .int 2)] := by
  rfl

@[simp] theorem typeName_built (typeName : String) (given : List (String × Value ρ)) :
    (built typeName given).typeName = typeName := by
  induction given using List.reverseRecOn with
  | nil => rfl
  | append_singleton given m ih => simpa [built, withMember] using ih

end Entity

/-! ## What names become -/

namespace Scope

variable {scope : Scope}

/-- The key of a member: the name that it is mapped to; or else the token for the identifier, if it
is named so; or else the key that the model has for it. -/
inductive Keys (scope : Scope) (m : Member) : Value ρ → Prop
  | mapped {name : String} (h : scope.mappings[m]? = some name) : Keys scope m (.key name)
  | identifier (unmapped : scope.mappings[m]? = none) (h : m.name = "id") :
    Keys scope m (.token "T.id")
  | modelled {key : String} (unmapped : scope.mappings[m]? = none) (other : m.name ≠ "id")
    (h : scope.model.property m = .ok key) : Keys scope m (.key key)

/-- What a value becomes: a member its key, a type its label, and any other value itself. -/
inductive Means (scope : Scope) : Value ρ → Value ρ → Prop
  | member {m : Member} {key : Value ρ} (h : scope.Keys m key) : Means scope (.member m) key
  | elementType {typeName label : String} (h : scope.model.label typeName = .ok label) :
    Means scope (.elementType typeName) (.text label)
  | plain {v : Value ρ} (h : ¬ v.IsName) : Means scope v v

/-- The step stores the member of an element of the type. -/
inductive Stores (scope : Scope) (typeName : String) (m : String × Value ρ) : Step ρ → Prop
  | property {key value : Value ρ} (hkey : scope.Keys ⟨typeName, m.1⟩ key)
    (hvalue : scope.Means m.2 value) : Stores scope typeName m ⟨"property", [key, value]⟩

theorem member_eq_ok_iff {m : Member} {key : Value ρ} :
    scope.member m = .ok key ↔ scope.Keys m key := by
  constructor
  · intro h
    unfold member at h
    split at h
    · rename_i name hmapped
      injection h with h
      rw [← h]
      exact .mapped hmapped
    · rename_i hunmapped
      split at h
      · rename_i hid
        injection h with h
        rw [← h]
        exact .identifier hunmapped hid
      · rename_i hother
        obtain ⟨key, hkey, rfl⟩ := map_eq_ok_iff.mp h
        exact .modelled hunmapped hother hkey
  · intro h
    cases h with
    | mapped h => rw [member, h]
    | identifier hunmapped hid =>
      rw [member, hunmapped]
      exact if_pos hid
    | modelled hunmapped hother hkey => simp [member, hunmapped, hother, hkey, Except.map]

theorem value_eq_ok_iff {v w : Value ρ} : scope.value v = .ok w ↔ scope.Means v w := by
  constructor
  · intro h
    cases v with
    | member m => exact .member (member_eq_ok_iff.mp h)
    | elementType t =>
      obtain ⟨label, hlabel, rfl⟩ := map_eq_ok_iff.mp h
      exact .elementType hlabel
    | _ =>
      injection h with h
      rw [← h]
      exact .plain fun hname => hname
  · intro h
    cases h with
    | member h => exact member_eq_ok_iff.mpr h
    | elementType h => exact map_eq_ok_iff.mpr ⟨_, h, rfl⟩
    | plain h => exact value_self h

/-- Resolves a member that is stored. -/
def store (scope : Scope) (typeName : String) (m : String × Value ρ) : Except Error (Step ρ) := do
  let key ← scope.member ⟨typeName, m.1⟩
  let value ← scope.value m.2
  return ⟨"property", [key, value]⟩

theorem store_eq_ok_iff {typeName : String} {m : String × Value ρ} {s : Step ρ} :
    scope.store typeName m = .ok s ↔ scope.Stores typeName m s := by
  simp only [store, bind_eq_ok_iff, member_eq_ok_iff, value_eq_ok_iff]
  constructor
  · rintro ⟨key, hkey, value, hvalue, hs⟩
    injection hs with hs
    rw [← hs]
    exact .property hkey hvalue
  · rintro ⟨hkey, hvalue⟩
    exact ⟨_, hkey, _, hvalue, rfl⟩

/-- Members that are null are passed over. -/
theorem properties_eq_mapM (typeName : String) (members : List (String × Value ρ)) :
    scope.properties typeName members =
      (members.filter fun m => !m.2.isNull).mapM (scope.store typeName) := by
  induction members with
  | nil => rfl
  | cons m rest ih =>
    obtain ⟨name, v⟩ := m
    by_cases hnull : v.isNull = true
    · rw [properties, if_pos hnull, ih, List.filter_cons_of_neg (by simp [hnull])]
    · rw [properties, if_neg hnull, ih, List.filter_cons_of_pos (by simpa using hnull),
        List.mapM_cons, store]
      simp only [bind_assoc, pure_bind]

end Scope

/-! ## Lookups -/

/-- A name to be looked up in a model. -/
inductive Lookup where
  | label (typeName : String)
  | property (m : Member)

namespace Model

def lookup (model : Model) : Lookup → Except Error String
  | .label typeName => model.label typeName
  | .property m => model.property m

/-- The error is the one of the first lookup that fails. -/
def FailsWith (model : Model) (lookups : List Lookup) (e : Error) : Prop :=
  ∃ before lookup after, lookups = before ++ lookup :: after ∧
    (∀ l ∈ before, ∃ name, model.lookup l = .ok name) ∧ model.lookup lookup = .error e

/-- The computation succeeds if all of the lookups do, and fails with the first that fails. -/
def Needs {α : Type} (model : Model) (lookups : List Lookup) (x : Except Error α) : Prop :=
  x.map (fun _ => ()) = (lookups.mapM model.lookup).map fun _ => ()

variable {model : Model} {lookups more : List Lookup} {α β : Type}

theorem Needs.error_iff {x : Except Error α} (h : model.Needs lookups x) {e : Error} :
    x = .error e ↔ model.FailsWith lookups e := by
  unfold FailsWith
  rw [← mapM_eq_error_iff, ← map_eq_error_iff, h, map_eq_error_iff]

theorem needs_nil (a : α) : model.Needs [] (.ok a) := rfl

theorem needs_lookup (l : Lookup) : model.Needs [l] (model.lookup l) := by
  unfold Needs
  rw [List.mapM_cons]
  cases model.lookup l <;> rfl

theorem Needs.bind {x : Except Error α} {f : α → Except Error β} (hx : model.Needs lookups x)
    (hf : ∀ a, model.Needs more (f a)) : model.Needs (lookups ++ more) (x >>= f) := by
  unfold Needs at *
  rw [List.mapM_append]
  cases x with
  | error e =>
    have hfails : lookups.mapM model.lookup = .error e := map_eq_error_iff.mp hx.symm
    rw [hfails]
    rfl
  | ok a =>
    obtain ⟨names, hfound, -⟩ := map_eq_ok_iff.mp hx.symm
    have hrest := hf a
    rw [hfound]
    show (f a).map _ = _
    rw [hrest]
    cases more.mapM model.lookup <;> rfl

theorem Needs.map {x : Except Error α} (hx : model.Needs lookups x) (f : α → β) :
    model.Needs lookups (x.map f) := by
  have hbind := hx.bind fun a => needs_nil (f a)
  rwa [List.append_nil] at hbind

/-- One computation after another over a list. -/
theorem Needs.mapM {f : α → Except Error β} {needed : α → List Lookup} {as : List α}
    (h : ∀ a ∈ as, model.Needs (needed a) (f a)) : model.Needs (as.flatMap needed) (as.mapM f) := by
  induction as with
  | nil => exact needs_nil []
  | cons a rest ih =>
    obtain ⟨hfirst, hrest⟩ := List.forall_mem_cons.mp h
    rw [List.flatMap_cons, List.mapM_cons]
    apply hfirst.bind
    intro b
    exact (ih hrest).map (b :: ·)

end Model

namespace Scope

/-- What is looked up for the key of a member. -/
def keyLookups (scope : Scope) (m : Member) : List Lookup :=
  if m ∈ scope.mappings ∨ m.name = "id" then [] else [.property m]

/-- What is looked up for a value. -/
def valueLookups (scope : Scope) : Value ρ → List Lookup
  | .member m => scope.keyLookups m
  | .elementType typeName => [.label typeName]
  | _ => []

/-- What is looked up to store a member: its key before its value. -/
def storeLookups (scope : Scope) (typeName : String) (m : String × Value ρ) : List Lookup :=
  scope.keyLookups ⟨typeName, m.1⟩ ++ scope.valueLookups m.2

variable (scope : Scope)

theorem needs_member (m : Member) :
    scope.model.Needs (scope.keyLookups m) (scope.member m : Except Error (Value ρ)) := by
  cases hmapped : scope.mappings[m]? with
  | some name =>
    have hmem : m ∈ scope.mappings := by
      rw [Std.TreeMap.mem_iff_isSome_getElem?, hmapped]
      rfl
    rw [keyLookups, if_pos (.inl hmem), member, hmapped]
    exact Model.needs_nil _
  | none =>
    have hmem : m ∉ scope.mappings := by
      rw [Std.TreeMap.mem_iff_isSome_getElem?, hmapped]
      simp
    rw [member, hmapped]
    by_cases hid : m.name = "id"
    · rw [keyLookups, if_pos (.inr hid)]
      simp only [if_pos hid]
      exact Model.needs_nil _
    · rw [keyLookups, if_neg (not_or.mpr ⟨hmem, hid⟩)]
      simp only [if_neg hid]
      exact (Model.needs_lookup (.property m)).map Value.key

theorem needs_value (v : Value ρ) : scope.model.Needs (scope.valueLookups v) (scope.value v) := by
  cases v with
  | member m => exact scope.needs_member m
  | elementType typeName => exact (Model.needs_lookup (.label typeName)).map Value.text
  | _ => exact Model.needs_nil _

theorem needs_store (typeName : String) (m : String × Value ρ) :
    scope.model.Needs (scope.storeLookups typeName m) (scope.store typeName m) := by
  apply (scope.needs_member ⟨typeName, m.1⟩).bind
  intro key
  exact (scope.needs_value m.2).map fun value => (⟨"property", [key, value]⟩ : Step ρ)

/-- Members that are stored, as steps in order. -/
theorem properties_built (typeName : String) (given : List (String × Value ρ)) :
    scope.properties typeName (Entity.built typeName given).members =
      (Entity.stored given).mapM (scope.store typeName) := by
  rw [properties_eq_mapM, Entity.members_built]
  rfl

end Scope

namespace Step

variable (scope : Scope) (typeName : String) (given : List (String × Value ρ))

/-- The members are resolved in order, those alone that are stored. -/
theorem resolve_update :
    (update (Entity.built typeName given)).resolve scope =
      ((Entity.stored given).filter (·.1 ≠ "id")).mapM (scope.store typeName) := by
  have hresolve : (update (Entity.built typeName given)).resolve scope =
      scope.properties (Entity.built typeName given).typeName
        ((Entity.built typeName given).members.filter (·.1 != "id")) := rfl
  rw [hresolve, Entity.typeName_built, Scope.properties_eq_mapM, Entity.members_built,
    List.filter_comm]
  congr 1
  apply List.filter_congr
  intro m _
  rw [Bool.eq_iff_iff, bne_iff_ne, decide_eq_true_iff]

/-- The label is looked up first. -/
theorem resolve_create {name : String} (h : name = "addV" ∨ name = "addE") :
    (⟨name, [.entity (Entity.built typeName given)]⟩ : Step ρ).resolve scope = do
      let label ← scope.model.label typeName
      let properties ← (Entity.stored given).mapM (scope.store typeName)
      return ⟨name, [.text label]⟩ :: properties := by
  have hrequest : (⟨name, [.entity (Entity.built typeName given)]⟩ : Step ρ).request =
      .create name (Entity.built typeName given) := if_pos h
  rw [resolve, hrequest]
  simp only [Entity.typeName_built, Scope.properties_built]

/-- Storing a new entity gives the step with the label of its type and then one property step for
each member that is stored; overwriting an element gives the property steps alone, without the
identifier. Nothing else is looked up, and it is the first lookup to fail that is reported. -/
theorem resolve_built :
    (∀ name ∈ ["addV", "addE"],
      (∀ steps, (⟨name, [.entity (Entity.built typeName given)]⟩ : Step ρ).resolve scope =
          .ok steps ↔
        ∃ label properties, scope.model.label typeName = .ok label ∧
          List.Forall₂ (scope.Stores typeName) (Entity.stored given) properties ∧
          steps = ⟨name, [.text label]⟩ :: properties) ∧
      ∀ e, (⟨name, [.entity (Entity.built typeName given)]⟩ : Step ρ).resolve scope = .error e ↔
        scope.model.FailsWith (.label typeName ::
          (Entity.stored given).flatMap (scope.storeLookups typeName)) e) ∧
    (∀ steps, (update (Entity.built typeName given)).resolve scope = .ok steps ↔
      List.Forall₂ (scope.Stores typeName) ((Entity.stored given).filter (·.1 ≠ "id")) steps) ∧
    ∀ e, (update (Entity.built typeName given)).resolve scope = .error e ↔
      scope.model.FailsWith
        (((Entity.stored given).filter (·.1 ≠ "id")).flatMap (scope.storeLookups typeName)) e := by
  have hstored : ∀ members : List (String × Value ρ), scope.model.Needs
      (members.flatMap (scope.storeLookups typeName)) (members.mapM (scope.store typeName)) := by
    intro members
    apply Model.Needs.mapM
    intro m _
    exact scope.needs_store typeName m
  refine ⟨?_, ?_, ?_⟩
  · intro name hname
    have hcreates : name = "addV" ∨ name = "addE" := by simpa using hname
    rw [resolve_create scope typeName given hcreates]
    constructor
    · intro steps
      simp only [bind_eq_ok_iff, mapM_eq_ok_iff, Scope.store_eq_ok_iff]
      constructor
      · rintro ⟨label, hlabel, properties, hproperties, hsteps⟩
        injection hsteps with hsteps
        exact ⟨label, properties, hlabel, hproperties, hsteps.symm⟩
      · rintro ⟨label, properties, hlabel, hproperties, rfl⟩
        exact ⟨label, hlabel, properties, hproperties, rfl⟩
    · intro e
      have hlabel : scope.model.Needs [.label typeName] (scope.model.label typeName) :=
        Model.needs_lookup (.label typeName)
      apply Model.Needs.error_iff
      apply hlabel.bind
      intro label
      exact (hstored _).map (⟨name, [.text label]⟩ :: ·)
  · intro steps
    simp only [resolve_update, mapM_eq_ok_iff, Scope.store_eq_ok_iff]
  · intro e
    rw [resolve_update]
    exact (hstored _).error_iff

end Step

end Gremlin
