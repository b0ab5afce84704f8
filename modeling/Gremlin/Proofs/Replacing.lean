import Gremlin.Proofs.Prefix
import Gremlin.Proofs.Sources
import Gremlin.Proofs.Spreading

/-!
# Replacing elements

Replacing the vertex or the edge of an entity finds it by the identifier of the entity, keeps it if
it is of the type, and overwrites its properties.

1. `Entity.id?_built`: the identifier of an entity is the value given to `id` last, unless that is
   null;
2. `Source.Opening.Replaces.steps_eq`: an entity without an identifier cannot be replaced, and for
   any other there are three steps;
3. `Scope.resolve_replacement`: what these resolve to, in any scope; none of it writes the
   identifier (`Scope.Replaces.key_ne`);
4. `Sources.replace_keeps_identifier`: what that means for the sources of a run.
-/

namespace Gremlin

variable {ρ : Type}

/-! ## Identifiers -/

namespace Entity

/-- The values that were given to a name, in order. -/
def givenTo (given : List (String × Value ρ)) (name : String) : List (Value ρ) :=
  (given.filter (·.1 = name)).map (·.2)

variable {given : List (String × Value ρ)}

theorem getLast?_givenTo (given : List (String × Value ρ)) (name : String) :
    (givenTo given name).getLast? =
      if name ∈ namesOf given then some (lastGiven given name) else none := by
  induction given using List.reverseRecOn with
  | nil => rfl
  | append_singleton given m ih =>
    obtain ⟨n, v⟩ := m
    rw [lastGiven_concat]
    by_cases hname : n = name
    · subst hname
      have hgiven : givenTo (given ++ [(n, v)]) n = givenTo given n ++ [v] := by
        simp [givenTo]
      have hmem : n ∈ namesOf (given ++ [(n, v)]) := by
        simp [namesOf]
      simp only [hgiven, List.getLast?_concat, if_pos hmem, if_true]
    · have hgiven : givenTo (given ++ [(n, v)]) name = givenTo given name := by
        simp [givenTo, hname]
      have hmem : name ∈ namesOf (given ++ [(n, v)]) ↔ name ∈ namesOf given := by
        simp [namesOf, Ne.symm hname]
      simp only [hgiven, ih, hmem, if_neg (Ne.symm hname)]

/-- The identifier is the value given to it last, unless that is null. -/
theorem id?_built (typeName : String) (given : List (String × Value ρ)) :
    (built typeName given).id? = (givenTo given "id").getLast?.filter (!·.isNull) := by
  have hfound : (built typeName given).id? =
      ((namesOf given).find? fun n => n == "id" && !(lastGiven given n).isNull).map
        (lastGiven given) := by
    rw [id?, members_built, List.find?_map, Option.map_map]
    rfl
  rw [hfound, getLast?_givenTo]
  cases hfind : (namesOf given).find? fun n => n == "id" && !(lastGiven given n).isNull with
  | some n =>
    have hname := List.find?_some hfind
    have hmem := List.mem_of_find?_eq_some hfind
    rw [Bool.and_eq_true, beq_iff_eq] at hname
    obtain ⟨rfl, hnull⟩ := hname
    rw [if_pos hmem, Option.filter_some, if_pos hnull, Option.map_some]
  | none =>
    have hnone := List.find?_eq_none.mp hfind
    split
    · rename_i hmem
      have hnull := hnone "id" hmem
      rw [Option.filter_some, if_neg (by simpa using hnull), Option.map_none]
    · rfl

end Entity

/-! ## Resolving a replacement -/

/-- The steps that find an element by its identifier, keep it if it is of the type of an entity, and
overwrite it with the entity. -/
def Step.replacing (name : String) (id : Value ρ) (e : Entity ρ) : List (Step ρ) :=
  [⟨name, [id]⟩, .ofType e.typeName, .update e]

namespace Scope

variable {scope : Scope} {name typeName : String} {id : Value ρ} {given : List (String × Value ρ)}

/-- Steps that find an element by its identifier, keep it if it has a label of the type, and
overwrite the members of an entity except for the identifier. -/
inductive Replaces (scope : Scope) (name typeName : String) (id : Value ρ)
    (given : List (String × Value ρ)) : List (Step ρ) → Prop
  | intro {found : Value ρ} {labels : List String} {properties : List (Step ρ)}
    (hid : scope.Means id found) (hlabels : scope.model.derivedLabels typeName = .ok labels)
    (hproperties : List.Forall₂ (scope.Stores typeName)
      ((Entity.stored given).filter (·.1 ≠ "id")) properties) :
    Replaces scope name typeName id given
      (⟨name, [found]⟩ :: ((if labels = [] then [] else [Step.hasLabel labels]) ++ properties))

/-- Whatever the identifier is, finding an element by it is a plain step. -/
theorem resolve_byId (h : name = "V" ∨ name = "E") {resolved : List (Step ρ)} :
    (⟨name, [id]⟩ : Step ρ).resolve scope = .ok resolved ↔
      ∃ found, scope.Means id found ∧ resolved = [⟨name, [found]⟩] := by
  have hrequest : (⟨name, [id]⟩ : Step ρ).request = .plain := by
    rcases h with rfl | rfl <;> cases id <;> rfl
  have hresolve : (⟨name, [id]⟩ : Step ρ).resolve scope =
      (scope.value id).map fun found => [⟨name, [found]⟩] := by
    rw [Step.resolve, hrequest]
    cases hvalue : scope.value id <;> simp only [values, hvalue] <;> rfl
  simp only [hresolve, map_eq_ok_iff, value_eq_ok_iff, @eq_comm _ resolved]

theorem resolve_ofType {resolved : List (Step ρ)} :
    (Step.ofType typeName : Step ρ).resolve scope = .ok resolved ↔
      ∃ labels, scope.model.derivedLabels typeName = .ok labels ∧
        resolved = if labels = [] then [] else [Step.hasLabel labels] := by
  have hresolve : (Step.ofType typeName : Step ρ).resolve scope =
      (scope.model.derivedLabels typeName).map fun labels =>
        if labels.isEmpty then [] else [Step.hasLabel labels] := rfl
  simp only [hresolve, map_eq_ok_iff, List.isEmpty_iff, @eq_comm _ resolved]

/-- What the three steps of a replacement resolve to, one after another. -/
theorem resolve_replacement (h : name = "V" ∨ name = "E") {resolved : List (Step ρ)} :
    ((Step.replacing name id (Entity.built typeName given)).mapM (Step.resolve scope)).map
        List.flatten = .ok resolved ↔
      scope.Replaces name typeName id given resolved := by
  rw [map_eq_ok_iff, Step.replacing, Entity.typeName_built]
  simp only [mapM_eq_ok_iff, List.forall₂_cons_left_iff, List.forall₂_nil_left_iff,
    resolve_byId h, resolve_ofType, Step.resolve_update, store_eq_ok_iff]
  constructor
  · rintro ⟨_, ⟨_, _, ⟨found, hid, rfl⟩, ⟨_, _, ⟨labels, hlabels, rfl⟩,
      ⟨properties, _, hproperties, rfl, rfl⟩, rfl⟩, rfl⟩, rfl⟩
    have hflatten : [[⟨name, [found]⟩], if labels = [] then [] else [Step.hasLabel labels],
        properties].flatten =
          ⟨name, [found]⟩ ::
            ((if labels = [] then [] else [Step.hasLabel labels]) ++ properties) := by
      simp
    rw [hflatten]
    exact .intro hid hlabels hproperties
  · rintro ⟨hid, hlabels, hproperties⟩
    refine ⟨_, ⟨_, _, ⟨_, hid, rfl⟩, ⟨_, _, ⟨_, hlabels, rfl⟩, ⟨_, _, hproperties, rfl, rfl⟩, rfl⟩,
      rfl⟩, ?_⟩
    simp

/-- No member but the identifier is stored as the identifier of an element, mapped or not. -/
theorem Replaces.key_ne {resolved : List (Step ρ)} (h : name = "V" ∨ name = "E")
    (hreplaces : scope.Replaces name typeName id given resolved) {key value : Value ρ}
    (hmem : ⟨"property", [key, value]⟩ ∈ resolved) : key ≠ .token idToken := by
  obtain ⟨hid, hlabels, hproperties⟩ := hreplaces
  rw [List.mem_cons, List.mem_append] at hmem
  rcases hmem with hfind | hfilter | hstored
  · rcases h with rfl | rfl <;> simp at hfind
  · split at hfilter
    · contradiction
    · simp [Step.hasLabel, Step.texts] at hfilter
  · -- the token is the key of a member named so alone, and there is none
    obtain ⟨m, hm, hstores⟩ := exists_of_mem_right hproperties hstored
    have hname : m.1 ≠ "id" := by
      simpa using List.of_mem_filter hm
    cases hstores with
    | property hkey hvalue =>
      cases hkey with
      | mapped => simp
      | identifier _ hname' => exact absurd hname' hname
      | modelled => simp

end Scope

/-! ## Replacing from a source -/

namespace Source

/-- The opening replaces the element of an entity, which the named step finds. -/
inductive Opening.Replaces (e : Entity Pipeline) : Opening → String → Prop
  | vertex : Replaces e (.replaceV e) "V"
  | edge : Replaces e (.replaceE e) "E"

namespace Opening.Replaces

variable {opening : Opening} {name typeName : String} {given : List (String × Value Pipeline)}

theorem name_eq {e : Entity Pipeline} (h : opening.Replaces e name) : name = "V" ∨ name = "E" := by
  cases h with
  | vertex => exact .inl rfl
  | edge => exact .inr rfl

theorem steps_eq {e : Entity Pipeline} (h : opening.Replaces e name) :
    opening.steps =
      match e.id? with
      | some id => .ok (Step.replacing name id e)
      | none => .error (.missingIdentifier e.typeName) := by
  cases h <;> rfl

theorem steps_of_missing (h : opening.Replaces (Entity.built typeName given) name)
    (hmissing : ∀ id, (Entity.givenTo given "id").getLast? = some id → id.isNull = true) :
    opening.steps = .error (.missingIdentifier typeName) := by
  have hid : (Entity.built typeName given).id? = none := by
    rw [Entity.id?_built, Option.filter_eq_none_iff]
    intro id hlast
    simpa using hmissing id hlast
  rw [h.steps_eq, hid, Entity.typeName_built]

theorem steps_of_given (h : opening.Replaces (Entity.built typeName given) name)
    {id : Value Pipeline} (hlast : (Entity.givenTo given "id").getLast? = some id)
    (hid : id.isNull = false) :
    opening.steps = .ok (Step.replacing name id (Entity.built typeName given)) := by
  rw [h.steps_eq, Entity.id?_built, hlast, Option.filter_some, if_pos (by simpa using hid)]

end Opening.Replaces

/-- The start traversal of a source: the one that it keeps, or else the one that it would build. -/
def startOn (s : Source) (supply : Supply) : Traversal Pipeline :=
  s.started.getD (s.prepared supply).1

/-- An opening that can be made appends its steps to the start traversal, which the source keeps. -/
theorem exists_begin_eq {s : Source} {opening : Opening} {steps : List (Step Pipeline)}
    (h : opening.steps = .ok steps) (ledger : Ledger) :
    ∃ t ledger' list,
      s.begin opening ledger =
        (.ok (t, { s with started := some (s.startOn ledger.supply) }), ledger') ∧
      t = { s.startOn ledger.supply with steps := list } ∧
      list.toList = (s.startOn ledger.supply).steps.toList ++ steps := by
  cases hstarted : s.started with
  | some start =>
    have hstart : s.startOn ledger.supply = start := by
      rw [startOn, hstarted, Option.getD_some]
    -- keeping it again leaves the source as it is
    have hkeeps : { s with started := some start } = s := by
      rw [← hstarted]
    obtain ⟨list, hlist, hadd⟩ := start.exists_addSteps_eq steps ledger.supply
    rw [hstart, hkeeps, begin_of_started ledger h hstarted, hadd]
    exact ⟨_, _, list, rfl, rfl, hlist⟩
  | none =>
    have hstart : s.startOn ledger.supply = (s.prepared ledger.supply).1 := by
      rw [startOn, hstarted, Option.getD_none]
    obtain ⟨list, hlist, hadd⟩ :=
      (s.prepared ledger.supply).1.exists_addSteps_eq steps (s.prepared ledger.supply).2
    rw [hstart, begin_of_dormant ledger h hstarted, hadd]
    exact ⟨_, _, list, rfl, rfl, hlist⟩

end Source

namespace Sources

open Source

variable (S : Sources) {number : Nat} {s : Source}

/-- An opening that cannot be made changes nothing, the source that it is asked of included. -/
theorem perform_start_of_error (hs : S.all[number]? = some s) {opening : Opening} {e : Error}
    (h : opening.steps = .error e) : S.perform (.start number opening) = (.error e, S) := by
  simp only [perform, hs, begin_of_error S.ledger h]

theorem exists_perform_start_eq (hs : S.all[number]? = some s) {opening : Opening}
    {steps : List (Step Pipeline)} (h : opening.steps = .ok steps) :
    ∃ t list ledger,
      S.perform (.start number opening) =
        (.ok (some t),
          ⟨S.all.set number { s with started := some (s.startOn S.ledger.supply) }, ledger⟩) ∧
      t = { s.startOn S.ledger.supply with steps := list } ∧
      list.toList = (s.startOn S.ledger.supply).steps.toList ++ steps := by
  obtain ⟨t, ledger, list, hbegin, ht, hlist⟩ := exists_begin_eq (s := s) h S.ledger
  refine ⟨t, list, ledger, ?_, ht, hlist⟩
  simp only [perform, hs, hbegin]

/-- Replacing the element of an entity fails exactly when the value given to `id` last is null or
there is none, and then nothing is changed: a start traversal that was not there is not there now.
Otherwise the steps that find the element, keep it if it is of the type and overwrite it are
appended to the start traversal. They resolve to steps that do as much, and none of these writes the
identifier of an element. -/
theorem replace_keeps_identifier (hs : S.all[number]? = some s) (typeName : String)
    (given : List (String × Value Pipeline)) {opening : Opening} {name : String}
    (hopening : opening.Replaces (Entity.built typeName given) name) :
    (∀ e S', S.perform (.start number opening) = (.error e, S') ↔
      (∀ id, (Entity.givenTo given "id").getLast? = some id → id.isNull = true) ∧
        e = .missingIdentifier typeName ∧ S' = S) ∧
    ∀ id, (Entity.givenTo given "id").getLast? = some id → id.isNull = false →
      ∃ t list ledger,
        S.perform (.start number opening) =
          (.ok (some t),
            ⟨S.all.set number { s with started := some (s.startOn S.ledger.supply) }, ledger⟩) ∧
        t = { s.startOn S.ledger.supply with steps := list } ∧
        list.toList = (s.startOn S.ledger.supply).steps.toList ++
          Step.replacing name id (Entity.built typeName given) ∧
        ∀ resolved,
          (((Step.replacing name id (Entity.built typeName given)).mapM
              (Step.resolve t.scope)).map List.flatten = .ok resolved ↔
            t.scope.Replaces name typeName id given resolved) ∧
          (t.scope.Replaces name typeName id given resolved →
            ∀ key value, ⟨"property", [key, value]⟩ ∈ resolved → key ≠ .token Scope.idToken) := by
  constructor
  · intro e S'
    constructor
    · intro herror
      -- with an identifier there would be a traversal
      have hmissing : ∀ id, (Entity.givenTo given "id").getLast? = some id → id.isNull = true := by
        intro id hlast
        by_contra hid
        have hsteps := hopening.steps_of_given hlast (by simpa using hid)
        obtain ⟨t, list, ledger, hperform, -⟩ := S.exists_perform_start_eq hs hsteps
        rw [herror] at hperform
        simp at hperform
      rw [S.perform_start_of_error hs (hopening.steps_of_missing hmissing)] at herror
      injection herror with he hS
      injection he with he
      exact ⟨hmissing, he.symm, hS.symm⟩
    · rintro ⟨hmissing, rfl, rfl⟩
      exact S'.perform_start_of_error hs (hopening.steps_of_missing hmissing)
  · intro id hlast hid
    obtain ⟨t, list, ledger, hperform, ht, hlist⟩ :=
      S.exists_perform_start_eq hs (hopening.steps_of_given hlast hid)
    refine ⟨t, list, ledger, hperform, ht, hlist, ?_⟩
    intro resolved
    refine ⟨Scope.resolve_replacement hopening.name_eq, ?_⟩
    intro hreplaces key value hmem
    exact hreplaces.key_ne hopening.name_eq hmem

/-- A source with a strategy that names a member. -/
def namingSource : Source where
  environment := { model := .schema (({} : Schema).withType "person" "P"), pipeline := default }
  strategies := [⟨"rename", .ofProgram [.mapMember (.member ⟨"person", "name"⟩) "fullName"]⟩]

/-- Members with an identifier that was given twice. -/
def numberedTwice : List (String × Value Pipeline) :=
  [("id", .long 1), ("name", .text "marko"), ("age", .null), ("id", .long 2)]

/-- An identifier that is taken back is none; one that is given again is the one that counts, and is
not written. -/
theorem replace_keeps_identifier_namingSource :
    (⟨[namingSource], {}⟩ : Sources).perform
        (.start 0 (.replaceV (Entity.built "person" [("id", .long 1), ("id", .null)]))) =
      (.error (.missingIdentifier "person"), ⟨[namingSource], {}⟩) ∧
    ∃ t sources,
      (⟨[namingSource], {}⟩ : Sources).perform
          (.start 0 (.replaceE (Entity.built "person" numberedTwice))) = (.ok (some t), sources) ∧
      t.scope.Replaces "E" "person" (.long 2) numberedTwice
        [⟨"E", [.long 2]⟩, .hasLabel ["P"], ⟨"property", [.key "fullName", .text "marko"]⟩] := by
  have hs : (⟨[namingSource], {}⟩ : Sources).all[0]? = some namingSource := rfl
  obtain ⟨hfails, -⟩ := replace_keeps_identifier _ hs "person"
    [("id", .long 1), ("id", .null)] .vertex
  obtain ⟨-, hreplaces⟩ := replace_keeps_identifier _ hs "person" numberedTwice .edge
  obtain ⟨t, list, ledger, hperform, ht, -, hresolves⟩ := hreplaces (.long 2) rfl rfl
  refine ⟨(hfails _ _).mpr ⟨?_, rfl, rfl⟩, t, _, hperform, ((hresolves _).1).mp ?_⟩
  · intro id hlast
    have hid : id = .null := (Option.some.inj hlast).symm
    rw [hid]
    rfl
  · rw [ht]
    rfl

end Sources

end Gremlin
