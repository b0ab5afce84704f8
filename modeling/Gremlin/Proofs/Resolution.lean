import Gremlin.Proofs.Results
import Gremlin.Resolution
import Gremlin.Value.Nesting
import Mathlib.Logic.Relation

/-!
# What resolution does

`Step.resolve_cases` lists what a step may resolve to. From it follow the facts that others build
on: a resolved step has no logical names left (`not_isName_of_resolve`) and asks for nothing else
(`request_of_resolve`), its values nest no deeper than those of the step it comes from
(`nesting_of_resolve`), and the traversals among them were held by that step (`holds_of_resolve`).
Only a lookup in the model makes resolution fail (`raises_of_resolve`), and all it reports is a name
without meaning (`isUnknown_of_resolve`).
-/

namespace Gremlin

variable {ρ : Type}

/-! ## Names without meaning -/

namespace Model

/-- A lookup in the model ends with the error. -/
inductive Raises (model : Model) (e : Error) : Prop
  | label {typeName : String} (h : model.label typeName = .error e)
  | property {m : Member} (h : model.property m = .error e)
  | derivedLabels {typeName : String} (h : model.derivedLabels typeName = .error e)

theorem Raises.isUnknown {model : Model} {e : Error} (h : model.Raises e) : e.IsUnknown := by
  cases h with
  | label h => exact model.reportsUnknown.label h
  | property h => exact model.reportsUnknown.property h
  | derivedLabels h => exact model.reportsUnknown.derivedLabels h

/-- The dynamic model has something for every name. -/
theorem not_raises_dynamic (e : Error) : ¬ Model.dynamic.Raises e := by
  rintro (h | h | h) <;> contradiction

end Model

/-! ## Resolved values -/

/-- The value is a logical name, to be looked up in a scope. -/
def Value.IsName : Value ρ → Prop
  | .member _ | .elementType _ => True
  | _ => False

namespace Scope

variable {scope : Scope}

/-- A member becomes a key or a word. -/
theorem member_cases {m : Member} {v : Value ρ} (h : scope.member m = .ok v) :
    (∃ name, v = .key name) ∨ ∃ word, v = .token word := by
  unfold member at h
  split at h
  · injection h with h
    exact Or.inl ⟨_, h.symm⟩
  · split at h
    · injection h with h
      exact Or.inr ⟨_, h.symm⟩
    · rcases map_eq_ok_iff.mp h with ⟨key, _, hkey⟩
      exact Or.inl ⟨key, hkey.symm⟩

theorem raises_of_member {m : Member} {e : Error}
    (h : (scope.member m : Except Error (Value ρ)) = .error e) : scope.model.Raises e := by
  unfold member at h
  split at h
  · contradiction
  · split at h
    · contradiction
    · exact .property (map_eq_error_iff.mp h)

/-- A value that is no name is kept; a name becomes a key, a word or a text. -/
theorem value_cases {v w : Value ρ} (h : scope.value v = .ok w) :
    (w = v ∧ ¬ v.IsName) ∨ (∃ name, w = .key name) ∨ (∃ word, w = .token word) ∨
      ∃ s, w = .text s := by
  cases v with
  | member m =>
    rcases member_cases h with hkey | htoken
    · exact Or.inr (Or.inl hkey)
    · exact Or.inr (Or.inr (Or.inl htoken))
  | elementType t =>
    rcases map_eq_ok_iff.mp h with ⟨label, _, hlabel⟩
    exact Or.inr (Or.inr (Or.inr ⟨label, hlabel.symm⟩))
  | _ =>
    injection h with h
    exact Or.inl ⟨h.symm, fun hname => hname⟩

theorem value_self {v : Value ρ} (h : ¬ v.IsName) : scope.value v = .ok v := by
  cases v with
  | member m => exact absurd trivial h
  | elementType t => exact absurd trivial h
  | _ => rfl

theorem raises_of_value {v : Value ρ} {e : Error} (h : scope.value v = .error e) :
    scope.model.Raises e := by
  cases v with
  | member m => exact raises_of_member h
  | elementType t => exact .label (map_eq_error_iff.mp h)
  | _ => contradiction

theorem not_isName_of_value {v w : Value ρ} (h : scope.value v = .ok w) : ¬ w.IsName := by
  rcases value_cases h with ⟨rfl, hv⟩ | ⟨_, rfl⟩ | ⟨_, rfl⟩ | ⟨_, rfl⟩
  · exact hv
  all_goals exact fun hname => hname

theorem nesting_of_value {v w : Value ρ} (h : scope.value v = .ok w) :
    w.nesting ≤ v.nesting := by
  rcases value_cases h with ⟨rfl, _⟩ | ⟨_, rfl⟩ | ⟨_, rfl⟩ | ⟨_, rfl⟩
  · exact Nat.le_refl _
  all_goals simp [Value.nesting]

theorem values_eq_mapM (vs : List (Value ρ)) : scope.values vs = vs.mapM scope.value := by
  induction vs with
  | nil => rfl
  | cons v rest ih => rw [values, ih, List.mapM_cons]

theorem values_eq_ok_iff {vs ws : List (Value ρ)} :
    scope.values vs = .ok ws ↔ List.Forall₂ (fun v w => scope.value v = .ok w) vs ws := by
  rw [values_eq_mapM, mapM_eq_ok_iff]

theorem values_self {vs : List (Value ρ)} (h : ∀ v ∈ vs, ¬ v.IsName) :
    scope.values vs = .ok vs := by
  rw [values_eq_ok_iff, List.forall₂_same]
  intro v hv
  exact value_self (h v hv)

theorem raises_of_values {vs : List (Value ρ)} {e : Error}
    (h : scope.values vs = .error e) : scope.model.Raises e := by
  rw [values_eq_mapM] at h
  rcases exists_of_mapM_eq_error h with ⟨v, _, hv⟩
  exact raises_of_value hv

/-! ## Spread entities -/

/-- An entity is spread into property steps with a key or a word and the value of a member. -/
theorem properties_cases {typeName : String} {members : List (String × Value ρ)}
    {rs : List (Step ρ)} (h : scope.properties typeName members = .ok rs) :
    ∀ r ∈ rs, ∃ (m : String × Value ρ) (key w : Value ρ), m ∈ members ∧
      r = ⟨"property", [key, w]⟩ ∧ scope.member ⟨typeName, m.1⟩ = .ok key ∧
      scope.value m.2 = .ok w := by
  induction members generalizing rs with
  | nil =>
    injection h with h
    simp [← h]
  | cons m rest ih =>
    rcases m with ⟨name, v⟩
    rw [properties] at h
    split at h
    · -- a member that is null leaves no step
      intro r hr
      rcases ih h r hr with ⟨m, key, w, hm, hrest⟩
      exact ⟨m, key, w, List.mem_cons_of_mem _ hm, hrest⟩
    · rcases bind_eq_ok_iff.mp h with ⟨key, hkey, h⟩
      rcases bind_eq_ok_iff.mp h with ⟨w, hw, h⟩
      rcases bind_eq_ok_iff.mp h with ⟨others, hothers, h⟩
      injection h with h
      intro r hr
      rw [← h] at hr
      rcases List.mem_cons.mp hr with hfirst | hlater
      · exact ⟨(name, v), key, w, List.mem_cons_self, hfirst, hkey, hw⟩
      · rcases ih hothers r hlater with ⟨m, key, w, hm, hrest⟩
        exact ⟨m, key, w, List.mem_cons_of_mem _ hm, hrest⟩

theorem raises_of_properties {typeName : String} {members : List (String × Value ρ)}
    {e : Error} (h : scope.properties typeName members = .error e) : scope.model.Raises e := by
  induction members with
  | nil => contradiction
  | cons m rest ih =>
    rcases m with ⟨name, v⟩
    rw [properties] at h
    split at h
    · exact ih h
    · rcases bind_eq_error_iff.mp h with hkey | ⟨_, _, h⟩
      · exact raises_of_member hkey
      rcases bind_eq_error_iff.mp h with hvalue | ⟨_, _, h⟩
      · exact raises_of_value hvalue
      rcases bind_eq_error_iff.mp h with hrest | ⟨_, _, h⟩
      · exact ih hrest
      · contradiction

end Scope

/-! ## Resolved steps -/

namespace Step

variable {scope : Scope}

/-- Everything that a step may resolve to. -/
theorem resolve_cases {s : Step ρ} {rs : List (Step ρ)} (h : s.resolve scope = .ok rs) :
    (∃ name e label properties, s.request = .create name e ∧
      scope.properties e.typeName e.members = .ok properties ∧
      rs = ⟨name, [.text label]⟩ :: properties) ∨
    (∃ e, s.request = .update e ∧
      scope.properties e.typeName (e.members.filter (·.1 != "id")) = .ok rs) ∨
    (∃ label labels, rs = [hasLabel (label :: labels)]) ∨
    rs = [] ∨
    (s.request = .plain ∧ ∃ vs, scope.values s.parameters = .ok vs ∧ rs = [⟨s.name, vs⟩]) := by
  unfold resolve at h
  split at h
  · rename_i name e hrequest
    rcases bind_eq_ok_iff.mp h with ⟨label, _, h⟩
    rcases bind_eq_ok_iff.mp h with ⟨properties, hproperties, h⟩
    injection h with h
    exact Or.inl ⟨name, e, label, properties, hrequest, hproperties, h.symm⟩
  · rename_i e hrequest
    exact Or.inr (Or.inl ⟨e, hrequest, h⟩)
  · rcases bind_eq_ok_iff.mp h with ⟨labels, _, h⟩
    injection h with h
    cases labels with
    | nil => exact Or.inr (Or.inr (Or.inr (Or.inl h.symm)))
    | cons label labels => exact Or.inr (Or.inr (Or.inl ⟨label, labels, h.symm⟩))
  · injection h with h
    exact Or.inr (Or.inr (Or.inr (Or.inl h.symm)))
  · rename_i hrequest
    rcases bind_eq_ok_iff.mp h with ⟨vs, hvs, h⟩
    injection h with h
    exact Or.inr (Or.inr (Or.inr (Or.inr ⟨hrequest, vs, hvs, h.symm⟩)))

theorem raises_of_resolve {s : Step ρ} {e : Error} (h : s.resolve scope = .error e) :
    scope.model.Raises e := by
  unfold resolve at h
  split at h
  · rcases bind_eq_error_iff.mp h with hlabel | ⟨_, _, h⟩
    · exact .label hlabel
    rcases bind_eq_error_iff.mp h with hproperties | ⟨_, _, h⟩
    · exact Scope.raises_of_properties hproperties
    · contradiction
  · exact Scope.raises_of_properties h
  · rcases bind_eq_error_iff.mp h with hlabels | ⟨_, _, h⟩
    · exact .derivedLabels hlabels
    · contradiction
  · contradiction
  · rcases bind_eq_error_iff.mp h with hvalues | ⟨_, _, h⟩
    · exact Scope.raises_of_values hvalues
    · contradiction

theorem isUnknown_of_resolve {s : Step ρ} {e : Error} (h : s.resolve scope = .error e) :
    e.IsUnknown :=
  (raises_of_resolve h).isUnknown

/-! ### No names are left -/

/-- A resolved step has no logical names among its parameters. -/
theorem not_isName_of_resolve {s : Step ρ} {rs : List (Step ρ)} (h : s.resolve scope = .ok rs) :
    ∀ r ∈ rs, ∀ v ∈ r.parameters, ¬ v.IsName := by
  have hproperty : ∀ {typeName : String} {members : List (String × Value ρ)}
      {properties : List (Step ρ)}, scope.properties typeName members = .ok properties →
      ∀ r ∈ properties, ∀ v ∈ r.parameters, ¬ v.IsName := by
    intro typeName members properties hproperties r hr v hv
    rcases Scope.properties_cases hproperties r hr with ⟨m, key, w, _, rfl, hkey, hw⟩
    simp only [List.mem_cons, List.not_mem_nil, or_false] at hv
    rcases hv with rfl | rfl
    · rcases Scope.member_cases hkey with ⟨_, rfl⟩ | ⟨_, rfl⟩ <;> exact fun hname => hname
    · exact Scope.not_isName_of_value hw
  rcases resolve_cases h with ⟨name, e, label, properties, _, hproperties, rfl⟩ |
    ⟨e, _, hproperties⟩ | ⟨label, labels, rfl⟩ | rfl | ⟨_, vs, hvs, rfl⟩
  · intro r hr
    rcases List.mem_cons.mp hr with rfl | hr
    · simp [Value.IsName]
    · exact hproperty hproperties r hr
  · exact hproperty hproperties
  · simp [hasLabel, texts, Value.IsName]
  · simp
  · intro r hr v hv
    have hr : r = ⟨s.name, vs⟩ := by simpa using hr
    rw [hr] at hv
    rcases exists_of_mem_right (Scope.values_eq_ok_iff.mp hvs) hv with ⟨u, _, hu⟩
    exact Scope.not_isName_of_value hu

/-! ### Resolving twice -/

/-- A step that asks for nothing but names, and has none, resolves to itself in every scope. -/
theorem resolve_eq_self {s : Step ρ} (hrequest : s.request = .plain)
    (hnames : ∀ v ∈ s.parameters, ¬ v.IsName) : s.resolve scope = .ok [s] := by
  unfold resolve
  rw [hrequest]
  simp only [Scope.values_self hnames, bind_eq_ok_iff]
  refine ⟨s.parameters, rfl, ?_⟩
  cases s
  rfl

theorem request_pair (name : String) (v w : Value ρ) :
    (⟨name, [v, w]⟩ : Step ρ).request = .plain := by
  cases v <;> rfl

/-- Looking names up makes no new request. -/
theorem request_of_values {s : Step ρ} {vs : List (Value ρ)} (hrequest : s.request = .plain)
    (h : scope.values s.parameters = .ok vs) : (⟨s.name, vs⟩ : Step ρ).request = .plain := by
  have hpairs := Scope.values_eq_ok_iff.mp h
  -- only steps with at most one parameter ask for more, and that one is no name then
  rcases vs with _ | ⟨v, _ | ⟨w, rest⟩⟩
  · have hnil : s.parameters = [] := List.forall₂_nil_right_iff.mp hpairs
    simpa [request, hnil] using hrequest
  · rcases List.forall₂_cons_right_iff.mp hpairs with ⟨u, us, hu, hus, hparameters⟩
    have hus : us = [] := List.forall₂_nil_right_iff.mp hus
    rcases Scope.value_cases hu with ⟨rfl, hname⟩ | ⟨_, rfl⟩ | ⟨_, rfl⟩ | ⟨_, rfl⟩
    · simpa [request, hparameters, hus] using hrequest
    all_goals rfl
  · cases v <;> rfl

/-- A resolved step asks for nothing but names. -/
theorem request_of_resolve {s : Step ρ} {rs : List (Step ρ)} (h : s.resolve scope = .ok rs)
    {r : Step ρ} (hr : r ∈ rs) : r.request = .plain := by
  rcases resolve_cases h with ⟨name, e, label, properties, _, hproperties, rfl⟩ |
    ⟨e, _, hproperties⟩ | ⟨label, labels, rfl⟩ | rfl | ⟨hrequest, vs, hvs, rfl⟩
  · rcases List.mem_cons.mp hr with rfl | hr
    · rfl
    · rcases Scope.properties_cases hproperties r hr with ⟨_, key, w, _, rfl, _⟩
      exact request_pair _ key w
  · rcases Scope.properties_cases hproperties r hr with ⟨_, key, w, _, rfl, _⟩
    exact request_pair _ key w
  · have hr : r = hasLabel (label :: labels) := by simpa using hr
    rw [hr]
    cases labels <;> rfl
  · simp at hr
  · have hr : r = ⟨s.name, vs⟩ := by simpa using hr
    rw [hr]
    exact request_of_values hrequest hvs

/-! ### Nesting -/

theorem parameters_of_create {s : Step ρ} {name : String} {e : Entity ρ}
    (h : s.request = .create name e) : s.parameters = [.entity e] := by
  unfold request at h
  split at h <;> grind

theorem parameters_of_update {s : Step ρ} {e : Entity ρ} (h : s.request = .update e) :
    s.parameters = [.entity e] := by
  unfold request at h
  split at h <;> grind

/-! ### Nested traversals -/

/-- The traversal is a parameter of the step, or a member of an entity that is one. -/
inductive Holds (s : Step ρ) (t : Traversal ρ) : Prop
  | parameter (h : .traversal t ∈ s.parameters)
  | member {e : Entity ρ} {name : String} (he : .entity e ∈ s.parameters)
      (hmember : (name, .traversal t) ∈ e.members)

/-- A value that resolves to a traversal is that traversal. -/
theorem eq_of_value_eq_traversal {v : Value ρ} {t : Traversal ρ}
    (h : scope.value v = .ok (.traversal t)) : v = .traversal t := by
  rcases Scope.value_cases h with ⟨hv, _⟩ | ⟨_, hv⟩ | ⟨_, hv⟩ | ⟨_, hv⟩
  · exact hv.symm
  all_goals contradiction

/-- Resolution makes no traversals: those in a resolved step were held by the step. -/
theorem holds_of_resolve {s : Step ρ} {rs : List (Step ρ)} (h : s.resolve scope = .ok rs)
    {r : Step ρ} (hr : r ∈ rs) {t : Traversal ρ} (ht : .traversal t ∈ r.parameters) :
    s.Holds t := by
  have hspread : ∀ {e : Entity ρ} {typeName : String} {members : List (String × Value ρ)}
      {properties : List (Step ρ)}, s.parameters = [.entity e] → (∀ m ∈ members, m ∈ e.members) →
      scope.properties typeName members = .ok properties → r ∈ properties → s.Holds t := by
    intro e typeName members properties hparameters hmembers hproperties hr
    rcases Scope.properties_cases hproperties r hr with ⟨m, key, w, hm, rfl, hkey, hw⟩
    simp only [List.mem_cons, List.not_mem_nil, or_false] at ht
    rcases ht with rfl | rfl
    · rcases Scope.member_cases hkey with ⟨_, hv⟩ | ⟨_, hv⟩ <;> contradiction
    · have hmember := hmembers m hm
      rw [← Prod.eta m, eq_of_value_eq_traversal hw] at hmember
      exact .member (by rw [hparameters]; exact List.mem_singleton_self _) hmember
  rcases resolve_cases h with ⟨name, e, label, properties, hrequest, hproperties, rfl⟩ |
    ⟨e, hrequest, hproperties⟩ | ⟨label, labels, rfl⟩ | rfl | ⟨_, vs, hvs, rfl⟩
  · rcases List.mem_cons.mp hr with rfl | hr
    · simp at ht
    · exact hspread (parameters_of_create hrequest) (fun m hm => hm) hproperties hr
  · have hmembers : ∀ m ∈ e.members.filter (·.1 != "id"), m ∈ e.members := by
      intro m hm
      exact (List.mem_filter.mp hm).1
    exact hspread (parameters_of_update hrequest) hmembers hproperties hr
  · rw [List.mem_singleton.mp hr] at ht
    simp [hasLabel, texts] at ht
  · simp at hr
  · rw [List.mem_singleton.mp hr] at ht
    rcases exists_of_mem_right (Scope.values_eq_ok_iff.mp hvs) ht with ⟨v, hmem, hv⟩
    rw [eq_of_value_eq_traversal hv] at hmem
    exact .parameter hmem

end Step

/-- Compiling the first traversal may come to the second one, which is the first, or nested in it on
some level. -/
def Traversal.Reaches (t u : Traversal ρ) : Prop :=
  Relation.ReflTransGen (fun t u => ∃ s ∈ t.steps.toList, s.Holds u) t u

theorem nesting_le_valuesNesting {vs : List (Value ρ)} {v : Value ρ} (h : v ∈ vs) :
    v.nesting ≤ valuesNesting vs := by
  induction vs with
  | nil => simp at h
  | cons w rest ih =>
    rw [valuesNesting]
    rcases List.mem_cons.mp h with rfl | hrest
    · exact Nat.le_max_left _ _
    · exact Nat.le_trans (ih hrest) (Nat.le_max_right _ _)

theorem valuesNesting_le {vs : List (Value ρ)} {n : Nat} (h : ∀ v ∈ vs, v.nesting ≤ n) :
    valuesNesting vs ≤ n := by
  induction vs with
  | nil => exact Nat.zero_le n
  | cons v rest ih =>
    have hrest : valuesNesting rest ≤ n := by
      apply ih
      intro w hw
      exact h w (List.mem_cons_of_mem _ hw)
    exact Nat.max_le.mpr ⟨h v List.mem_cons_self, hrest⟩

theorem nesting_le_membersNesting {members : List (String × Value ρ)} {m : String × Value ρ}
    (h : m ∈ members) : m.2.nesting ≤ membersNesting members := by
  induction members with
  | nil => simp at h
  | cons first rest ih =>
    rw [membersNesting]
    rcases List.mem_cons.mp h with rfl | hrest
    · exact Nat.le_max_left _ _
    · exact Nat.le_trans (ih hrest) (Nat.le_max_right _ _)

theorem nesting_le_nodesNesting {nodes : List (Node ρ)} {node : Node ρ} (h : node ∈ nodes) :
    node.step.nesting ≤ nodesNesting nodes := by
  induction nodes with
  | nil => simp at h
  | cons first rest ih =>
    rcases first with ⟨id, step⟩
    rw [nodesNesting]
    rcases List.mem_cons.mp h with rfl | hrest
    · exact Nat.le_max_left _ _
    · exact Nat.le_trans (ih hrest) (Nat.le_max_right _ _)

theorem Traversal.nesting_of_mem_steps {t : Traversal ρ} {s : Step ρ}
    (h : s ∈ t.steps.toList) : s.nesting ≤ t.nesting := by
  obtain ⟨node, hnode, rfl⟩ : ∃ node ∈ t.steps.newestFirst, node.step = s := by
    simpa [StepList.toList] using h
  rcases t with ⟨graph, ⟨nodes⟩, environment, family, mappings⟩
  exact nesting_le_nodesNesting hnode

theorem Entity.nesting_of_mem_members {e : Entity ρ} {m : String × Value ρ}
    (h : m ∈ e.members) : m.2.nesting ≤ e.nesting := by
  rcases e with ⟨typeName, members⟩
  exact nesting_le_membersNesting h

theorem Step.nesting_of_mem_parameters {s : Step ρ} {v : Value ρ} (h : v ∈ s.parameters) :
    v.nesting ≤ s.nesting := by
  rcases s with ⟨name, parameters⟩
  exact nesting_le_valuesNesting h

namespace Step

variable {scope : Scope}

/-- What an entity is spread into nests no deeper than the entity. -/
theorem nesting_of_properties {typeName : String} {members : List (String × Value ρ)}
    {rs : List (Step ρ)} (h : scope.properties typeName members = .ok rs) {e : Entity ρ}
    (hmembers : ∀ m ∈ members, m ∈ e.members) :
    ∀ r ∈ rs, ∀ v ∈ r.parameters, v.nesting ≤ e.nesting := by
  intro r hr v hv
  rcases Scope.properties_cases h r hr with ⟨m, key, w, hm, rfl, hkey, hw⟩
  simp only [List.mem_cons, List.not_mem_nil, or_false] at hv
  rcases hv with rfl | rfl
  · rcases Scope.member_cases hkey with ⟨_, rfl⟩ | ⟨_, rfl⟩ <;> simp [Value.nesting]
  · exact Nat.le_trans (Scope.nesting_of_value hw) (Entity.nesting_of_mem_members (hmembers m hm))

/-- The parameters of a resolved step nest no deeper than the step that it comes from. -/
theorem nesting_of_resolve {s : Step ρ} {rs : List (Step ρ)} (h : s.resolve scope = .ok rs) :
    ∀ r ∈ rs, ∀ v ∈ r.parameters, v.nesting ≤ s.nesting := by
  have hentity : ∀ e : Entity ρ, s.parameters = [.entity e] → e.nesting ≤ s.nesting := by
    intro e he
    have hmem : Value.entity e ∈ s.parameters := by simp [he]
    simpa [Value.nesting] using nesting_of_mem_parameters hmem
  rcases resolve_cases h with ⟨name, e, label, properties, hrequest, hproperties, rfl⟩ |
    ⟨e, hrequest, hproperties⟩ | ⟨label, labels, rfl⟩ | rfl | ⟨_, vs, hvs, rfl⟩
  · intro r hr v hv
    rcases List.mem_cons.mp hr with rfl | hr
    · have hv : v = .text label := by simpa using hv
      simp [hv, Value.nesting]
    · have hle := nesting_of_properties hproperties (fun m hm => hm) r hr v hv
      exact Nat.le_trans hle (hentity e (parameters_of_create hrequest))
  · intro r hr v hv
    -- the identity is left out, and what is left are members of the entity
    have hmembers : ∀ m ∈ e.members.filter (·.1 != "id"), m ∈ e.members := by
      intro m hm
      exact (List.mem_filter.mp hm).1
    have hle := nesting_of_properties hproperties hmembers r hr v hv
    exact Nat.le_trans hle (hentity e (parameters_of_update hrequest))
  · simp [hasLabel, texts, Value.nesting]
  · simp
  · intro r hr v hv
    have hr : r = ⟨s.name, vs⟩ := by simpa using hr
    rw [hr] at hv
    rcases exists_of_mem_right (Scope.values_eq_ok_iff.mp hvs) hv with ⟨u, hmem, hu⟩
    exact Nat.le_trans (Scope.nesting_of_value hu) (nesting_of_mem_parameters hmem)

theorem nesting_le_of_resolve {s : Step ρ} {rs : List (Step ρ)} (h : s.resolve scope = .ok rs)
    {r : Step ρ} (hr : r ∈ rs) : r.nesting ≤ s.nesting := by
  have hparameters := nesting_of_resolve h r hr
  rcases r with ⟨name, parameters⟩
  exact valuesNesting_le hparameters

end Step

end Gremlin
