import Gremlin.Proofs.Spreading
import Gremlin.Value.Json

/-!
# What traversals say

A traversal carries more than it says: its environment has options and a pipeline, it belongs to a
family, and its steps have identities, and so it is with every traversal nested in it. Erasing all
that leaves the graphs, the steps, the models and the names given to members.

* `Value.debug_erased`, `Value.toJson_erased`: what is erased is not shown and not sent;
* `Value.same_erased`: it is not compared;
* `Step.resolve_erased`: steps resolve to the same but for what is erased.
-/

namespace Gremlin

variable {ρ : Type}

/-! ## Erasing -/

/-- The model alone. -/
def Environment.erased (environment : Environment ρ) : Environment Unit :=
  { model := environment.model, pipeline := () }

mutual

/-- The value with everything erased that nested traversals do not say. -/
def Value.erased : Value ρ → Value Unit
  | .null => .null
  | .bool b => .bool b
  | .int n => .int n
  | .long n => .long n
  | .float x => .float x
  | .text s => .text s
  | .key name => .key name
  | .token word => .token word
  | .member m => .member m
  | .elementType name => .elementType name
  | .entity e => .entity e.erased
  | .traversal t => .traversal t.erased

def Entity.erased : Entity ρ → Entity Unit
  | ⟨typeName, members⟩ => ⟨typeName, erasedMembers members⟩

def erasedMembers : List (String × Value ρ) → List (String × Value Unit)
  | [] => []
  | (name, value) :: rest => (name, value.erased) :: erasedMembers rest

def Step.erased : Step ρ → Step Unit
  | ⟨name, parameters⟩ => ⟨name, erasedValues parameters⟩

def erasedValues : List (Value ρ) → List (Value Unit)
  | [] => []
  | value :: rest => value.erased :: erasedValues rest

def erasedNodes : List (Node ρ) → List (Node Unit)
  | [] => []
  | ⟨_, step⟩ :: rest => ⟨0, step.erased⟩ :: erasedNodes rest

/-- What the traversal says: graph, steps, model and mappings, and the same of all that nest. -/
def Traversal.erased : Traversal ρ → Traversal Unit
  | ⟨graph, ⟨nodes⟩, environment, _, mappings⟩ =>
    ⟨graph, ⟨erasedNodes nodes⟩, environment.erased, 0, mappings⟩

end

theorem erasedMembers_eq (members : List (String × Value ρ)) :
    erasedMembers members = members.map fun m => (m.1, m.2.erased) := by
  induction members with
  | nil => rfl
  | cons m rest ih => rw [erasedMembers, ih, List.map_cons]

theorem erasedValues_eq (values : List (Value ρ)) :
    erasedValues values = values.map Value.erased := by
  induction values with
  | nil => rfl
  | cons v rest ih => rw [erasedValues, ih, List.map_cons]

theorem erasedNodes_eq (nodes : List (Node ρ)) :
    erasedNodes nodes = nodes.map fun node => ⟨0, node.step.erased⟩ := by
  induction nodes with
  | nil => rfl
  | cons node rest ih =>
    obtain ⟨_, step⟩ := node
    rw [erasedNodes, ih, List.map_cons]

@[simp] theorem Entity.typeName_erased (e : Entity ρ) : e.erased.typeName = e.typeName := by
  cases e
  rfl

@[simp] theorem Entity.members_erased (e : Entity ρ) :
    e.erased.members = e.members.map fun m => (m.1, m.2.erased) := by
  obtain ⟨_, members⟩ := e
  exact erasedMembers_eq members

@[simp] theorem Step.name_erased (s : Step ρ) : s.erased.name = s.name := by
  cases s
  rfl

@[simp] theorem Step.parameters_erased (s : Step ρ) :
    s.erased.parameters = s.parameters.map Value.erased := by
  obtain ⟨_, parameters⟩ := s
  exact erasedValues_eq parameters

theorem Step.erased_mk (name : String) (parameters : List (Value ρ)) :
    Step.erased ⟨name, parameters⟩ = ⟨name, parameters.map Value.erased⟩ := by
  rw [Step.erased, erasedValues_eq]

@[simp] theorem Traversal.graph_erased (t : Traversal ρ) : t.erased.graph = t.graph := by
  rcases t with ⟨_, ⟨_⟩, _, _, _⟩
  rfl

@[simp] theorem Traversal.scope_erased (t : Traversal ρ) : t.erased.scope = t.scope := by
  rcases t with ⟨_, ⟨_⟩, _, _, _⟩
  rfl

@[simp] theorem Traversal.toList_erased (t : Traversal ρ) :
    t.erased.steps.toList = t.steps.toList.map Step.erased := by
  have hnodes : t.erased.steps.newestFirst = erasedNodes t.steps.newestFirst := by
    rcases t with ⟨_, ⟨_⟩, _, _, _⟩
    rfl
  rw [StepList.toList, hnodes, erasedNodes_eq, StepList.toList, List.map_map, List.map_reverse,
    List.map_map]
  rfl

namespace Value

@[simp] theorem kind_erased (v : Value ρ) : v.erased.kind = v.kind := by
  cases v <;> rfl

@[simp] theorem isNull_erased (v : Value ρ) : v.erased.isNull = v.isNull := by
  cases v <;> rfl

@[simp] theorem integer?_erased (v : Value ρ) : v.erased.integer? = v.integer? := by
  cases v <;> rfl

end Value

/-! ## Texts -/

mutual

/-- What is erased is not shown. -/
theorem Value.debug_erased : (v : Value ρ) → v.erased.debug = v.debug
  | .null | .bool _ | .int _ | .long _ | .float _ | .text _ | .key _ | .token _ | .member _
  | .elementType _ => rfl
  | .entity e => congrArg (Text.debugCall "Object") e.debug_erased
  | .traversal t => congrArg (Text.debugCall "Query") t.debug_erased

theorem Entity.debug_erased : (e : Entity ρ) → e.erased.debug = e.debug
  | ⟨typeName, members⟩ => by
    rw [Entity.erased, Entity.debug, Entity.debug, debugMembers_erased members]

theorem debugMembers_erased : (members : List (String × Value ρ)) →
    debugMembers (erasedMembers members) = debugMembers members
  | [] => rfl
  | (name, value) :: rest => by
    rw [erasedMembers, debugMembers, debugMembers, value.debug_erased, debugMembers_erased rest]

theorem Step.debug_erased : (s : Step ρ) → s.erased.debug = s.debug
  | ⟨name, parameters⟩ => by
    rw [Step.erased, Step.debug, Step.debug, debugValues_erased parameters]

theorem debugValues_erased : (values : List (Value ρ)) →
    debugValues (erasedValues values) = debugValues values
  | [] => rfl
  | value :: rest => by
    rw [erasedValues, debugValues, debugValues, value.debug_erased, debugValues_erased rest]

theorem debugNodes_erased : (nodes : List (Node ρ)) →
    debugNodes (erasedNodes nodes) = debugNodes nodes
  | [] => rfl
  | ⟨_, step⟩ :: rest => by
    rw [erasedNodes, debugNodes, debugNodes, step.debug_erased, debugNodes_erased rest]

theorem Traversal.debug_erased : (t : Traversal ρ) → t.erased.debug = t.debug
  | ⟨graph, ⟨nodes⟩, _, _, _⟩ => by
    rw [Traversal.erased, Traversal.debug, Traversal.debug, debugNodes_erased nodes]

end

mutual

/-- What is erased is not sent. -/
theorem Value.toJson_erased : (v : Value ρ) → v.erased.toJson = v.toJson
  | .null | .bool _ | .int _ | .long _ | .float _ | .text _ | .key _ | .token _ | .member _
  | .elementType _ => rfl
  | .entity e => e.toJson_erased
  | .traversal t => congrArg Json.text t.debug_erased

theorem Entity.toJson_erased : (e : Entity ρ) → e.erased.toJson = e.toJson
  | ⟨typeName, members⟩ => by
    rw [Entity.erased, Entity.toJson, Entity.toJson, memberFields_erased members]

theorem memberFields_erased : (members : List (String × Value ρ)) →
    memberFields (erasedMembers members) = memberFields members
  | [] => rfl
  | (name, value) :: rest => by
    rw [erasedMembers, memberFields, memberFields, value.toJson_erased, memberFields_erased rest]

end

/-! ## Equality -/

mutual

/-- What is erased is not compared. -/
theorem Value.same_erased : (v w : Value ρ) → v.erased.same w.erased = v.same w
  | .null, w | .bool _, w | .int _, w | .long _, w | .float _, w | .text _, w | .key _, w
  | .token _, w | .member _, w | .elementType _, w => by
    cases w <;> simp only [Value.erased, Value.same]
  -- values of two kinds differ before and after
  | .entity e, w => by
    cases w with
    | entity e' => rw [Value.erased, Value.erased, Value.same, Value.same, e.same_erased e']
    | _ => simp only [Value.erased, Value.same]
  | .traversal t, w => by
    cases w with
    | traversal t' => rw [Value.erased, Value.erased, Value.same, Value.same, t.same_erased t']
    | _ => simp only [Value.erased, Value.same]

theorem Entity.same_erased : (e e' : Entity ρ) → e.erased.same e'.erased = e.same e'
  | ⟨s, as⟩, ⟨t, bs⟩ => by
    rw [Entity.erased, Entity.erased, Entity.same, Entity.same, sameMembers_erased as bs]

theorem sameMembers_erased : (as bs : List (String × Value ρ)) →
    sameMembers (erasedMembers as) (erasedMembers bs) = sameMembers as bs
  | [], bs => by cases bs <;> simp only [erasedMembers, sameMembers]
  | (n, a) :: as, bs => by
    cases bs with
    | nil => simp only [erasedMembers, sameMembers]
    | cons b bs =>
      obtain ⟨m, b⟩ := b
      rw [erasedMembers, erasedMembers, sameMembers, sameMembers, a.same_erased b,
        sameMembers_erased as bs]

theorem Step.same_erased : (s s' : Step ρ) → s.erased.same s'.erased = s.same s'
  | ⟨s, as⟩, ⟨t, bs⟩ => by
    rw [Step.erased, Step.erased, Step.same, Step.same, sameValues_erased as bs]

theorem sameValues_erased : (as bs : List (Value ρ)) →
    sameValues (erasedValues as) (erasedValues bs) = sameValues as bs
  | [], bs => by cases bs <;> simp only [erasedValues, sameValues]
  | a :: as, bs => by
    cases bs with
    | nil => simp only [erasedValues, sameValues]
    | cons b bs =>
      rw [erasedValues, erasedValues, sameValues, sameValues, a.same_erased b,
        sameValues_erased as bs]

theorem sameNodes_erased : (as bs : List (Node ρ)) →
    sameNodes (erasedNodes as) (erasedNodes bs) = sameNodes as bs
  | [], bs => by
    cases bs with
    | nil => simp only [erasedNodes, sameNodes]
    | cons b bs =>
      obtain ⟨_, b⟩ := b
      simp only [erasedNodes, sameNodes]
  | ⟨_, a⟩ :: as, bs => by
    cases bs with
    | nil => simp only [erasedNodes, sameNodes]
    | cons b bs =>
      obtain ⟨_, b⟩ := b
      rw [erasedNodes, erasedNodes, sameNodes, sameNodes, a.same_erased b,
        sameNodes_erased as bs]

theorem Traversal.same_erased : (t t' : Traversal ρ) → t.erased.same t'.erased = t.same t'
  | ⟨g, ⟨as⟩, _, _, m⟩, ⟨h, ⟨bs⟩, _, _, n⟩ => by
    rw [Traversal.erased, Traversal.erased, Traversal.same, Traversal.same, sameNodes_erased as bs]

end

/-! ## Nesting -/

mutual

theorem Value.nesting_erased : (v : Value ρ) → v.erased.nesting = v.nesting
  | .null | .bool _ | .int _ | .long _ | .float _ | .text _ | .key _ | .token _ | .member _
  | .elementType _ => rfl
  | .entity e => e.nesting_erased
  | .traversal t => congrArg (· + 1) t.nesting_erased

theorem Entity.nesting_erased : (e : Entity ρ) → e.erased.nesting = e.nesting
  | ⟨_, members⟩ => membersNesting_erased members

theorem membersNesting_erased : (members : List (String × Value ρ)) →
    membersNesting (erasedMembers members) = membersNesting members
  | [] => rfl
  | (_, value) :: rest => by
    rw [erasedMembers, membersNesting, membersNesting, value.nesting_erased,
      membersNesting_erased rest]

theorem Step.nesting_erased : (s : Step ρ) → s.erased.nesting = s.nesting
  | ⟨_, parameters⟩ => valuesNesting_erased parameters

theorem valuesNesting_erased : (values : List (Value ρ)) →
    valuesNesting (erasedValues values) = valuesNesting values
  | [] => rfl
  | value :: rest => by
    rw [erasedValues, valuesNesting, valuesNesting, value.nesting_erased, valuesNesting_erased rest]

theorem nodesNesting_erased : (nodes : List (Node ρ)) →
    nodesNesting (erasedNodes nodes) = nodesNesting nodes
  | [] => rfl
  | ⟨_, step⟩ :: rest => by
    rw [erasedNodes, nodesNesting, nodesNesting, step.nesting_erased, nodesNesting_erased rest]

theorem Traversal.nesting_erased : (t : Traversal ρ) → t.erased.nesting = t.nesting
  | ⟨_, ⟨nodes⟩, _, _, _⟩ => nodesNesting_erased nodes

end

/-! ## Resolution -/

namespace Scope

variable (scope : Scope)

theorem member_erased (m : Member) :
    scope.member m = (scope.member m : Except Error (Value ρ)).map Value.erased := by
  unfold member
  split
  · rfl
  · split
    · rfl
    · cases scope.model.property m <;> rfl

theorem value_erased (v : Value ρ) : scope.value v.erased = (scope.value v).map Value.erased := by
  cases v with
  | member m => exact scope.member_erased m
  | elementType t =>
    show (scope.model.label t).map _ = ((scope.model.label t).map _).map _
    cases scope.model.label t <;> rfl
  | _ => rfl

theorem values_erased (vs : List (Value ρ)) :
    scope.values (vs.map Value.erased) = (scope.values vs).map (List.map Value.erased) := by
  rw [values_eq_mapM, values_eq_mapM]
  exact mapM_map_map scope.value_erased vs

theorem store_erased (typeName : String) (m : String × Value ρ) :
    scope.store typeName (m.1, m.2.erased) = (scope.store typeName m).map Step.erased := by
  simp only [store]
  rw [scope.member_erased (ρ := ρ), scope.value_erased]
  cases (scope.member ⟨typeName, m.1⟩ : Except Error (Value ρ)) with
  | error e => rfl
  | ok key => cases scope.value m.2 <;> rfl

theorem properties_erased (typeName : String) (members : List (String × Value ρ)) :
    scope.properties typeName (members.map fun m => (m.1, m.2.erased)) =
      (scope.properties typeName members).map (List.map Step.erased) := by
  rw [properties_eq_mapM, properties_eq_mapM, List.filter_map]
  -- the same members are left out for being null
  have hkept : (fun m : String × Value Unit => !m.2.isNull) ∘
      (fun m : String × Value ρ => (m.1, m.2.erased)) = fun m => !m.2.isNull := by
    funext m
    simp
  rw [hkept]
  exact mapM_map_map (scope.store_erased typeName) _

end Scope

namespace Step

/-- A request with everything erased that nested traversals do not say. -/
def Request.erased : Request ρ → Request Unit
  | create name e => .create name e.erased
  | update e => .update e.erased
  | ofType typeName => .ofType typeName
  | vacuous => .vacuous
  | plain => .plain

theorem request_erased (s : Step ρ) : s.erased.request = s.request.erased := by
  obtain ⟨name, parameters⟩ := s
  rw [erased_mk]
  -- a step asks by its name, the number of its parameters and the kind of a single one
  match parameters with
  | [] =>
    simp only [request, List.map_nil]
    split <;> rfl
  | [v] =>
    cases v with
    | entity e =>
      simp only [request, List.map_cons, List.map_nil, Value.erased]
      split
      · rfl
      · split <;> rfl
    | elementType t =>
      simp only [request, List.map_cons, List.map_nil, Value.erased]
      split <;> rfl
    | _ => rfl
  | v :: _ :: _ => cases v <;> rfl

theorem hasLabel_erased (labels : List String) :
    (hasLabel labels : Step ρ).erased = hasLabel labels := by
  rw [hasLabel, texts, erased_mk, List.map_map]
  rfl

/-- Steps resolve alike, whatever is erased. -/
theorem resolve_erased (scope : Scope) (s : Step ρ) :
    s.erased.resolve scope = (s.resolve scope).map (List.map Step.erased) := by
  rw [resolve, resolve, request_erased]
  cases s.request with
  | create name e =>
    simp only [Request.erased, Entity.typeName_erased, Entity.members_erased,
      scope.properties_erased]
    cases scope.model.label e.typeName with
    | error e => rfl
    | ok label => cases scope.properties e.typeName e.members <;> rfl
  | update e =>
    simp only [Request.erased, Entity.typeName_erased, Entity.members_erased, List.filter_map]
    exact scope.properties_erased e.typeName _
  | ofType typeName =>
    simp only [Request.erased]
    cases scope.model.derivedLabels typeName with
    | error e => rfl
    | ok labels =>
      show Except.ok _ = Except.ok (List.map Step.erased _)
      split
      · rfl
      · rw [List.map_cons, List.map_nil, hasLabel_erased]
  | vacuous => rfl
  | plain =>
    simp only [Request.erased, name_erased, parameters_erased, scope.values_erased]
    cases scope.values s.parameters with
    | error e => rfl
    | ok values =>
      show Except.ok _ = Except.ok [Step.erased _]
      rw [erased_mk]

end Step

end Gremlin
