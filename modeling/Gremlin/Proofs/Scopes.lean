import Gremlin.Proofs.Fluent
import Gremlin.Proofs.Simulation

/-!
# The scope of names given to members

Names for members are given in between the steps of a traversal, and nested traversals begin with
the names of the traversal around them. What a member in a step means is settled when the whole is
compiled. We show what that is in terms of the calls:

* in the steps of a traversal itself, the name given last, also after the step was appended;
* in a nested traversal, the name given last in there, or else the name given last around it before
  it was opened;
* names given around it later do not get in, and names given in there do not get out;
* a member without a name is looked up in the model, unless it is the identifier.

`Fluent.meantAll` says so by recursion on the calls, with the lists of names as arguments, and
`Fluent.names_scoped` says that trees and scripts are what it gives.
-/

namespace Gremlin

variable {ρ : Type}

namespace Tree

variable (nested : Traversal ρ → Except Error (Tree ρ)) (scope : Scope)

theorem resolved_append (first rest : List (Gremlin.Step ρ)) :
    resolved nested scope (first ++ rest) = (do
      let steps ← resolved nested scope first
      let more ← resolved nested scope rest
      return steps ++ more) := by
  unfold resolved
  rw [List.mapM_append]
  cases first.mapM (expanded nested scope) with
  | error e => rfl
  | ok groups =>
    cases rest.mapM (expanded nested scope) with
    | error e => rfl
    | ok others => simp [Except.map, bind, Except.bind, pure, Except.pure]

theorem resolved_singleton (s : Gremlin.Step ρ) :
    resolved nested scope [s] = expanded nested scope s := by
  unfold resolved
  rw [List.mapM_cons, List.mapM_nil]
  cases expanded nested scope s with
  | error e => rfl
  | ok steps => simp [Except.map, bind, Except.bind, pure, Except.pure]

/-- A step with one nested traversal resolves to itself, with the tree of that one. -/
theorem expanded_nest (name : String) (t : Traversal ρ) :
    expanded nested scope ⟨name, [.traversal t]⟩ =
      (nested t).map fun x => [⟨name, [.nested x]⟩] := by
  show ([⟨name, [.traversal t]⟩] : List (Gremlin.Step ρ)).mapM (ofStep nested) = _
  rw [List.mapM_cons, List.mapM_nil, ofStep, List.mapM_cons, List.mapM_nil, Value.part]
  cases nested t <;> rfl

end Tree

namespace Fluent

/-! ## What the steps mean -/

section Meaning

variable (model : Model)

mutual

/-- The resolved steps for a call. `own` are the names that the traversal has in the end, `given`
those that it has been given before the call, and `drawn` is the number of labels drawn before. -/
def meant (own given : List (Member × String)) (drawn : UInt64) :
    Fluent ρ → Except Error (List (Tree.Step ρ))
  | append step => Tree.expanded Traversal.tree (.ofGiven model own) step
  | mark => .ok [⟨"as", [.value (.text (Supply.identifier drawn.toNat))]⟩]
  | nest step body =>
    -- a nested traversal begins with the names given so far and has its own in the end
    (meantAll (given ++ givenAll body) given drawn body).map fun steps =>
      [⟨step, [.nested ⟨Traversal.anonymousGraph, steps⟩]⟩]
  | mapMember _ _ | cast => .ok []

/-- The resolved steps for calls, in order. -/
def meantAll (own given : List (Member × String)) (drawn : UInt64) :
    List (Fluent ρ) → Except Error (List (Tree.Step ρ))
  | [] => .ok []
  | call :: rest => do
    let steps ← meant own given drawn call
    let more ← meantAll own (given ++ call.given) (drawn + call.labels) rest
    return steps ++ more

end

end Meaning

/-! ## Traversals mean what their calls do -/

/-- Steps have been appended that mean what is said of them. -/
def Appends (model : Model) (t t' : Traversal ρ)
    (meaning : List (Member × String) → Except Error (List (Tree.Step ρ))) : Prop :=
  ∃ raw, t'.steps.toList = t.steps.toList ++ raw ∧
    ∀ own, Tree.resolved Traversal.tree (.ofGiven model own) raw = meaning own

namespace Appends

variable {model : Model} {t t' t'' : Traversal ρ}

theorem nothing (h : t'.steps = t.steps) : Appends model t t' fun _ => .ok [] := by
  refine ⟨[], ?_, fun _ => rfl⟩
  rw [h, List.append_nil]

theorem addStep (t : Traversal ρ) (step : Step ρ) (supply : Supply)
    {meaning : List (Member × String) → Except Error (List (Tree.Step ρ))}
    (h : ∀ own, Tree.expanded Traversal.tree (.ofGiven model own) step = meaning own) :
    Appends model t (t.addStep step supply).1 meaning := by
  refine ⟨[step], StepList.toList_push .., ?_⟩
  intro own
  rw [Tree.resolved_singleton, h]

theorem trans {first rest : List (Member × String) → Except Error (List (Tree.Step ρ))}
    (h : Appends model t t' first) (h' : Appends model t' t'' rest) :
    Appends model t t'' fun own => do return (← first own) ++ (← rest own) := by
  obtain ⟨raw, hsteps, hraw⟩ := h
  obtain ⟨raw', hsteps', hraw'⟩ := h'
  refine ⟨raw ++ raw', ?_, ?_⟩
  · rw [hsteps', hsteps, List.append_assoc]
  · intro own
    rw [Tree.resolved_append, hraw, hraw']

end Appends

variable {environment : Environment ρ} {family : Nat}

/-- A traversal that began without steps means what is said of its steps, with all names that it
has in the end. -/
theorem Position.tree_eq {given : List (Member × String)} {drawn : UInt64} {t t' : Traversal ρ}
    {supply : Supply} (h : Position environment family given drawn t' supply)
    {meaning : List (Member × String) → Except Error (List (Tree.Step ρ))}
    (happends : Appends environment.model t t' meaning) (hempty : t.steps = .empty) :
    t'.tree = (meaning given).map (⟨t'.graph, ·⟩) := by
  obtain ⟨raw, hsteps, hraw⟩ := happends
  rw [hempty, StepList.toList_empty, List.nil_append] at hsteps
  rw [Traversal.tree_eq, h.scope_eq, hsteps, hraw]

mutual

theorem Position.appends_apply : {given : List (Member × String)} → {drawn : UInt64} →
    {t : Traversal ρ} → {supply : Supply} → Position environment family given drawn t supply →
    (call : Fluent ρ) →
    Appends environment.model t (apply Traversal.toAnonymous t call supply).1 fun own =>
      meant environment.model own given drawn call
  | _, _, t, supply, _, .append step => Appends.addStep t step supply fun _ => by rw [meant]
  | _, _, t, _, h, .mark => by
    rw [apply_mark, h.label_eq]
    refine Appends.addStep t _ _ fun own => ?_
    rw [meant]
    rfl
  | given, drawn, t, supply, h, .nest step body => by
    have hbody := h.toAnonymous.after_applyAll body
    have hsteps := h.toAnonymous.appends_applyAll body
    -- the nested traversal is finished, so the names given from here on do not matter to it
    have htree := hbody.tree_eq hsteps rfl
    rw [graph_applyAll] at htree
    rw [apply_nest]
    refine Appends.addStep t _ _ fun own => ?_
    rw [meant, Tree.expanded_nest, htree]
    cases meantAll environment.model (given ++ givenAll body) given drawn body <;> rfl
  | _, _, t, supply, _, .mapMember expression name => by
    obtain ⟨mappings, hmapped⟩ := t.tryMapMember_eq expression name
    rw [apply_mapMember, hmapped]
    exact .nothing rfl
  | _, _, _, _, _, .cast => .nothing rfl

theorem Position.appends_applyAll : {given : List (Member × String)} → {drawn : UInt64} →
    {t : Traversal ρ} → {supply : Supply} → Position environment family given drawn t supply →
    (calls : List (Fluent ρ)) →
    Appends environment.model t (applyAll Traversal.toAnonymous t calls supply).1 fun own =>
      meantAll environment.model own given drawn calls
  | _, _, _, _, _, [] => .nothing rfl
  | _, _, t, supply, h, call :: rest => by
    have hfirst := h.appends_apply call
    have hrest := (h.after_apply call).appends_applyAll rest
    rw [applyAll_cons]
    exact hfirst.trans hrest

end

/-- A name counts for the steps before it as well, but not for what was opened before it; there,
the names given in there count. -/
example :
    let name : Member := ⟨"P", "name"⟩
    let age : Member := ⟨"P", "age"⟩
    let calls : List (Fluent Unit) :=
      [.append (.has name (.int 1)), .mapMember (.member name) "a", .mapMember (.member age) "x",
        .nest "not"
          [.append (.has name (.int 2)), .append (.hasNot age), .mapMember (.member name) "b"],
        .mapMember (.convert (.member name)) "c", .mapMember (.constant .null) "d",
        .append (.hasNot age)]
    Dialect.plain.compile (built "g" default calls {}).1 true =
      .ok ⟨"g.has(\"c\", 1).not(__.has(\"b\", 2).hasNot(\"x\")).hasNot(\"x\")", []⟩ := by
  decide +kernel

end Fluent

end Gremlin
