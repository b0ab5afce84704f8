import Gremlin.Proofs.Fluent
import Gremlin.Proofs.Simulation

/-!
# Traversals in another environment

A traversal that is put into another environment takes its own steps there, but not the traversals
nested in them: each keeps the environment that it was opened in.

* `Fluent.rebound_eq_reopened`: so it is the traversal that the same calls make in the other
  environment, if all nested traversals are opened in the first one;
* `Fluent.Twins`: traversals made by the same calls whose steps resolve alike in their scopes,
  at all levels;
* `Fluent.rebinding_compiles`: nested traversals make the only difference, and none if their
  steps resolve alike in both models;
* `Fluent.rebinding_differs`: the difference that they can make.
-/

namespace Gremlin

variable {ρ : Type}

namespace Fluent

/-! ## Opening nested traversals in one environment -/

/-- The anonymous traversal of a traversal, in an environment given beforehand. -/
def reopened (environment : Environment ρ) (t : Traversal ρ) : Traversal ρ :=
  t.toAnonymous.replaceEnvironment environment

section Reopened

variable {environment other : Environment ρ}

theorem reopened_of_environment_eq {t : Traversal ρ} (h : t.environment = environment) :
    reopened environment t = t.toAnonymous := by
  rw [← h]
  rfl

/-- The environment of a traversal makes no difference to what is opened in another one. -/
theorem reopened_replaceEnvironment {t : Traversal ρ} (h : t.environment = environment) :
    reopened environment (t.replaceEnvironment other) = t.toAnonymous := by
  rw [← h]
  rfl

mutual

/-- Where a traversal is in an environment, so is all that is opened from it. -/
theorem apply_reopened {t : Traversal ρ} (h : t.environment = environment) (supply : Supply) :
    (call : Fluent ρ) →
    apply (reopened environment) t call supply = apply Traversal.toAnonymous t call supply
  | .append _ | .mark | .mapMember _ _ | .cast => rfl
  | .nest step body => by
    have hbody := applyAll_reopened (t := t.toAnonymous) h supply body
    rw [apply_nest, apply_nest, reopened_of_environment_eq h, hbody]

theorem applyAll_reopened {t : Traversal ρ} (h : t.environment = environment) (supply : Supply) :
    (calls : List (Fluent ρ)) →
    applyAll (reopened environment) t calls supply = applyAll Traversal.toAnonymous t calls supply
  | [] => rfl
  | call :: rest => by
    obtain ⟨_, _, hcall⟩ := exists_apply_eq Traversal.toAnonymous t supply call
    rw [applyAll_cons, applyAll_cons, apply_reopened h supply call]
    exact applyAll_reopened (by rw [hcall, h]) _ rest

end

/-- A call does the same before and after its traversal is put into another environment, if it
opens nested ones in the first. -/
theorem apply_replaceEnvironment {t : Traversal ρ} (h : t.environment = environment)
    (other : Environment ρ) (supply : Supply) (call : Fluent ρ) :
    apply (reopened environment) (t.replaceEnvironment other) call supply =
      ((apply Traversal.toAnonymous t call supply).1.replaceEnvironment other,
        (apply Traversal.toAnonymous t call supply).2) := by
  cases call with
  | nest step body =>
    -- the body is opened in the first environment in both cases
    have hbody := applyAll_reopened (t := t.toAnonymous) h supply body
    rw [apply_nest, apply_nest, reopened_replaceEnvironment h, hbody]
    rfl
  | mapMember expression name =>
    rw [apply_mapMember, apply_mapMember]
    unfold Traversal.tryMapMember Traversal.mapMember
    cases expression.member? <;> rfl
  | _ => rfl

theorem applyAll_replaceEnvironment {t : Traversal ρ} (h : t.environment = environment)
    (other : Environment ρ) (supply : Supply) (calls : List (Fluent ρ)) :
    applyAll (reopened environment) (t.replaceEnvironment other) calls supply =
      ((applyAll Traversal.toAnonymous t calls supply).1.replaceEnvironment other,
        (applyAll Traversal.toAnonymous t calls supply).2) := by
  induction calls generalizing t supply with
  | nil => rfl
  | cons call rest ih =>
    obtain ⟨_, _, hcall⟩ := exists_apply_eq Traversal.toAnonymous t supply call
    rw [applyAll_cons, applyAll_cons, apply_replaceEnvironment h]
    exact ih (by rw [hcall, h]) _

end Reopened

/-- Building a traversal and putting it into another environment is building it there, with all
nested traversals opened in the first one. -/
theorem rebound_eq_reopened (graph : String) (environment other : Environment ρ)
    (calls : List (Fluent ρ)) (supply : Supply) :
    ((built graph environment calls supply).1.replaceEnvironment other,
        (built graph environment calls supply).2) =
      applyAll (reopened environment) (Traversal.create graph other supply).1 calls
        (Traversal.create graph other supply).2 := by
  rw [built_eq]
  exact (applyAll_replaceEnvironment (t := (Traversal.create graph environment supply).1) rfl
    other _ calls).symm

/-! ## Steps that resolve alike -/

/-- The step that a call appends resolves alike in two scopes. -/
def ResolvesAlike (scope scope' : Scope) : Fluent ρ → Prop
  | append step => step.resolve scope = step.resolve scope'
  | _ => True

theorem resolvesAlike_self (scope : Scope) (call : Fluent ρ) :
    call.ResolvesAlike scope scope := by
  cases call with
  | append step => exact rfl
  | _ => trivial

mutual

/-- All steps of all nested traversals resolve alike in two models, with the names that they have
in the end, where `given` are the names given before. -/
def AlikeInside (model model' : Model) (given : List (Member × String)) : Fluent ρ → Prop
  | nest _ body =>
    (∀ call ∈ body, call.ResolvesAlike (Scope.ofGiven model (given ++ givenAll body))
      (Scope.ofGiven model' (given ++ givenAll body))) ∧ AllAlikeInside model model' given body
  | _ => True

def AllAlikeInside (model model' : Model) (given : List (Member × String)) :
    List (Fluent ρ) → Prop
  | [] => True
  | call :: rest =>
    call.AlikeInside model model' given ∧ AllAlikeInside model model' (given ++ call.given) rest

end

mutual

/-- Two traversals whose steps resolve alike, each in its own scope, and so at all levels. -/
inductive Twins : Traversal ρ → Traversal ρ → Prop
  | mk {t t' : Traversal ρ} (hgraph : t.graph = t'.graph)
      (hsteps : TwinSteps t.scope t'.scope t.steps.toList t'.steps.toList) : Twins t t'

inductive TwinSteps : Scope → Scope → List (Step ρ) → List (Step ρ) → Prop
  | nil {scope scope' : Scope} : TwinSteps scope scope' [] []
  | same {scope scope' : Scope} {s : Step ρ} {rest rest' : List (Step ρ)}
      (hstep : s.resolve scope = s.resolve scope') (hrest : TwinSteps scope scope' rest rest') :
      TwinSteps scope scope' (s :: rest) (s :: rest')
  | nest {scope scope' : Scope} {name : String} {t t' : Traversal ρ} {rest rest' : List (Step ρ)}
      (hnested : Twins t t') (hrest : TwinSteps scope scope' rest rest') :
      TwinSteps scope scope' (⟨name, [.traversal t]⟩ :: rest) (⟨name, [.traversal t']⟩ :: rest')

end

namespace TwinSteps

variable {scope scope' : Scope}

theorem append {first first' rest rest' : List (Step ρ)} (h : TwinSteps scope scope' first first')
    (hrest : TwinSteps scope scope' rest rest') :
    TwinSteps scope scope' (first ++ rest) (first' ++ rest') := by
  induction first generalizing first' with
  | nil =>
    cases h
    exact hrest
  | cons s others ih =>
    cases h with
    | same hstep hothers => exact .same hstep (ih hothers)
    | nest hnested hothers => exact .nest hnested (ih hothers)

/-- Twin steps give the same, once related atoms do. -/
theorem mapM_expanded_eq {dispatch : Atom ρ → Draft ρ}
    (hdispatch : ∀ a a', Atom.Related Twins a a' → dispatch a = dispatch a')
    {raw raw' : List (Step ρ)} (h : TwinSteps scope scope' raw raw') :
    raw.mapM (Draft.expanded dispatch scope) = raw'.mapM (Draft.expanded dispatch scope') := by
  apply mapM_eq_of_forall₂
  induction raw generalizing raw' with
  | nil =>
    cases h
    exact .nil
  | cons s rest ih =>
    cases h with
    | same hstep hrest =>
      refine .cons ?_ (ih hrest)
      rw [Draft.expanded, Draft.expanded, hstep]
    | @nest _ _ name t t' _ _ hnested hrest =>
      -- a step with a nested traversal resolves to itself
      have hself : ∀ scope u, Draft.expanded dispatch scope ⟨name, [.traversal u]⟩ =
          [⟨name, [.traversal u]⟩].mapM (m := Except Error) fun r => dispatch (.step r) :=
        fun _ _ => rfl
      have hstep : dispatch (.step ⟨name, [.traversal t]⟩) =
          dispatch (.step ⟨name, [.traversal t']⟩) :=
        hdispatch _ _ (.step ⟨rfl, .cons (.nested hnested) .nil⟩)
      refine .cons ?_ (ih hrest)
      rw [hself, hself, List.mapM_cons, List.mapM_cons, hstep]

end TwinSteps

theorem isSimulation_twins : Traversal.IsSimulation (Twins (ρ := ρ)) := by
  rintro dispatch hdispatch t t' ⟨hgraph, hsteps⟩
  rw [Draft.traversal_eq, Draft.traversal_eq, hgraph, hsteps.mapM_expanded_eq hdispatch]

/-! ## The same calls in two environments -/

/-- To both traversals steps have been appended that are twins in scopes where they resolve
alike. -/
def AppendTwins (alike : Scope → Scope → Prop) (t after t' after' : Traversal ρ) : Prop :=
  ∃ raw raw', after.steps.toList = t.steps.toList ++ raw ∧
    after'.steps.toList = t'.steps.toList ++ raw' ∧
    ∀ scope scope', alike scope scope' → TwinSteps scope scope' raw raw'

theorem AppendTwins.nothing {alike : Scope → Scope → Prop} {t after t' after' : Traversal ρ}
    (h : after.steps = t.steps) (h' : after'.steps = t'.steps) :
    AppendTwins alike t after t' after' := by
  refine ⟨[], [], ?_, ?_, fun _ _ _ => .nil⟩
  · rw [h, List.append_nil]
  · rw [h', List.append_nil]

theorem AppendTwins.addStep {alike : Scope → Scope → Prop} (t t' : Traversal ρ)
    {step step' : Step ρ} (supply supply' : Supply)
    (h : ∀ scope scope', alike scope scope' → TwinSteps scope scope' [step] [step']) :
    AppendTwins alike t (t.addStep step supply).1 t' (t'.addStep step' supply').1 :=
  ⟨[step], [step'], StepList.toList_push .., StepList.toList_push .., h⟩

variable {environment environment' : Environment ρ} {family family' : Nat}

mutual

theorem twins_apply : {given : List (Member × String)} → {drawn : UInt64} →
    {t t' : Traversal ρ} → {supply supply' : Supply} →
    Position environment family given drawn t supply →
    Position environment' family' given drawn t' supply' → (call : Fluent ρ) →
    call.AlikeInside environment.model environment'.model given →
    AppendTwins (fun scope scope' => call.ResolvesAlike scope scope')
      t (apply Traversal.toAnonymous t call supply).1
      t' (apply Traversal.toAnonymous t' call supply').1
  | _, _, t, t', supply, supply', _, _, .append step, _ =>
    AppendTwins.addStep t t' supply supply' fun _ _ h => .same h .nil
  | _, _, t, t', _, _, h, h', .mark, _ => by
    rw [apply_mark, apply_mark, h.label_eq, h'.label_eq]
    exact AppendTwins.addStep t t' _ _ fun _ _ _ => .same rfl .nil
  | given, _, t, t', supply, supply', h, h', .nest step body, hinside => by
    have hbody := h.toAnonymous.after_applyAll body
    have hbody' := h'.toAnonymous.after_applyAll body
    obtain ⟨raw, raw', hsteps, hsteps', htwins⟩ :=
      twins_applyAll h.toAnonymous h'.toAnonymous body hinside.2
    have hnested : Twins (applyAll Traversal.toAnonymous t.toAnonymous body supply).1
        (applyAll Traversal.toAnonymous t'.toAnonymous body supply').1 := by
      refine .mk ?_ ?_
      · rw [graph_applyAll, graph_applyAll]
        rfl
      · -- both have the same names in the end, each with the model of its own environment
        rw [hbody.scope_eq, hbody'.scope_eq, hsteps, hsteps']
        exact htwins _ _ hinside.1
    rw [apply_nest, apply_nest]
    exact AppendTwins.addStep t t' _ _ fun _ _ _ => .nest hnested .nil
  | _, _, t, t', _, _, _, _, .mapMember expression name, _ => by
    obtain ⟨_, hmapped⟩ := t.tryMapMember_eq expression name
    obtain ⟨_, hmapped'⟩ := t'.tryMapMember_eq expression name
    rw [apply_mapMember, apply_mapMember, hmapped, hmapped']
    exact .nothing rfl rfl
  | _, _, _, _, _, _, _, _, .cast, _ => .nothing rfl rfl

/-- The same calls append twin steps in two environments. -/
theorem twins_applyAll : {given : List (Member × String)} → {drawn : UInt64} →
    {t t' : Traversal ρ} → {supply supply' : Supply} →
    Position environment family given drawn t supply →
    Position environment' family' given drawn t' supply' → (calls : List (Fluent ρ)) →
    AllAlikeInside environment.model environment'.model given calls →
    AppendTwins (fun scope scope' => ∀ call ∈ calls, call.ResolvesAlike scope scope')
      t (applyAll Traversal.toAnonymous t calls supply).1
      t' (applyAll Traversal.toAnonymous t' calls supply').1
  | _, _, _, _, _, _, _, _, [], _ => .nothing rfl rfl
  | _, _, t, t', supply, supply', h, h', call :: rest, hinside => by
    obtain ⟨raw, raw', hsteps, hsteps', htwins⟩ := twins_apply h h' call hinside.1
    obtain ⟨more, more', hmore, hmore', htwins'⟩ :=
      twins_applyAll (h.after_apply call) (h'.after_apply call) rest hinside.2
    refine ⟨raw ++ more, raw' ++ more', ?_, ?_, ?_⟩
    · rw [applyAll_cons, hmore, hsteps, List.append_assoc]
    · rw [applyAll_cons, hmore', hsteps', List.append_assoc]
    · intro scope scope' halike
      have hfirst := htwins scope scope' (halike call List.mem_cons_self)
      have hrest := htwins' scope scope' fun c hc => halike c (List.mem_cons_of_mem _ hc)
      exact hfirst.append hrest

end

/-- Put into another environment, a traversal is the twin of what the same calls make there. -/
theorem twins_built (graph : String) {environment other : Environment ρ} {calls : List (Fluent ρ)}
    (h : AllAlikeInside environment.model other.model [] calls) (supply : Supply) :
    Twins ((built graph environment calls supply).1.replaceEnvironment other)
      (built graph other calls supply).1 := by
  have hposition := position_built graph environment calls supply
  have hposition' := position_built graph other calls supply
  obtain ⟨raw, raw', hsteps, hsteps', htwins⟩ := twins_applyAll
    (position_create graph environment supply) (position_create graph other supply) calls h
  -- both traversals are in the other environment, with the same names
  have hscope : ((built graph environment calls supply).1.replaceEnvironment other).scope =
      (built graph other calls supply).1.scope := by
    rw [hposition'.scope_eq, Scope.ofGiven, ← hposition.mappings_eq]
    rfl
  refine .mk ?_ ?_
  · show (built graph environment calls supply).1.graph = _
    rw [built_eq, built_eq, graph_applyAll, graph_applyAll]
    rfl
  · show TwinSteps _ _ (built graph environment calls supply).1.steps.toList _
    rw [hscope, built_eq, built_eq, hsteps, hsteps']
    exact htwins _ _ fun call _ => call.resolvesAlike_self _

/-- Putting a traversal into another environment `other` is making it there, with all nested
traversals opened in the environment before. If the steps of all nested traversals resolve alike in
both models, it compiles to what the same calls make in `other`, be it a script or an error. -/
theorem rebinding_compiles (graph : String) (environment other : Environment ρ)
    (calls : List (Fluent ρ)) (supply : Supply) :
    (built graph environment calls supply).1.replaceEnvironment other =
        (applyAll (reopened environment) (Traversal.create graph other supply).1 calls
          (Traversal.create graph other supply).2).1 ∧
      (AllAlikeInside environment.model other.model [] calls →
        ∀ (d : Dialect ρ), d = .plain ∨ d = .groovy → ∀ inlined,
          d.compile ((built graph environment calls supply).1.replaceEnvironment other) inlined =
            d.compile (built graph other calls supply).1 inlined) := by
  constructor
  · exact congrArg Prod.fst (rebound_eq_reopened graph environment other calls supply)
  · intro h d hd inlined
    have hready : d.IsReady := by
      rcases hd with rfl | rfl
      · exact Dialect.isReady_plain
      · exact Dialect.isReady_plain.withStandard
    have hposition := position_built graph other calls supply
    apply isSimulation_twins.compile_eq hready (twins_built graph h supply)
    rw [hposition.environment_eq]
    rfl

/-- An environment whose model has a key for one member. -/
def keyed : Environment Unit :=
  { model := .schema (({} : Schema).withProperty ⟨"P", "name"⟩ "n"), pipeline := () }

/-- A member that is named in the nested traversal, which then resolves alike whatever the model. -/
def namedInside : List (Fluent Unit) :=
  [.append (.has ⟨"P", "name"⟩ (.int 1)),
    .nest "not"
      [.append (.has ⟨"P", "name"⟩ (.int 2)), .mapMember (.member ⟨"P", "name"⟩) "x"]]

theorem rebinding_compiles_namedInside :
    AllAlikeInside (default : Environment Unit).model keyed.model [] namedInside ∧
      ∀ inlined,
        Dialect.groovy.compile ((built "g" default namedInside {}).1.replaceEnvironment keyed)
            inlined =
          Dialect.groovy.compile (built "g" keyed namedInside {}).1 inlined := by
  have halike : AllAlikeInside (default : Environment Unit).model keyed.model [] namedInside := by
    refine ⟨trivial, ⟨List.forall_mem_cons.mpr ⟨rfl, ?_⟩, trivial, trivial, trivial⟩, trivial⟩
    exact List.forall_mem_singleton.mpr trivial
  obtain ⟨_, hcompile⟩ := rebinding_compiles "g" default keyed namedInside {}
  exact ⟨halike, hcompile halike .groovy (Or.inr rfl)⟩

/-- A nested traversal is compiled for the environment that it was opened in, also after the one
around it has been put into another. -/
theorem rebinding_differs :
    let calls : List (Fluent Unit) := [.nest "not" [.append (.has ⟨"P", "name"⟩ (.int 1))]]
    Dialect.plain.compile ((built "g" default calls {}).1.replaceEnvironment keyed) true =
        .ok ⟨"g.not(__.has(\"name\", 1))", []⟩ ∧
      Dialect.plain.compile (built "g" keyed calls {}).1 true =
        .ok ⟨"g.not(__.has(\"n\", 1))", []⟩ := by
  decide +kernel

end Fluent

end Gremlin
