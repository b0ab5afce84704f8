import Gremlin.Proofs.Bounds
import Gremlin.Proofs.BytecodeScript

/-!
# Nothing is left to be resolved

Resolution looks up all names of a step at once, and what it gives it would give again in any scope.
The encoder and the bytecode have cases for names all the same, which report that they have no
meaning. No traversal gets there:

1. `Step.IsResolved`, `Atom.IsResolved`: what has no names, and only traversals from a given set;
2. `Rule.KeepsResolved`: ready-made rules put nothing else in the place of what is resolved;
3. `Dialect.every_plan_resolved`: so all atoms that are dispatched are resolved, and compiling fails
   for lack of room, with a lookup in a model, or because a rule turns something down;
4. `Bytecode.withinNaming_eq`: bytecode is the same whatever names would be translated to.

`resolution_complete` puts these together.
-/

namespace Gremlin

variable {ρ : Type} {P : Traversal ρ → Prop} {rejects : Error → Prop}

/-! ## Resolved atoms -/

/-- The value is no name, and a traversal only if it is one of `P`. -/
def Value.IsResolved (P : Traversal ρ → Prop) : Value ρ → Prop
  | .member _ | .elementType _ => False
  | .traversal t => P t
  | _ => True

/-- All parameters of the step are resolved. -/
def Step.IsResolved (P : Traversal ρ → Prop) (s : Step ρ) : Prop :=
  ∀ v ∈ s.parameters, v.IsResolved P

def Atom.IsResolved (P : Traversal ρ → Prop) : Atom ρ → Prop
  | .step s => s.IsResolved P
  | .value v => v.IsResolved P

theorem Value.IsResolved.not_isName {v : Value ρ} (h : v.IsResolved P) : ¬ v.IsName := by
  cases v with
  | member | elementType => exact absurd h id
  | _ => exact id

theorem Value.isResolved_of_not_isName {v : Value ρ} (hname : ¬ v.IsName)
    (htraversal : ∀ t, v = .traversal t → P t) : v.IsResolved P := by
  cases v with
  | member | elementType => exact absurd trivial hname
  | traversal t => exact htraversal t rfl
  | _ => trivial

/-- The set has what is nested in its traversals. -/
def Traversal.IsClosed (P : Traversal ρ → Prop) : Prop :=
  ∀ t u, P t → (∃ s ∈ t.steps.toList, s.Holds u) → P u

/-- What a step of a traversal from a closed set resolves to is resolved. -/
theorem Step.isResolved_of_resolve (hclosed : Traversal.IsClosed P) {t : Traversal ρ} (ht : P t)
    {s : Step ρ} (hs : s ∈ t.steps.toList) {rs : List (Step ρ)} (h : s.resolve t.scope = .ok rs) :
    ∀ r ∈ rs, r.IsResolved P := by
  intro r hr v hv
  apply Value.isResolved_of_not_isName (not_isName_of_resolve h r hr v hv)
  rintro u rfl
  exact hclosed t u ht ⟨s, hs, holds_of_resolve h hr hv⟩

/-! ## Rules -/

/-- What a ready-made rule may do with resolved atoms: put resolved ones in their place, or turn
them down with certain errors. -/
structure Rule.KeepsResolved (P : Traversal ρ → Prop) (rejects : Error → Prop) (rule : Rule ρ) :
    Prop where
  ready : rule.isReady = true
  substitute : ∀ options a b, a.IsResolved P → rule.verdict options a = .substitute b →
    b.IsResolved P
  reject : ∀ options a e, rule.verdict options a = .reject e → rejects e

namespace StepRule

/-- What is put in the place of a step has parameters of that step, or integers, or it is what the
rule has for every step. -/
theorem isResolved_of_substitute? {mode : Mode} {s r : Step ρ} {rule : StepRule ρ}
    (hreplaced : ∀ step, rule = .replaced step → step.IsResolved P) (hs : s.IsResolved P)
    (h : rule.substitute? mode s = some r) : r.IsResolved P := by
  cases rule with
  | absentForNull =>
    simp only [substitute?] at h
    split at h
    · rename_i key hparameters
      injection h with h
      rw [← h]
      -- the key that is asked for is a parameter of the step
      intro v hv
      apply hs
      rw [hparameters, List.mem_singleton.mp hv]
      exact List.mem_cons_self
    · contradiction
  | nothingForNoLabel =>
    rcases Option.ite_none_right_eq_some.mp h with ⟨_, h⟩
    injection h with h
    rw [← h]
    intro v hv
    simp [Step.nothing, Step.bare] at hv
  | dropSingle =>
    simp only [substitute?] at h
    split at h
    · rename_i word rest hparameters
      rcases Option.ite_none_right_eq_some.mp h with ⟨_, h⟩
      injection h with h
      rw [← h]
      intro v hv
      apply hs
      rw [hparameters]
      exact List.mem_cons_of_mem _ hv
    · contradiction
  | rangeForSkip =>
    rcases Option.map_eq_some_iff.mp h with ⟨n, _, rfl⟩
    -- the bounds of a range are integers
    intro v hv
    simp only [Step.range, List.mem_cons, List.not_mem_nil, or_false] at hv
    rcases hv with rfl | rfl <;> trivial
  | replaced step =>
    injection h with h
    rw [← h]
    exact hreplaced step rfl
  | atMost max => contradiction
  | program actions => contradiction

theorem exists_of_verdict_eq_substitute {options : Options} {s : Step ρ} {rule : StepRule ρ}
    {b : Atom ρ} (h : rule.verdict options s = .substitute b) :
    ∃ r, rule.substitute? ⟨false, options⟩ s = some r ∧ b = .step r := by
  cases rule with
  | atMost max =>
    simp only [verdict] at h
    split at h <;> contradiction
  | _ =>
    simp only [verdict] at h
    split at h
    · rename_i r hr
      injection h with h
      exact ⟨r, hr, h.symm⟩
    · contradiction

theorem keepsResolved {rule : StepRule ρ} (hready : (Rule.step rule).isReady = true)
    (hreplaced : ∀ step, rule = .replaced step → step.IsResolved P)
    (hrejects : ∀ max, rule = .atMost max → ∀ context n, rejects (.valueRange context n max)) :
    (Rule.step rule).KeepsResolved P rejects := by
  refine ⟨hready, ?_, ?_⟩
  · rintro options (s | v) b ha h
    · rcases exists_of_verdict_eq_substitute h with ⟨r, hr, rfl⟩
      exact isResolved_of_substitute? hreplaced ha hr
    · contradiction
  · rintro options (s | v) e h
    · rcases exists_of_verdict_eq_reject h with ⟨max, n, hrule, rfl⟩
      exact hrejects max hrule _ n
    · contradiction

end StepRule

theorem ValueRule.keepsResolved_narrowed
    (hrejects : ∀ context n max, rejects (.valueRange context n max)) :
    (Rule.value .narrowed : Rule ρ).KeepsResolved P rejects := by
  refine ⟨rfl, ?_, ?_⟩
  · rintro options (s | v) b _ h
    · contradiction
    · cases v with
      | long n =>
        simp only [Rule.verdict, verdict] at h
        split at h
        · injection h with h
          rw [← h]
          trivial
        · contradiction
      | _ => contradiction
  · intro options a e h
    rcases Rule.exists_of_verdict_eq_reject h with ⟨context, n, max, rfl⟩
    exact hrejects context n max

/-- All rules of the dialect keep atoms resolved. -/
def Dialect.KeepsResolved (P : Traversal ρ → Prop) (rejects : Error → Prop) (d : Dialect ρ) :
    Prop :=
  ∀ layer ∈ d.layers, layer.2.KeepsResolved P rejects

namespace Dialect

theorem keepsResolved_plain : (plain : Dialect ρ).KeepsResolved P rejects := by
  intro layer hlayer
  simp [plain] at hlayer

theorem KeepsResolved.withRules {d : Dialect ρ} (hd : d.KeepsResolved P rejects)
    {rules : List (Tag × Rule ρ)} (hrules : ∀ layer ∈ rules, layer.2.KeepsResolved P rejects) :
    (d.withRules rules).KeepsResolved P rejects :=
  List.forall_mem_append.mpr ⟨hd, hrules⟩

/-- The standard rules turn nothing down. -/
theorem keepsResolved_groovy : (groovy : Dialect ρ).KeepsResolved P rejects := by
  apply keepsResolved_plain.withRules
  intro layer hlayer
  simp only [standardRules, List.mem_cons, List.not_mem_nil, or_false] at hlayer
  rcases hlayer with rfl | rfl | rfl
  all_goals exact StepRule.keepsResolved rfl (by simp) (by simp)

theorem keepsResolved_cosmos [Inhabited ρ] (hdropping : ∀ u, dropEverything.Holds u → P u)
    (hrejects : ∀ context n max, rejects (.valueRange context n max)) :
    (cosmos : Dialect ρ).KeepsResolved P rejects := by
  apply keepsResolved_groovy.withRules
  intro layer hlayer
  have hcount : (Rule.step (.atMost maxInt32) : Rule ρ).KeepsResolved P rejects :=
    StepRule.keepsResolved rfl (by simp) fun max _ context n => hrejects context n max
  simp only [cosmosRules, List.mem_cons, List.not_mem_nil, or_false] at hlayer
  rcases hlayer with rfl | rfl | rfl | rfl | rfl | rfl
  · exact StepRule.keepsResolved rfl (by simp) (by simp)
  · -- the step in the place of all others has the dropping filter for its one parameter
    refine StepRule.keepsResolved rfl ?_ (by simp)
    rintro step hstep v hv
    injection hstep with hstep
    rw [← hstep] at hv
    have htraversal := List.mem_singleton.mp hv
    rw [htraversal] at hv ⊢
    exact hdropping _ (.parameter hv)
  · exact hcount
  · exact hcount
  · exact hcount
  · exact ValueRule.keepsResolved_narrowed hrejects

end Dialect

/-! ## Compiling -/

/-- Where an error comes from: there was no room left, a lookup in the model of one of the
traversals, or a rule. -/
inductive Error.ComesFrom (P : Traversal ρ → Prop) (rejects : Error → Prop) (e : Error) : Prop
  | bound (depth : Nat) (h : e = .serializationLoop depth)
  | model {u : Traversal ρ} (hu : P u) (h : u.environment.model.Raises e)
  | rule (h : rejects e)

/-- The atom that someone works on is resolved. -/
def Invocation.IsResolved (P : Traversal ρ → Prop) (i : Invocation ρ) : Prop := i.atom.IsResolved P

/-- Encoding a resolved atom dispatches resolved atoms, and fails with a lookup only. -/
theorem Encoding.every_atomPlan_resolved (hclosed : Traversal.IsClosed P) {plan : Atom ρ → Plan ρ}
    (hplan : ∀ a, a.IsResolved P → (plan a).Every (Invocation.IsResolved P) (·.ComesFrom P rejects))
    {a : Atom ρ} (ha : a.IsResolved P) :
    (atomPlan plan a).Every (Invocation.IsResolved P) (·.ComesFrom P rejects) := by
  cases a with
  | step s => exact every_stepPlan fun v hv => hplan (.value v) (ha v hv)
  | value v =>
    cases v with
    | traversal t =>
      refine ⟨trivial, every_stepsPlan ?_ ?_ _⟩
      · intro s hs rs hresolve r hr
        exact hplan (.step r) (Step.isResolved_of_resolve hclosed ha hs hresolve r hr)
      · intro s _ e hresolve
        exact .model ha (Step.raises_of_resolve hresolve)
    | member | elementType => exact absurd ha id
    | _ => trivial

namespace Dispatch

theorem every_proceedPlan_resolved (hclosed : Traversal.IsClosed P) {mode : Mode}
    {restart : List Hop → Nat → Atom ρ → Plan ρ}
    (hrestart : ∀ path depth a, a.IsResolved P →
      (restart path depth a).Every (Invocation.IsResolved P) (·.ComesFrom P rejects))
    {rules : List (Rule ρ)} (hrules : ∀ rule ∈ rules, rule.KeepsResolved P rejects) (depth : Nat)
    (path : List Hop) {a : Atom ρ} (ha : a.IsResolved P) :
    (proceedPlan mode restart depth path rules a).Every (Invocation.IsResolved P)
      (·.ComesFrom P rejects) := by
  induction rules generalizing path with
  | nil =>
    refine ⟨ha, Encoding.every_atomPlan_resolved hclosed ?_ ha⟩
    intro b hb
    exact hrestart _ depth b hb
  | cons rule below ih =>
    rcases List.forall_mem_cons.mp hrules with ⟨hrule, hbelow⟩
    refine ⟨ha, ?_⟩
    -- a ready-made rule runs no program, so its verdict is all that it does
    rw [Rule.plan, Rule.program?_of_isReady hrule.ready]
    cases hverdict : rule.verdict mode.options a with
    | pass => exact ih hbelow _
    | reject e => exact .rule (hrule.reject _ _ _ hverdict)
    | substitute b =>
      simp only [Plan.Chain.follow]
      split
      · exact .bound _ rfl
      · exact hrestart _ _ b (hrule.substitute _ _ _ ha hverdict)

theorem every_plan_resolved (hclosed : Traversal.IsClosed P) {d : Dialect ρ}
    (hd : d.KeepsResolved P rejects) (mode : Mode) (room : Nat) (path : List Hop) (depth : Nat)
    {a : Atom ρ} (ha : a.IsResolved P) :
    (plan d mode room path depth a).Every (Invocation.IsResolved P) (·.ComesFrom P rejects) := by
  induction room generalizing path depth a with
  | zero => exact .bound _ rfl
  | succ room ih =>
    refine every_proceedPlan_resolved hclosed (fun path depth _ ha => ih path depth ha) ?_ depth
      path ha
    intro rule hrule
    exact hd (_, rule) (Dialect.mem_chain.mp hrule)

end Dispatch

/-- The one traversal in the filter that keeps nothing for CosmosDb. -/
theorem Dialect.eq_of_holds_dropEverything [Inhabited ρ] {u : Traversal ρ}
    (h : dropEverything.Holds u) :
    u = ⟨Traversal.anonymousGraph, ⟨[⟨0, Step.identity⟩]⟩, default, 0, ∅⟩ := by
  rcases h with h | ⟨he, _⟩
  · injection List.mem_singleton.mp h
  · exact absurd (List.mem_singleton.mp he) nofun

namespace Traversal

/-- The traversals that compiling may come to: those that are reached, and the one that rules may
bring in. -/
def Meets [Inhabited ρ] (t u : Traversal ρ) : Prop := t.Reaches u ∨ Dialect.dropEverything.Holds u

theorem isClosed_meets [Inhabited ρ] (t : Traversal ρ) : IsClosed t.Meets := by
  rintro u w (hu | hu) hw
  · exact Or.inl (hu.tail hw)
  · -- what rules bring in has one step, which has no parameters
    rcases hw with ⟨s, hs, hw⟩
    rw [Dialect.eq_of_holds_dropEverything hu] at hs
    rw [List.mem_singleton.mp hs] at hw
    rcases hw with hw | ⟨he, _⟩
    · exact absurd hw List.not_mem_nil
    · exact absurd he List.not_mem_nil

/-- What rules bring in has the dynamic model. -/
theorem Meets.reaches [Inhabited ρ] {t u : Traversal ρ} (h : t.Meets u) {e : Error}
    (hraises : u.environment.model.Raises e) : t.Reaches u := by
  rcases h with hu | hu
  · exact hu
  · rw [Dialect.eq_of_holds_dropEverything hu] at hraises
    exact absurd hraises (Model.not_raises_dynamic e)

end Traversal

namespace Dialect

variable [Inhabited ρ] {d : Dialect ρ} {t : Traversal ρ} {inlined : Bool}

theorem every_plan_resolved (hd : d.KeepsResolved t.Meets rejects) (inlined : Bool) :
    (d.plan t inlined).Every (Invocation.IsResolved t.Meets) (·.ComesFrom t.Meets rejects) :=
  Dispatch.every_plan_resolved (a := .value (.traversal t)) t.isClosed_meets hd _ _ [] 0
    (Or.inl .refl)

/-- The rules and the encoder are given no names. -/
theorem not_isName_of_invocation (hd : d.KeepsResolved t.Meets rejects) :
    ∀ i ∈ d.invocations t inlined, ∀ v, i.atom = .value v → ¬ v.IsName := by
  intro i hi v hv
  have hresolved : i.atom.IsResolved t.Meets := (every_plan_resolved hd inlined).trace {} i hi
  rw [hv] at hresolved
  exact Value.IsResolved.not_isName hresolved

/-- Compiling fails for lack of room, because a rule turns something down, or with a lookup. -/
theorem error_of_compile (hd : d.KeepsResolved t.Meets rejects) {e : Error}
    (h : d.compile t inlined = .error e) :
    (∃ depth, e = .serializationLoop depth) ∨ rejects e ∨
      ∃ u, t.Reaches u ∧ u.environment.model.Raises e := by
  have hfrom := (every_plan_resolved hd inlined).error (d.run_plan_of_compile_eq_error t inlined h)
  cases hfrom with
  | bound depth h => exact Or.inl ⟨depth, h⟩
  | rule h => exact Or.inr (Or.inl h)
  | model hu h => exact Or.inr (Or.inr ⟨_, hu.reaches h, h⟩)

end Dialect

/-! ## Bytecode -/

namespace Bytecode

section Naming

variable (named : Value ρ → Except Error Argument)

/-- The argument for a parameter, where `named` says what becomes of names. -/
def argumentNaming (nested : Traversal ρ → Except Error Bytecode) :
    Value ρ → Except Error Argument
  | .member m => named (.member m)
  | .elementType t => named (.elementType t)
  | v => argument nested v

def instructionNaming (nested : Traversal ρ → Except Error Bytecode) (s : Step ρ) :
    Except Error Instruction :=
  (s.parameters.mapM (argumentNaming named nested)).map (⟨s.name, ·⟩)

def expandedNaming (nested : Traversal ρ → Except Error Bytecode) (scope : Scope) (s : Step ρ) :
    Except Error (List Instruction) := do
  (← s.resolve scope).mapM (instructionNaming named nested)

/-- The bytecode of a traversal with fewer than `levels` levels below it, where `named` says what
becomes of names. -/
def withinNaming : (levels : Nat) → Traversal ρ → Except Error Bytecode
  | 0, _ => .ok ⟨[], []⟩
  | levels + 1, t =>
    ((t.steps.toList.mapM (expandedNaming named (withinNaming levels) t.scope)).map
      List.flatten).map ofInstructions

theorem argumentNaming_eq (nested : Traversal ρ → Except Error Bytecode) {v : Value ρ}
    (h : ¬ v.IsName) : argumentNaming named nested v = argument nested v := by
  cases v with
  | member | elementType => exact absurd trivial h
  | _ => rfl

theorem expandedNaming_eq (nested : Traversal ρ → Except Error Bytecode) (scope : Scope)
    (s : Step ρ) : expandedNaming named nested scope s = expanded nested scope s := by
  unfold expandedNaming expanded
  cases hresolve : s.resolve scope with
  | error e => rfl
  | ok rs =>
    apply mapM_congr
    intro r hr
    have harguments : r.parameters.mapM (argumentNaming named nested) =
        r.parameters.mapM (argument nested) := by
      apply mapM_congr
      intro v hv
      exact argumentNaming_eq named nested (Step.not_isName_of_resolve hresolve r hr v hv)
    rw [instructionNaming, instruction, arguments_eq_mapM, harguments]

/-- What becomes of names makes no difference. -/
theorem withinNaming_eq (levels : Nat) (t : Traversal ρ) :
    withinNaming named levels t = within levels t := by
  induction levels generalizing t with
  | zero => rfl
  | succ levels ih =>
    have hnested : withinNaming named levels = within levels := funext ih
    have hexpanded : expandedNaming named (within levels) t.scope =
        expanded (within levels) t.scope := funext (expandedNaming_eq named _ t.scope)
    rw [withinNaming, within, resolved_eq_mapM, hnested, hexpanded]

end Naming

/-- Translation fails with a lookup in a model only. -/
theorem raises_of_bytecode {t : Traversal ρ} {e : Error} (h : t.bytecode = .error e) :
    ∃ u, t.Reaches u ∧ u.environment.model.Raises e := by
  -- the tree fails with the same error, and there is nothing but lookups to fail with
  have hagree := agree_within (t.nesting + 1) t
  rw [Traversal.bytecode] at h
  rw [h] at hagree
  cases htree : Tree.within (t.nesting + 1) t with
  | ok x =>
    rw [htree] at hagree
    exact absurd hagree id
  | error e' =>
    rw [htree] at hagree
    have heq : e' = e := hagree
    rw [heq] at htree
    exact Tree.raises_of_within htree

end Bytecode

/-! ## Whole traversals -/

/-- Resolution is complete and idempotent. What a step resolves to has no names among its
parameters, and resolves to itself alone in every scope. So the encoder is given no names, the
translation to bytecode does not ask what becomes of names, and what has no meaning is reported by a
lookup in the model of a traversal that is nested in the whole. If all these models are dynamic,
compiling fails for lack of room only, or with a number out of range for CosmosDb, and translating
to bytecode does not fail. -/
theorem resolution_complete [Inhabited ρ] :
    (∀ (s : Step ρ) (scope : Scope) (rs : List (Step ρ)), s.resolve scope = .ok rs → ∀ r ∈ rs,
      (∀ v ∈ r.parameters, ¬ v.IsName) ∧ ∀ scope', r.resolve scope' = .ok [r]) ∧
    (∀ (t : Traversal ρ) (d : Dialect ρ), d = .plain ∨ d = .groovy ∨ d = .cosmos → ∀ inlined,
      d.compile t inlined = ((d.plan t inlined).run ⟨inlined, t.environment.options⟩).script ∧
      (∀ i ∈ d.invocations t inlined, ∀ v, i.atom = .value v → ¬ v.IsName) ∧
      ∀ identifier, d.compile t inlined = .error (.unknownMapping identifier) →
        ∃ u, t.Reaches u ∧ u.environment.model.Raises (.unknownMapping identifier)) ∧
    (∀ t : Traversal ρ,
      (∀ named, Bytecode.withinNaming named (t.nesting + 1) t = t.bytecode) ∧
      ∀ identifier, t.bytecode = .error (.unknownMapping identifier) →
        ∃ u, t.Reaches u ∧ u.environment.model.Raises (.unknownMapping identifier)) ∧
    ∀ t : Traversal ρ, (∀ u, t.Reaches u → u.environment.model = .dynamic) →
      (∀ d : Dialect ρ, d = .plain ∨ d = .groovy → ∀ inlined e, d.compile t inlined = .error e →
        ∃ depth, e = .serializationLoop depth) ∧
      (∀ inlined e, Dialect.cosmos.compile t inlined = .error e →
        (∃ depth, e = .serializationLoop depth) ∨
          ∃ context n max, e = .valueRange context n max) ∧
      ∃ code, t.bytecode = .ok code := by
  have hcosmos : ∀ t : Traversal ρ, Dialect.cosmos.KeepsResolved t.Meets
      fun e => ∃ context n max, e = .valueRange context n max :=
    fun t => Dialect.keepsResolved_cosmos (fun _ hu => Or.inr hu)
      fun context n max => ⟨context, n, max, rfl⟩
  have hmodel : ∀ {t : Traversal ρ}, (∀ u, t.Reaches u → u.environment.model = .dynamic) →
      ∀ {e}, ¬ ∃ u, t.Reaches u ∧ u.environment.model.Raises e := by
    rintro t hdynamic e ⟨u, hu, hraises⟩
    rw [hdynamic u hu] at hraises
    exact Model.not_raises_dynamic e hraises
  refine ⟨?_, ?_, ?_, ?_⟩
  · intro s scope rs h r hr
    have hnames := Step.not_isName_of_resolve h r hr
    exact ⟨hnames, fun scope' => Step.resolve_eq_self (Step.request_of_resolve h hr) hnames⟩
  · intro t d hd inlined
    have hkeeps : d.KeepsResolved t.Meets
        fun e => ∃ context n max, e = .valueRange context n max := by
      rcases hd with rfl | rfl | rfl
      · exact Dialect.keepsResolved_plain
      · exact Dialect.keepsResolved_groovy
      · exact hcosmos t
    refine ⟨d.compile_eq_run_plan t inlined, Dialect.not_isName_of_invocation hkeeps, ?_⟩
    intro identifier h
    rcases Dialect.error_of_compile hkeeps h with ⟨_, hloop⟩ | ⟨_, _, _, hrange⟩ | hraised
    · contradiction
    · contradiction
    · exact hraised
  · intro t
    exact ⟨fun named => Bytecode.withinNaming_eq named _ t,
      fun _ h => Bytecode.raises_of_bytecode h⟩
  · intro t hdynamic
    refine ⟨?_, ?_, ?_⟩
    · intro d hd inlined e h
      -- these rules turn nothing down
      have hkeeps : d.KeepsResolved t.Meets fun _ => False := by
        rcases hd with rfl | rfl
        · exact Dialect.keepsResolved_plain
        · exact Dialect.keepsResolved_groovy
      rcases Dialect.error_of_compile hkeeps h with hloop | hrejected | hraised
      · exact hloop
      · exact absurd hrejected id
      · exact absurd hraised (hmodel hdynamic)
    · intro inlined e h
      rcases Dialect.error_of_compile (hcosmos t) h with hloop | hrange | hraised
      · exact Or.inl hloop
      · exact Or.inr hrange
      · exact absurd hraised (hmodel hdynamic)
    · cases h : t.bytecode with
      | ok code => exact ⟨code, rfl⟩
      | error e => exact absurd (Bytecode.raises_of_bytecode h) (hmodel hdynamic)

end Gremlin
