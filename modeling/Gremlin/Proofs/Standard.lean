import Gremlin.Proofs.Rewriting

/-!
# The standard dialect

The standard rules normalise: a filter for the value null becomes one for the absence of the key,
a label filter without labels becomes one that keeps nothing, and leading tokens `single` are
dropped from property steps where the options ask for it. A rule takes one step of this and
dispatches the result from the top (`Tree.Step.normalize?`); the normal form is reached when no
rule has anything to do.

`groovy_compile_eq_normal` says that compiling in the standard dialect is compiling the normal
form in the plain one.
-/

namespace Gremlin

variable {ρ : Type}

/-! ## Normal forms -/

namespace Tree

/-- The value null. -/
def Part.isNull : Tree.Part ρ → Bool
  | .value b => b.val.isNull
  | _ => false

/-- The token `single`. -/
def Part.isSingle : Tree.Part ρ → Bool
  | .token word => word == "single"
  | _ => false

/-- The normal form of a step: no filter for null, no label filter without labels, and no leading
`single` on property steps if that is left out. -/
def Step.normal (omitSingle : Bool) (s : Tree.Step ρ) : Tree.Step ρ :=
  if s.name = "has" then
    match s.parts with
    | [p, q] => if q.isNull then ⟨"hasNot", [p]⟩ else s
    | _ => s
  else if s.name = "hasLabel" then
    match s.parts with
    | [] => ⟨"none", []⟩
    | _ => s
  else if s.name = "property" ∧ omitSingle = true then
    ⟨s.name, s.parts.dropWhile Part.isSingle⟩
  else s

/-- The tree with all steps in normal form. -/
def normal (omitSingle : Bool) (x : Tree ρ) : Tree ρ := x.rewrite (Step.normal omitSingle) id

/-! ### Steps of normalising -/

/-- What is written for a filter with the parameters if it is one for null. -/
def absence? : List (Tree.Part ρ) → Option (Tree.Step ρ)
  | [p, q] => if q.isNull then some ⟨"hasNot", [p]⟩ else none
  | _ => none

/-- What is written for a label filter if there are no labels. -/
def nothing? : List (Tree.Part ρ) → Option (Tree.Step ρ)
  | [] => some ⟨"none", []⟩
  | _ :: _ => none

/-- What is written for a property step if there is a `single` to be left out. -/
def unsingled? (omitSingle : Bool) : List (Tree.Part ρ) → Option (Tree.Step ρ)
  | p :: rest => if p.isSingle ∧ omitSingle = true then some ⟨"property", rest⟩ else none
  | [] => none

/-- One step of normalising, if there is one to be taken. -/
def Step.normalize? (omitSingle : Bool) (s : Tree.Step ρ) : Option (Tree.Step ρ) :=
  if s.name = "has" then absence? s.parts
  else if s.name = "hasLabel" then nothing? s.parts
  else if s.name = "property" then unsingled? omitSingle s.parts
  else none

theorem absence?_cases {parts : List (Tree.Part ρ)} {r : Tree.Step ρ}
    (h : absence? parts = some r) :
    ∃ p q, q.isNull = true ∧ parts = [p, q] ∧ r = ⟨"hasNot", [p]⟩ := by
  rcases parts with _ | ⟨p, _ | ⟨q, _ | ⟨_, _⟩⟩⟩
  · contradiction
  · contradiction
  · rcases Option.ite_none_right_eq_some.mp h with ⟨hnull, hr⟩
    injection hr with hr
    exact ⟨p, q, hnull, rfl, hr.symm⟩
  · contradiction

theorem nothing?_cases {parts : List (Tree.Part ρ)} {r : Tree.Step ρ}
    (h : nothing? parts = some r) : parts = [] ∧ r = ⟨"none", []⟩ := by
  rcases parts with _ | ⟨p, rest⟩
  · injection h with h
    exact ⟨rfl, h.symm⟩
  · contradiction

theorem unsingled?_cases {omitSingle : Bool} {parts : List (Tree.Part ρ)} {r : Tree.Step ρ}
    (h : unsingled? omitSingle parts = some r) :
    ∃ p rest, p.isSingle = true ∧ omitSingle = true ∧ parts = p :: rest ∧
      r = ⟨"property", rest⟩ := by
  rcases parts with _ | ⟨p, rest⟩
  · contradiction
  · rcases Option.ite_none_right_eq_some.mp h with ⟨⟨hsingle, homit⟩, hr⟩
    injection hr with hr
    exact ⟨p, rest, hsingle, homit, rfl, hr.symm⟩

/-- Everything that a step of normalising may be. -/
theorem Step.normalize?_cases {omitSingle : Bool} {s r : Tree.Step ρ}
    (h : s.normalize? omitSingle = some r) :
    (∃ p q, q.isNull = true ∧ s = ⟨"has", [p, q]⟩ ∧ r = ⟨"hasNot", [p]⟩) ∨
      (s = ⟨"hasLabel", []⟩ ∧ r = ⟨"none", []⟩) ∨
      ∃ p rest, p.isSingle = true ∧ omitSingle = true ∧ s = ⟨"property", p :: rest⟩ ∧
        r = ⟨"property", rest⟩ := by
  rcases s with ⟨name, parts⟩
  unfold Step.normalize? at h
  simp only at h
  by_cases hhas : name = "has"
  · rw [if_pos hhas] at h
    rcases absence?_cases h with ⟨p, q, hnull, hparts, hr⟩
    exact Or.inl ⟨p, q, hnull, by rw [hhas, hparts], hr⟩
  rw [if_neg hhas] at h
  by_cases hlabel : name = "hasLabel"
  · rw [if_pos hlabel] at h
    rcases nothing?_cases h with ⟨hparts, hr⟩
    exact Or.inr (Or.inl ⟨by rw [hlabel, hparts], hr⟩)
  rw [if_neg hlabel] at h
  rcases Option.ite_none_right_eq_some.mp h with ⟨hproperty, h⟩
  rcases unsingled?_cases h with ⟨p, rest, hsingle, homit, hparts, hr⟩
  exact Or.inr (Or.inr ⟨p, rest, hsingle, homit, by rw [hproperty, hparts], hr⟩)

/-- A step of normalising does not change the normal form. -/
theorem Step.normal_of_normalize? {omitSingle : Bool} {s r : Tree.Step ρ}
    (h : s.normalize? omitSingle = some r) : s.normal omitSingle = r.normal omitSingle := by
  rcases normalize?_cases h with ⟨p, q, hnull, rfl, rfl⟩ | ⟨rfl, rfl⟩ |
    ⟨p, rest, hsingle, rfl, rfl, rfl⟩
  · simp [normal, hnull]
  · simp [normal]
  · -- one `single` less to be dropped
    simp [normal, hsingle]

/-- A step that no step of normalising can be taken from is in normal form. -/
theorem Step.normal_eq_self {omitSingle : Bool} {s : Tree.Step ρ}
    (h : s.normalize? omitSingle = none) : s.normal omitSingle = s := by
  rcases s with ⟨name, parts⟩
  unfold Step.normalize? at h
  unfold Step.normal
  simp only at h ⊢
  by_cases hhas : name = "has"
  · rw [if_pos hhas] at h ⊢
    rcases parts with _ | ⟨p, _ | ⟨q, _ | ⟨_, _⟩⟩⟩
    · rfl
    · rfl
    · have hnull : ¬ q.isNull = true := by simpa [absence?] using h
      simp [hnull]
    · rfl
  rw [if_neg hhas] at h ⊢
  by_cases hlabel : name = "hasLabel"
  · rw [if_pos hlabel] at h ⊢
    rcases parts with _ | ⟨p, rest⟩
    · contradiction
    · rfl
  rw [if_neg hlabel] at h ⊢
  by_cases hproperty : name = "property" ∧ omitSingle = true
  · rw [if_pos hproperty.1] at h
    rw [if_pos hproperty]
    rcases parts with _ | ⟨p, rest⟩
    · rfl
    · -- nothing is dropped, since the first parameter stays
      have hsingle : ¬ p.isSingle = true := by simpa [unsingled?, hproperty.2] using h
      rw [List.dropWhile_cons_of_neg hsingle]
  · rw [if_neg hproperty]

/-- Everything that a normal form may be. -/
theorem Step.normal_cases (omitSingle : Bool) (s : Tree.Step ρ) :
    s.normal omitSingle = s ∨
      (∃ p q, q.isNull = true ∧ s = ⟨"has", [p, q]⟩ ∧ s.normal omitSingle = ⟨"hasNot", [p]⟩) ∨
      (s = ⟨"hasLabel", []⟩ ∧ s.normal omitSingle = ⟨"none", []⟩) ∨
      (s.name = "property" ∧
        s.normal omitSingle = ⟨"property", s.parts.dropWhile Part.isSingle⟩) := by
  cases h : s.normalize? omitSingle with
  | none => exact Or.inl (normal_eq_self h)
  | some r =>
    rcases normalize?_cases h with ⟨p, q, hnull, rfl, rfl⟩ | ⟨rfl, rfl⟩ |
      ⟨p, rest, hsingle, rfl, rfl, rfl⟩
    · exact Or.inr (Or.inl ⟨p, q, hnull, rfl, by simp [normal, hnull]⟩)
    · exact Or.inr (Or.inr (Or.inl ⟨rfl, by simp [normal]⟩))
    · exact Or.inr (Or.inr (Or.inr ⟨rfl, by simp [normal]⟩))

/-- What holds of the steps that are kept, and of those that normalising makes, holds at every
level of the normal form. -/
theorem every_normal {omitSingle : Bool} {before after : Tree.Step ρ → Prop}
    (hkept : ∀ s, before s → after (s.rewriteBelow (Step.normal omitSingle) id))
    (hmade : ∀ s : Tree.Step ρ, s.name ∈ ["hasNot", "property"] → after s)
    (hnothing : before ⟨"hasLabel", []⟩ → after ⟨"none", []⟩) {x : Tree ρ}
    (h : x.Every before fun _ => True) : (x.normal omitSingle).Every after fun _ => True := by
  refine every_rewrite ?_ (fun _ _ => trivial) x h
  intro s hs hbelow
  have hafter := hkept s hs
  rcases s with ⟨name, parts⟩
  rw [everyPart_iff] at hbelow
  rcases Step.normal_cases omitSingle (Step.rewriteBelow _ id ⟨name, parts⟩) with heq |
    ⟨p, q, _, hs', heq⟩ | ⟨hs', heq⟩ | ⟨_, heq⟩
  · rw [heq]
    exact ⟨hafter, (everyPart_iff _ _ _).mpr hbelow⟩
  · -- the filter is replaced, and its key is what is left of the parameters
    rw [hs'] at hbelow
    rw [heq]
    exact ⟨hmade _ (by simp), hbelow p (by simp), trivial⟩
  · -- a label filter without labels has had none before either
    injection hs' with hname hparts
    have hname : name = "hasLabel" := hname
    have hparts : parts = [] := List.map_eq_nil_iff.mp hparts
    rw [hname, hparts] at hs
    rw [heq]
    exact ⟨hnothing hs, trivial⟩
  · rw [heq]
    refine ⟨hmade _ (by simp), (everyPart_iff _ _ _).mpr ?_⟩
    intro p hp
    exact hbelow p (List.dropWhile_subset _ hp)

/-! ### Normalising and rewriting parameters -/

section Below

variable (onStep : Tree.Step ρ → Tree.Step ρ) (onValue : Bindable ρ → Bindable ρ)

theorem Part.isSingle_rewrite (p : Tree.Part ρ) :
    (p.rewrite onStep onValue).isSingle = p.isSingle := by
  cases p <;> rfl

theorem Part.isNull_rewrite (hnull : ∀ b, (onValue b).val.isNull = b.val.isNull)
    (p : Tree.Part ρ) : (p.rewrite onStep onValue).isNull = p.isNull := by
  cases p with
  | value b => exact hnull b
  | _ => rfl

theorem absence?_map (hnull : ∀ b, (onValue b).val.isNull = b.val.isNull)
    (parts : List (Tree.Part ρ)) :
    absence? (parts.map (Part.rewrite onStep onValue)) =
      (absence? parts).map (Step.rewriteBelow onStep onValue) := by
  rcases parts with _ | ⟨p, _ | ⟨q, _ | ⟨_, _⟩⟩⟩
  · rfl
  · rfl
  · simp only [List.map_cons, List.map_nil, absence?, Part.isNull_rewrite onStep onValue hnull]
    cases q.isNull <;> rfl
  · rfl

theorem unsingled?_map (omitSingle : Bool) (parts : List (Tree.Part ρ)) :
    unsingled? omitSingle (parts.map (Part.rewrite onStep onValue)) =
      (unsingled? omitSingle parts).map (Step.rewriteBelow onStep onValue) := by
  rcases parts with _ | ⟨p, rest⟩
  · rfl
  · simp only [List.map_cons, unsingled?, Part.isSingle_rewrite]
    by_cases hsingle : p.isSingle = true ∧ omitSingle = true
    · rw [if_pos hsingle, if_pos hsingle]
      rfl
    · rw [if_neg hsingle, if_neg hsingle]
      rfl

/-- Rewriting parameters commutes with a step of normalising unless it makes or removes nulls. -/
theorem Step.normalize?_rewriteBelow (hnull : ∀ b, (onValue b).val.isNull = b.val.isNull)
    (omitSingle : Bool) (s : Tree.Step ρ) :
    (s.rewriteBelow onStep onValue).normalize? omitSingle =
      (s.normalize? omitSingle).map (Step.rewriteBelow onStep onValue) := by
  rcases s with ⟨name, parts⟩
  unfold Step.normalize? Step.rewriteBelow
  simp only
  by_cases hhas : name = "has"
  · rw [if_pos hhas, if_pos hhas]
    exact absence?_map onStep onValue hnull parts
  rw [if_neg hhas, if_neg hhas]
  by_cases hlabel : name = "hasLabel"
  · rw [if_pos hlabel, if_pos hlabel]
    cases parts <;> rfl
  rw [if_neg hlabel, if_neg hlabel]
  by_cases hproperty : name = "property"
  · rw [if_pos hproperty, if_pos hproperty]
    exact unsingled?_map onStep onValue omitSingle parts
  · rw [if_neg hproperty, if_neg hproperty]
    rfl

end Below

end Tree

/-! ## Verdicts of the standard rules -/

/-- The verdict replaces an atom by one that resolves to the given step, or passes the atom on if
there is none. -/
def Verdict.Makes (verdict : Verdict ρ) : Option (Tree.Step ρ) → Prop
  | some y => ∃ b : Atom ρ, verdict = .substitute b ∧ b.Denotes (.step y)
  | none => verdict = .pass

theorem Verdict.Makes.cases {verdict : Verdict ρ} {made : Option (Tree.Step ρ)}
    (h : verdict.Makes made) :
    (made = none ∧ verdict = .pass) ∨
      ∃ y b, made = some y ∧ verdict = .substitute b ∧ b.Denotes (.step y) := by
  cases made with
  | none => exact Or.inl ⟨rfl, h⟩
  | some y =>
    rcases h with ⟨b, hverdict, hb⟩
    exact Or.inr ⟨y, b, rfl, hverdict, hb⟩

namespace Dialect

theorem firstVerdict_singleton (options : Options) (a : Atom ρ) (rule : Rule ρ) :
    Rule.firstVerdict options a [rule] = rule.verdict options a := by
  unfold Rule.firstVerdict
  cases rule.verdict options a <;> rfl

theorem verdict_of_chain {d : Dialect ρ} {a : Atom ρ} {rule : Rule ρ}
    (h : d.chain a.tag = [rule]) (options : Options) :
    d.verdict options a = rule.verdict options a := by
  rw [verdict, h, firstVerdict_singleton]

theorem verdict_of_unregistered {d : Dialect ρ} {a : Atom ρ}
    (h : ∀ layer ∈ d.layers, layer.1 ≠ a.tag) (options : Options) :
    d.verdict options a = .pass := by
  have hchain : d.chain a.tag = [] := by
    rw [chain, List.reverse_eq_nil_iff, List.filterMap_eq_nil_iff]
    intro layer hlayer
    exact if_neg (h layer hlayer)
  rw [verdict, hchain]
  rfl

theorem groovy_verdict_value (options : Options) (v : Value ρ) :
    groovy.verdict options (.value v) = .pass := by
  apply verdict_of_unregistered
  simp [groovy, withStandard, withRules, plain, standardRules, Atom.tag]

theorem groovy_verdict_step (options : Options) (s : Step ρ) :
    groovy.verdict options (.step s) =
      if s.name = "has" then StepRule.verdict options s .absentForNull
      else if s.name = "hasLabel" then StepRule.verdict options s .nothingForNoLabel
      else if s.name = "property" then StepRule.verdict options s .dropSingle
      else .pass := by
  by_cases hhas : s.name = "has"
  · rw [if_pos hhas]
    have hchain : (groovy : Dialect ρ).chain (Atom.step s).tag = [.step .absentForNull] := by
      rw [Atom.tag, hhas]
      rfl
    exact verdict_of_chain hchain options
  rw [if_neg hhas]
  by_cases hlabel : s.name = "hasLabel"
  · rw [if_pos hlabel]
    have hchain : (groovy : Dialect ρ).chain (Atom.step s).tag = [.step .nothingForNoLabel] := by
      rw [Atom.tag, hlabel]
      rfl
    exact verdict_of_chain hchain options
  rw [if_neg hlabel]
  by_cases hproperty : s.name = "property"
  · rw [if_pos hproperty]
    have hchain : (groovy : Dialect ρ).chain (Atom.step s).tag = [.step .dropSingle] := by
      rw [Atom.tag, hproperty]
      rfl
    exact verdict_of_chain hchain options
  rw [if_neg hproperty]
  apply verdict_of_unregistered
  simp [groovy, withStandard, withRules, plain, standardRules, Atom.tag, Ne.symm hhas,
    Ne.symm hlabel, Ne.symm hproperty]

/-! ### Verdicts on resolved steps -/

section Resolved

variable (options : Options) (name : String) {parameters : List (Value ρ)}
  {parts : List (Tree.Part ρ)}

theorem part_isNull {v : Value ρ} {p : Tree.Part ρ} (h : v.part Traversal.tree = .ok p) :
    p.isNull = v.isNull := by
  rcases Tree.part_cases h with ⟨b, rfl, rfl⟩ | ⟨_, rfl, rfl⟩ | ⟨_, rfl, rfl⟩ | ⟨_, _, rfl, _, rfl⟩
  all_goals rfl

theorem absentForNull_makes
    (h : List.Forall₂ (fun v p => v.part Traversal.tree = .ok p) parameters parts) :
    (StepRule.verdict options ⟨name, parameters⟩ .absentForNull).Makes (Tree.absence? parts) := by
  rcases h with _ | @⟨v, p, _, _, hp, _ | @⟨w, q, _, _, hq, _ | _⟩⟩
  · exact rfl
  · exact rfl
  · have hnull : q.isNull = w.isNull := part_isNull hq
    have hkey : Tree.ofStep Traversal.tree ⟨"hasNot", [v]⟩ = .ok ⟨"hasNot", [p]⟩ :=
      Tree.ofStep_eq_ok_iff.mpr ⟨rfl, .cons hp .nil⟩
    rw [Tree.absence?, hnull]
    cases w with
    | null => exact ⟨.step ⟨"hasNot", [v]⟩, rfl, .step hkey⟩
    | _ => exact rfl
  · cases w <;> exact rfl

theorem nothingForNoLabel_makes
    (h : List.Forall₂ (fun v p => v.part Traversal.tree = .ok p) parameters parts) :
    (StepRule.verdict options ⟨name, parameters⟩ .nothingForNoLabel).Makes
      (Tree.nothing? parts) := by
  rcases h with _ | _
  · exact ⟨.step Step.nothing, rfl, .step rfl⟩
  · exact rfl

theorem dropSingle_makes
    (h : List.Forall₂ (fun v p => v.part Traversal.tree = .ok p) parameters parts) :
    (StepRule.verdict options ⟨name, parameters⟩ .dropSingle).Makes
      (Tree.unsingled? options.omitSingle parts) := by
  rcases h with _ | @⟨v, p, vs, rest, hp, hrest⟩
  · exact rfl
  · have hdropped : Tree.ofStep Traversal.tree ⟨"property", vs⟩ = .ok ⟨"property", rest⟩ :=
      Tree.ofStep_eq_ok_iff.mpr ⟨rfl, hrest⟩
    have hmade : (Atom.step ⟨"property", vs⟩).Denotes (.step ⟨"property", rest⟩) :=
      .step hdropped
    rcases Tree.part_cases hp with ⟨⟨_, hv⟩, rfl, rfl⟩ | ⟨_, rfl, rfl⟩ | ⟨word, rfl, rfl⟩ |
      ⟨_, _, rfl, _, rfl⟩
    · cases v with
      | token => simp [Value.isBindable, Value.isLiteral] at hv
      | _ => exact rfl
    · exact rfl
    · simp only [StepRule.verdict, StepRule.substitute?, Tree.unsingled?, Tree.Part.isSingle,
        beq_iff_eq]
      by_cases hsingle : word = "single" ∧ options.omitSingle = true
      · rw [if_pos hsingle, if_pos hsingle]
        exact ⟨_, rfl, hmade⟩
      · rw [if_neg hsingle, if_neg hsingle]
        exact rfl
    · exact rfl

end Resolved

/-- The standard rules replace a step exactly if a step of normalising can be taken from what it
resolves to, and then the substitute resolves to the result. -/
theorem groovy_verdict_makes (options : Options) {s : Step ρ} {x : Tree.Step ρ}
    (hs : Tree.ofStep Traversal.tree s = .ok x) :
    (groovy.verdict options (.step s)).Makes (x.normalize? options.omitSingle) := by
  rcases s with ⟨name, parameters⟩
  rcases x with ⟨name', parts⟩
  rcases Tree.ofStep_eq_ok_iff.mp hs with ⟨hname, hparts⟩
  simp only at hname hparts
  rw [groovy_verdict_step, Tree.Step.normalize?]
  simp only
  rw [← hname]
  by_cases hhas : name = "has"
  · rw [if_pos hhas, if_pos hhas]
    exact absentForNull_makes options name hparts
  rw [if_neg hhas, if_neg hhas]
  by_cases hlabel : name = "hasLabel"
  · rw [if_pos hlabel, if_pos hlabel]
    exact nothingForNoLabel_makes options name hparts
  rw [if_neg hlabel, if_neg hlabel]
  by_cases hproperty : name = "property"
  · rw [if_pos hproperty, if_pos hproperty]
    exact dropSingle_makes options name hparts
  · rw [if_neg hproperty, if_neg hproperty]
    exact rfl

end Dialect

/-! ## Normalising before compiling -/

namespace Dialect

/-- The standard rules are matched by normalising. -/
theorem simulates_standard (options : Options) :
    (Rewriting.ofMaps (Tree.Step.normal options.omitSingle) id : Rewriting ρ).Simulates
      (fun _ => True) options groovy plain := by
  intro a i ha
  cases ha with
  | @value v p hv =>
    rw [groovy_verdict_value]
    refine .pass ?_ fun _ _ => rfl
    cases p with
    | nested x => trivial
    | _ => exact ⟨rfl, trivial⟩
  | @step s x hs =>
    have hbelow := Tree.Step.normalize?_rewriteBelow (Tree.Step.normal options.omitSingle) id
      (fun _ => rfl) options.omitSingle x
    rcases (groovy_verdict_makes options hs).cases with ⟨hnone, hverdict⟩ |
      ⟨y, b, hsome, hverdict, hb⟩
    · -- nothing is left to be done once the parameters are in normal form
      rw [hnone] at hbelow
      rw [hverdict]
      refine .pass ?_ fun _ _ => rfl
      exact (Tree.Step.rewrite_eq_below _ _ x).trans (Tree.Step.normal_eq_self hbelow)
    · -- the step and what replaces it have one normal form
      rw [hsome] at hbelow
      rw [hverdict]
      refine .absorbed hb ?_
      have hsame := Tree.Step.normal_of_normalize? hbelow
      show Tree.Item.step (y.rewrite _ id) = .step (x.rewrite _ id)
      rw [Tree.Step.rewrite_eq_below, Tree.Step.rewrite_eq_below, hsame]

end Dialect

/-! ### Normal forms read as traversals -/

namespace Tree

theorem isSettled_normal (omitSingle : Bool) {x : Tree ρ} (h : x.IsSettled) :
    (x.normal omitSingle).IsSettled := by
  have hnothing : (⟨"none", []⟩ : Tree.Step ρ).IsSettled := .of_name (by simp)
  refine every_normal (fun s hs => hs.rewriteBelow fun _ _ he => he) ?_ (fun _ => hnothing) h
  intro s hname
  apply Step.IsSettled.of_name
  simp only [List.mem_cons, List.not_mem_nil, or_false] at hname
  rcases hname with hname | hname <;> simp [hname]

end Tree

namespace Dialect

/-- A traversal whose steps all resolve is compiled in the standard dialect as its normal form is
in the plain one, unless compiling runs into a bound. -/
theorem groovy_compile_eq_normal {t : Traversal ρ} {x : Tree ρ} (h : t.tree = .ok x)
    (inlined : Bool) :
    (∃ depth, groovy.compile t inlined = .error (.serializationLoop depth)) ∨
      ∃ script, groovy.compile t inlined = .ok script ∧
        plain.compile ((x.normal t.environment.options.omitSingle).traversal t.environment)
          inlined = .ok script := by
  have hsettled := Tree.isSettled_normal t.environment.options.omitSingle
    (Tree.isSettled_of_within h)
  have hnormal := Tree.tree_traversal t.environment _ hsettled
  have houtcome := (simulates_standard t.environment.options).outcome_compile
    isReady_plain.withStandard isReady_plain h hnormal (by simp) inlined
  rcases houtcome with ⟨depth, hx⟩ | ⟨hfits, _⟩ | ⟨_, script, hx, hy⟩
  · exact Or.inl ⟨depth, hx⟩
  · exact absurd (Tree.every_of_forall (fun _ => trivial) (fun _ => trivial) _) hfits
  · exact Or.inr ⟨script, hx, hy⟩

theorem groovy_compile_assorted :
    Traversal.assorted.tree = .ok Tree.assorted ∧
      ∃ script, groovy.compile Traversal.assorted false = .ok script ∧
        plain.compile ((Tree.assorted.normal true).traversal Traversal.assorted.environment) false =
          .ok script := by
  refine ⟨rfl, ?_⟩
  rcases groovy_compile_eq_normal (t := Traversal.assorted) (x := Tree.assorted) rfl false with
    ⟨_, hfailed⟩ | hcompiled
  · contradiction
  · exact hcompiled

/-- What the standard dialect writes are the pieces of the normal form. -/
theorem pieces_of_groovy_draft {t : Traversal ρ} {x : Tree ρ} {ps : List (Piece ρ)}
    (h : t.tree = .ok x) (hps : groovy.draft t = .ok ps) :
    ps = (x.normal t.environment.options.omitSingle).pieces := by
  have hsettled := Tree.isSettled_normal t.environment.options.omitSingle
    (Tree.isSettled_of_within h)
  have hnormal := Tree.tree_traversal t.environment _ hsettled
  have houtcome := (simulates_standard t.environment.options).outcome h hnormal (by simp)
  rw [hps] at houtcome
  rcases houtcome with ⟨_, hx⟩ | ⟨_, _, _, _, hx⟩ | ⟨_, qs, hx, hy⟩
  · contradiction
  · contradiction
  · injection hx with hx
    have hpieces := Draft.within_plain_eq_ok hy
    simp only [Atom.pieces, Value.part, hnormal, Except.map, Tree.Part.pieces] at hpieces
    injection hpieces with hpieces
    rw [hx, hpieces]

end Dialect

end Gremlin
