import Gremlin.Proofs.Resolution
import Gremlin.Proofs.Tree

/-!
# Trees of traversals

The tree of a traversal is made from the trees of the traversals nested in its resolved steps
(`Traversal.tree_eq`): the bound that its making runs on does not show, since what a step
resolves to nests no deeper than the step. The steps of such a tree resolve to themselves, and
so a tree read as a traversal has itself as its tree (`Tree.tree_traversal`).
-/

namespace Gremlin

variable {ρ : Type}

namespace Tree

/-! ## The bound does not show -/

section Nested

variable {nested nested' : Traversal ρ → Except Error (Tree ρ)}

theorem part_congr {v : Value ρ} (h : ∀ t, v = .traversal t → nested t = nested' t) :
    v.part nested = v.part nested' := by
  cases v with
  | traversal t => simp only [Value.part, h t rfl]
  | _ => rfl

theorem ofStep_congr {s : Gremlin.Step ρ}
    (h : ∀ t, .traversal t ∈ s.parameters → nested t = nested' t) :
    ofStep nested s = ofStep nested' s := by
  have hparts : s.parameters.mapM (Value.part nested) =
      s.parameters.mapM (Value.part nested') := by
    apply mapM_congr
    intro v hv
    apply part_congr
    intro t ht
    exact h t (ht ▸ hv)
  rw [ofStep, ofStep, hparts]

theorem resolved_congr {scope : Scope} {raw : List (Gremlin.Step ρ)}
    (h : ∀ s ∈ raw, ∀ rs, s.resolve scope = .ok rs → ∀ r ∈ rs, ∀ t, .traversal t ∈ r.parameters →
      nested t = nested' t) :
    resolved nested scope raw = resolved nested' scope raw := by
  unfold resolved
  rw [mapM_congr]
  intro s hs
  unfold expanded
  cases hresolve : s.resolve scope with
  | error e => rfl
  | ok rs =>
    apply mapM_congr
    intro r hr
    exact ofStep_congr (h s hs rs hresolve r hr)

end Nested

/-- A traversal nested in what a step of `t` resolves to has fewer levels below it. -/
theorem nesting_lt {t u : Traversal ρ} {s r : Gremlin.Step ρ} {rs : List (Gremlin.Step ρ)}
    (hs : s ∈ t.steps.toList) (hresolve : s.resolve t.scope = .ok rs) (hr : r ∈ rs)
    (hu : .traversal u ∈ r.parameters) : u.nesting < t.nesting := by
  have hstep := Step.nesting_of_resolve hresolve r hr _ hu
  have htop := Traversal.nesting_of_mem_steps hs
  simp only [Value.nesting] at hstep
  omega

/-- Any bound above the levels of a traversal gives the same tree. -/
theorem within_eq {levels levels' : Nat} {t : Traversal ρ} (h : t.nesting < levels)
    (h' : t.nesting < levels') : within levels t = within levels' t := by
  -- each level uses up one of both bounds
  induction levels generalizing levels' t with
  | zero => omega
  | succ levels ih =>
    obtain ⟨levels', rfl⟩ : ∃ n, levels' = n + 1 := ⟨levels' - 1, by omega⟩
    simp only [within]
    rw [resolved_congr]
    intro s hs rs hresolve r hr u hu
    have hlt := nesting_lt hs hresolve hr hu
    exact ih (by omega) (by omega)

end Tree

/-- The tree of a traversal is made from the trees of what is nested in it. -/
theorem Traversal.tree_eq (t : Traversal ρ) :
    t.tree = (Tree.resolved Traversal.tree t.scope t.steps.toList).map (⟨t.graph, ·⟩) := by
  rw [Traversal.tree, Tree.within, Tree.resolved_congr]
  intro s hs rs hresolve r hr u hu
  exact Tree.within_eq (Tree.nesting_lt hs hresolve hr hu) (Nat.lt_succ_self _)

namespace Tree

/-! ## What trees are made of -/

section Nested

variable {nested : Traversal ρ → Except Error (Tree ρ)}

/-- Everything that a parameter of a tree may come from. -/
theorem part_cases {v : Value ρ} {p : Tree.Part ρ} (h : v.part nested = .ok p) :
    (∃ b : Bindable ρ, v = b.val ∧ p = .value b) ∨ (∃ name, v = .key name ∧ p = .key name) ∨
      (∃ word, v = .token word ∧ p = .token word) ∨
      ∃ t x, v = .traversal t ∧ nested t = .ok x ∧ p = .nested x := by
  cases v with
  | traversal t =>
    rcases map_eq_ok_iff.mp h with ⟨x, hx, hp⟩
    exact Or.inr (Or.inr (Or.inr ⟨t, x, rfl, hx, hp.symm⟩))
  | key name =>
    injection h with h
    exact Or.inr (Or.inl ⟨name, rfl, h.symm⟩)
  | token word =>
    injection h with h
    exact Or.inr (Or.inr (Or.inl ⟨word, rfl, h.symm⟩))
  | member m => contradiction
  | elementType t => contradiction
  | _ =>
    injection h with h
    exact Or.inl ⟨⟨_, rfl⟩, rfl, h.symm⟩

theorem part_eq_nested_iff {v : Value ρ} {x : Tree ρ} :
    v.part nested = .ok (.nested x) ↔ ∃ t, v = .traversal t ∧ nested t = .ok x := by
  constructor
  · intro h
    rcases part_cases h with ⟨_, _, hp⟩ | ⟨_, _, hp⟩ | ⟨_, _, hp⟩ | ⟨t, y, hv, hy, hp⟩
    · contradiction
    · contradiction
    · contradiction
    · injection hp with hp
      exact ⟨t, hv, hp ▸ hy⟩
  · rintro ⟨t, rfl, ht⟩
    simp [Value.part, ht, Except.map]

theorem part_bindable (b : Bindable ρ) : b.val.part nested = .ok (.value b) := by
  rcases b with ⟨v, hv⟩
  cases v with
  | key | token | member | elementType | traversal => simp [Value.isBindable, Value.isLiteral] at hv
  | _ => rfl

theorem ofStep_eq_ok_iff {s : Gremlin.Step ρ} {x : Tree.Step ρ} :
    ofStep nested s = .ok x ↔
      s.name = x.name ∧ List.Forall₂ (fun v p => v.part nested = .ok p) s.parameters x.parts := by
  unfold ofStep
  rw [map_eq_ok_iff]
  simp only [mapM_eq_ok_iff]
  constructor
  · rintro ⟨parts, hparts, rfl⟩
    exact ⟨rfl, hparts⟩
  · rintro ⟨hname, hparts⟩
    refine ⟨x.parts, hparts, ?_⟩
    cases x
    rw [hname]

/-- Steps that resolve, resolve to groups of steps, and their trees stand one after another. -/
theorem resolved_eq_ok {scope : Scope} {raw : List (Gremlin.Step ρ)} {xs : List (Tree.Step ρ)}
    (h : resolved nested scope raw = .ok xs) :
    ∃ groups : List (List (Gremlin.Step ρ)),
      List.Forall₂ (fun s rs => s.resolve scope = .ok rs) raw groups ∧
      List.Forall₂ (fun r x => ofStep nested r = .ok x) groups.flatten xs := by
  rcases map_eq_ok_iff.mp h with ⟨xss, hxss, rfl⟩
  clear h
  induction raw generalizing xss with
  | nil =>
    injection hxss with hxss
    exact ⟨[], by simp [← hxss]⟩
  | cons s rest ih =>
    rcases mapM_cons_eq_ok_iff.mp hxss with ⟨first, others, hfirst, hothers, rfl⟩
    rcases bind_eq_ok_iff.mp hfirst with ⟨rs, hresolve, hrs⟩
    rcases ih others hothers with ⟨groups, hgroups, htrees⟩
    refine ⟨rs :: groups, List.Forall₂.cons hresolve hgroups, ?_⟩
    simpa using List.rel_append (mapM_eq_ok_iff.mp hrs) htrees

end Nested

/-! ## Only names without meaning keep a traversal from having a tree -/

/-- The error comes from the model of a traversal that is reached. -/
theorem raises_of_within {levels : Nat} {t : Traversal ρ} {e : Error}
    (h : within levels t = .error e) : ∃ u, t.Reaches u ∧ u.environment.model.Raises e := by
  induction levels generalizing t e with
  | zero => contradiction
  | succ levels ih =>
    have hresolved := map_eq_error_iff.mp (map_eq_error_iff.mp h)
    -- a step that does not resolve, or what is nested in one that does
    rcases exists_of_mapM_eq_error hresolved with ⟨s, hs, hexpanded⟩
    rcases bind_eq_error_iff.mp hexpanded with hresolve | ⟨rs, hresolve, hrs⟩
    · exact ⟨t, .refl, Step.raises_of_resolve hresolve⟩
    rcases exists_of_mapM_eq_error hrs with ⟨r, hr, hstep⟩
    rcases exists_of_mapM_eq_error (map_eq_error_iff.mp hstep) with ⟨v, hv, hpart⟩
    have hname := Step.not_isName_of_resolve hresolve r hr v hv
    cases v with
    | traversal u =>
      rcases ih (map_eq_error_iff.mp hpart) with ⟨w, hreaches, hraises⟩
      exact ⟨w, .head ⟨s, hs, Step.holds_of_resolve hresolve hr hv⟩ hreaches, hraises⟩
    | member m => exact absurd trivial hname
    | elementType name => exact absurd trivial hname
    | _ => contradiction

theorem isUnknown_of_within {levels : Nat} {t : Traversal ρ} {e : Error}
    (h : within levels t = .error e) : e.IsUnknown := by
  rcases raises_of_within h with ⟨_, _, hraises⟩
  exact hraises.isUnknown

/-! ## Settled trees -/

/-- The step is kept if it is resolved again: it does not vanish, and there is no entity to be
spread. -/
def Step.IsSettled (s : Tree.Step ρ) : Prop :=
  (s.parts = [] → s.name ≠ "withoutStrategies") ∧
  ∀ e, s.parts = [.value (.entity e)] →
    s.name ≠ "addV" ∧ s.name ≠ "addE" ∧ s.name ≠ "update"

/-- All steps of the tree are kept if they are resolved again. -/
def IsSettled (x : Tree ρ) : Prop := x.Every Step.IsSettled fun _ => True

/-- The tree of a step that asks for nothing but names is settled. -/
theorem isSettled_of_request {nested : Traversal ρ → Except Error (Tree ρ)}
    {s : Gremlin.Step ρ} {x : Tree.Step ρ} (hrequest : s.request = .plain)
    (h : ofStep nested s = .ok x) : x.IsSettled := by
  rcases ofStep_eq_ok_iff.mp h with ⟨hname, hparts⟩
  unfold Gremlin.Step.request at hrequest
  constructor
  · intro hnil hstrategies
    rw [hnil, List.forall₂_nil_right_iff] at hparts
    simp [hparts, hname, hstrategies] at hrequest
  · intro e hentity
    rw [hentity] at hparts
    rcases List.forall₂_cons_right_iff.mp hparts with ⟨v, vs, hv, hvs, hparameters⟩
    rw [List.forall₂_nil_right_iff] at hvs
    have hv : v = .entity e := by
      rcases part_cases hv with ⟨b, rfl, hb⟩ | ⟨_, _, hb⟩ | ⟨_, _, hb⟩ | ⟨_, _, _, _, hb⟩
      · injection hb with hb
        rw [← hb]
      all_goals contradiction
    rw [hparameters, hvs, hv] at hrequest
    rw [← hname]
    refine ⟨?_, ?_, ?_⟩ <;> intro heq <;> simp [heq] at hrequest

/-- Every tree that resolution makes is settled on all levels. -/
theorem isSettled_of_within {levels : Nat} {t : Traversal ρ} {x : Tree ρ}
    (h : within levels t = .ok x) : x.IsSettled := by
  induction levels generalizing t x with
  | zero =>
    injection h with h
    rw [← h]
    trivial
  | succ levels ih =>
    rcases map_eq_ok_iff.mp h with ⟨steps, hsteps, rfl⟩
    rcases resolved_eq_ok hsteps with ⟨groups, hgroups, htrees⟩
    show everyStep Step.IsSettled (fun _ => True) steps
    rw [everyStep_iff]
    intro s hs
    rcases exists_of_mem_right htrees hs with ⟨r, hr, hstep⟩
    rcases List.mem_flatten.mp hr with ⟨rs, hrs, hmem⟩
    rcases exists_of_mem_right hgroups hrs with ⟨raw, _, hresolve⟩
    -- what a step resolves to asks for nothing any more
    have hsettled := isSettled_of_request (Gremlin.Step.request_of_resolve hresolve hmem) hstep
    rcases ofStep_eq_ok_iff.mp hstep with ⟨_, hparts⟩
    rcases s with ⟨name, parts⟩
    refine ⟨hsettled, (everyPart_iff _ _ parts).mpr ?_⟩
    intro p hp
    rcases exists_of_mem_right hparts hp with ⟨v, _, hv⟩
    rcases part_cases hv with ⟨_, _, rfl⟩ | ⟨_, _, rfl⟩ | ⟨_, _, rfl⟩ | ⟨u, y, _, hy, rfl⟩
    · trivial
    · trivial
    · trivial
    · exact ih hy

section Rewrite

variable {onStep : Tree.Step ρ → Tree.Step ρ} {onValue : Bindable ρ → Bindable ρ}

/-- Rewriting parameters keeps a step settled if it makes no entities. -/
theorem Step.IsSettled.rewriteBelow
    (hentity : ∀ b e, (onValue b).val = .entity e → b.val = .entity e) {s : Tree.Step ρ}
    (h : s.IsSettled) : (s.rewriteBelow onStep onValue).IsSettled := by
  rcases s with ⟨name, parts⟩
  rcases h with ⟨hvanishes, hspread⟩
  constructor
  · intro hnil
    exact hvanishes (List.map_eq_nil_iff.mp hnil)
  · intro e he
    obtain ⟨p, rfl, hp⟩ : ∃ p, parts = [p] ∧ p.rewrite onStep onValue = .value (.entity e) := by
      simpa [Step.rewriteBelow, List.map_eq_singleton_iff] using he
    cases p with
    | value b =>
      have hb : b = .entity e := by
        injection hp with hp
        exact Subtype.ext (hentity b e (by rw [hp]))
      exact hspread e (by rw [hb])
    | _ => contradiction

end Rewrite

theorem Step.IsSettled.of_name {s : Tree.Step ρ}
    (h : s.name ∉ ["withoutStrategies", "addV", "addE", "update"]) : s.IsSettled := by
  simp only [List.mem_cons, List.not_mem_nil, or_false, not_or] at h
  exact ⟨fun _ => h.1, fun _ _ => h.2⟩

/-! ## Trees read as traversals -/

section AsTraversal

variable (environment : Environment ρ)

theorem rawParts_eq (parts : List (Tree.Part ρ)) :
    rawParts environment parts = parts.map (Part.raw environment) := by
  induction parts with
  | nil => rfl
  | cons p rest ih => simp [rawParts, ih]

theorem not_isName_raw (p : Tree.Part ρ) : ¬ (p.raw environment).IsName := by
  cases p with
  | value b =>
    rcases b with ⟨v, hv⟩
    cases v with
    | member | elementType => simp [Value.isBindable, Value.isLiteral] at hv
    | _ => exact fun hname => hname
  | _ => exact fun hname => hname

theorem request_raw {s : Tree.Step ρ} (h : s.IsSettled) :
    (s.raw environment).request = .plain := by
  rcases s with ⟨name, parts⟩
  rcases h with ⟨hvanishes, hspread⟩
  rcases parts with _ | ⟨p, _ | ⟨q, rest⟩⟩
  · have hname : name ≠ "withoutStrategies" := hvanishes rfl
    simp [Step.raw, rawParts, Gremlin.Step.request, hname]
  · cases p with
    | value b =>
      rcases b with ⟨v, hv⟩
      cases v with
      | entity e =>
        rcases hspread e rfl with ⟨haddV, haddE, hupdate⟩
        simp only at haddV haddE hupdate
        simp [Step.raw, rawParts, Part.raw, Gremlin.Step.request, haddV, haddE, hupdate]
      | elementType => simp [Value.isBindable, Value.isLiteral] at hv
      | _ => rfl
    | _ => rfl
  · simp only [Step.raw, rawParts]
    generalize p.raw environment = v
    cases v <;> rfl

/-- A settled step, read as one of a traversal, resolves to itself in every scope. -/
theorem resolve_raw {s : Tree.Step ρ} (h : s.IsSettled) (scope : Scope) :
    (s.raw environment).resolve scope = .ok [s.raw environment] := by
  apply Gremlin.Step.resolve_eq_self (request_raw environment h)
  rcases s with ⟨name, parts⟩
  intro v hv
  simp only [Step.raw, rawParts_eq, List.mem_map] at hv
  rcases hv with ⟨p, _, rfl⟩
  exact not_isName_raw environment p

mutual

/-- A settled tree, read as a traversal, has itself as its tree. -/
theorem tree_traversal : (x : Tree ρ) → x.IsSettled → (x.traversal environment).tree = .ok x
  | ⟨graph, steps⟩, h => by
    rw [Traversal.tree_eq]
    simp only [traversal, StepList.toList_ofList]
    rw [resolved_rawSteps _ steps h]
    rfl

theorem resolved_rawSteps (scope : Scope) : (steps : List (Tree.Step ρ)) →
    everyStep Step.IsSettled (fun _ => True) steps →
    resolved Traversal.tree scope (rawSteps environment steps) = .ok steps
  | [], _ => rfl
  | s :: rest, ⟨hs, hrest⟩ => by
    have hsettled : s.IsSettled := by
      rcases s with ⟨name, parts⟩
      exact hs.1
    -- the first step resolves to itself alone, and the others to themselves
    have hothers := resolved_rawSteps scope rest hrest
    rcases map_eq_ok_iff.mp hothers with ⟨xss, hxss, hflatten⟩
    have hfirst : expanded Traversal.tree scope (s.raw environment) = .ok [s] := by
      rw [expanded, resolve_raw environment hsettled]
      exact mapM_eq_ok_iff.mpr (.cons (ofStep_raw s hs) .nil)
    have hall := mapM_cons_eq_ok_iff.mpr ⟨[s], xss, hfirst, hxss, rfl⟩
    rw [resolved, rawSteps, hall]
    simp [Except.map, hflatten]

theorem ofStep_raw : (s : Tree.Step ρ) → s.Every Step.IsSettled (fun _ => True) →
    ofStep Traversal.tree (s.raw environment) = .ok s
  | ⟨_, parts⟩, h => ofStep_eq_ok_iff.mpr ⟨rfl, parts_raw parts h.2⟩

theorem parts_raw : (parts : List (Tree.Part ρ)) →
    everyPart Step.IsSettled (fun _ => True) parts →
    List.Forall₂ (fun v p => v.part Traversal.tree = .ok p) (rawParts environment parts) parts
  | [], _ => .nil
  | p :: rest, ⟨hp, hrest⟩ => .cons (part_raw p hp) (parts_raw rest hrest)

theorem part_raw : (p : Tree.Part ρ) → p.Every Step.IsSettled (fun _ => True) →
    (p.raw environment).part Traversal.tree = .ok p
  | .value b, _ => part_bindable b
  | .key _, _ => rfl
  | .token _, _ => rfl
  | .nested x, h => by
    have hx := tree_traversal x h
    simp only [Part.raw, Value.part, hx]
    rfl

end

end AsTraversal

end Tree

end Gremlin
