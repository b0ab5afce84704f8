import Gremlin.Proofs.Plain

/-!
# Rewriting before compiling

The rules of a dialect may be worth no more than this: the tree of a traversal is rewritten, and
the result is compiled in another dialect. Whether they are is asked of single atoms
(`Rewriting.Simulates`): the verdict on an atom is either matched by the other dialect on the
rewritten atom, or it replaces the atom by one that is rewritten to the same.

* `Draft.within_mono`: more room and less depth keep what has been written;
* `Rewriting.Simulates.outcome`: what holds of single verdicts holds of whole compilations.
-/

namespace Gremlin

variable {ρ : Type}

/-! ## Room and depth -/

namespace Draft

theorem atom_mono {dispatch dispatch' : Atom ρ → Draft ρ}
    (h : ∀ b ps, dispatch b = .ok ps → dispatch' b = .ok ps) {a : Atom ρ} {ps : List (Piece ρ)}
    (ha : atom dispatch a = .ok ps) : atom dispatch' a = .ok ps := by
  cases a with
  | step s =>
    rw [atom, step_eq] at ha ⊢
    rcases map_eq_ok_iff.mp ha with ⟨groups, hgroups, hps⟩
    have hgroups' := mapM_mono (fun v ps hv => h (.value v) ps hv) hgroups
    exact map_eq_ok_iff.mpr ⟨groups, hgroups', hps⟩
  | value v =>
    cases v with
    | traversal t =>
      change traversal dispatch t = .ok ps at ha
      show traversal dispatch' t = .ok ps
      rw [traversal_eq] at ha ⊢
      rcases map_eq_ok_iff.mp ha with ⟨groups, hgroups, hps⟩
      have hgroups' : t.steps.toList.mapM (expanded dispatch' t.scope) = .ok groups := by
        apply mapM_mono _ hgroups
        intro s written hs
        rcases bind_eq_ok_iff.mp hs with ⟨rs, hresolve, hrs⟩
        have hrs' := mapM_mono (fun r ps hr => h (.step r) ps hr) hrs
        exact bind_eq_ok_iff.mpr ⟨rs, hresolve, hrs'⟩
      exact map_eq_ok_iff.mpr ⟨groups, hgroups', hps⟩
    | _ => exact ha

/-- What is written with some room at some depth is written with more room and at less depth. -/
theorem within_mono {d : Dialect ρ} {options : Options} {room room' depth depth' : Nat}
    (hroom : room ≤ room') (hdepth : depth' ≤ depth) {a : Atom ρ} {ps : List (Piece ρ)}
    (h : within d options room depth a = .ok ps) : within d options room' depth' a = .ok ps := by
  induction room generalizing room' depth depth' a ps with
  | zero => contradiction -- without room nothing is written
  | succ room ih =>
    obtain ⟨room', rfl⟩ : ∃ n, room' = n + 1 := ⟨room' - 1, by omega⟩
    rw [within] at h ⊢
    cases hverdict : d.verdict options a with
    | pass =>
      rw [hverdict] at h
      exact atom_mono (fun b qs hb => ih (by omega) hdepth hb) h
    | reject e =>
      rw [hverdict] at h
      contradiction
    | substitute b =>
      rw [hverdict] at h
      simp only [after] at h ⊢
      by_cases hbound : Dispatch.maxDepth < depth + 1
      · simp [hbound] at h
      · -- the smaller depth is within the bound as well
        have hbound' : ¬ Dispatch.maxDepth < depth' + 1 := by omega
        rw [if_neg hbound] at h
        rw [if_neg hbound']
        exact ih (by omega) (by omega) h

/-- Whatever the plain dialect writes for an atom, it writes the pieces of its tree. -/
theorem within_plain_eq_ok {options : Options} {room depth : Nat} {a : Atom ρ}
    {ps : List (Piece ρ)} (h : within .plain options room depth a = .ok ps) :
    a.pieces = .ok ps := by
  rw [← within_plain options depth (Nat.le_max_right room a.room)]
  exact within_mono (Nat.le_max_left room a.room) (Nat.le_refl depth) h

/-! ## Encoding what has been resolved -/

theorem flatten_expanded {dispatch : Atom ρ → Draft ρ} {scope : Scope} {raw : List (Step ρ)}
    {groups : List (List (Step ρ))}
    (h : List.Forall₂ (fun s rs => s.resolve scope = .ok rs) raw groups) :
    (raw.mapM (expanded dispatch scope)).map List.flatten =
      groups.flatten.mapM (m := Except Error) fun r => dispatch (.step r) := by
  induction h with
  | nil => rfl
  | @cons s rs raw groups hs _ ih =>
    have hfirst : expanded dispatch scope s =
        rs.mapM (m := Except Error) fun r => dispatch (.step r) := by
      rw [expanded, hs]
      rfl
    rw [List.mapM_cons, hfirst, List.flatten_cons, List.mapM_append, ← ih]
    cases rs.mapM (m := Except Error) fun r => dispatch (.step r) with
    | error e => rfl
    | ok written => cases raw.mapM (expanded dispatch scope) <;> rfl

theorem traversal_of_resolved {dispatch : Atom ρ → Draft ρ} {t : Traversal ρ}
    {groups : List (List (Step ρ))}
    (h : List.Forall₂ (fun s rs => s.resolve t.scope = .ok rs) t.steps.toList groups) :
    traversal dispatch t =
      (groups.flatten.mapM (m := Except Error) fun r => dispatch (.step r)).map fun written =>
        .fixed t.graph :: Piece.separated "." (!t.graph.isEmpty) written := by
  rw [traversal_eq, ← flatten_expanded h]
  cases t.steps.toList.mapM (expanded dispatch t.scope) <;> rfl

/-- A parameter that is no traversal is written whatever dispatching does. -/
theorem value_of_part (dispatch : Atom ρ → Draft ρ)
    {nested : Traversal ρ → Except Error (Tree ρ)} {v : Value ρ} {p : Tree.Part ρ}
    (h : v.part nested = .ok p) (hp : ∀ x, p ≠ .nested x) : value dispatch v = .ok p.pieces := by
  cases v with
  | traversal t =>
    rcases map_eq_ok_iff.mp h with ⟨x, _, hx⟩
    exact absurd hx.symm (hp x)
  | member | elementType => contradiction
  | _ =>
    injection h with h
    rw [← h]
    rfl

end Draft

/-! ## Outcomes -/

/-- How a compilation `x` stands to the compilation `y` of what has been rewritten, where `fits`
says that all integers fit that are left then. -/
inductive Outcome {α : Type} (fits : Prop) (x y : Except Error α) : Prop where
  /-- Too many substitutions or nested dispatches. -/
  | gaveUp (depth : Nat) (hx : x = .error (.serializationLoop depth))
  | outOfRange (hfits : ¬ fits) (context : String) (n max : Int64)
      (hx : x = .error (.valueRange context n max))
  | same (hfits : fits) (a : α) (hx : x = .ok a) (hy : y = .ok a)

namespace Outcome

variable {α β γ δ : Type} {fits : Prop}

theorem map {x y : Except Error α} (f : α → β) (h : Outcome fits x y) :
    Outcome fits (x.map f) (y.map f) := by
  rcases h with ⟨depth, rfl⟩ | ⟨hfits, context, n, max, rfl⟩ | ⟨hfits, a, rfl, rfl⟩
  · exact gaveUp depth rfl
  · exact outOfRange hfits context n max rfl
  · exact same hfits (f a) rfl rfl

theorem congr {x y : Except Error α} {fits' : Prop} (h : Outcome fits x y)
    (hfits : fits ↔ fits') : Outcome fits' x y := by
  rw [← propext hfits]
  exact h

/-- Outcomes of two lists of compilations that both stand for the things in a third list. -/
theorem mapM {f : α → Except Error γ} {g : β → Except Error γ} {fits : δ → Prop}
    {R : α → δ → Prop} {S : β → δ → Prop} {as : List α} {bs : List β} {ds : List δ}
    (has : List.Forall₂ R as ds) (hbs : List.Forall₂ S bs ds)
    (h : ∀ a b d, R a d → S b d → Outcome (fits d) (f a) (g b)) :
    Outcome (∀ d ∈ ds, fits d) (as.mapM f) (bs.mapM g) := by
  induction has generalizing bs with
  | nil =>
    rw [List.forall₂_nil_right_iff] at hbs
    rw [hbs]
    exact same (by simp) [] rfl rfl
  | @cons a d as ds ha _ ih =>
    rcases List.forall₂_cons_right_iff.mp hbs with ⟨b, bs', hb, hrest, rfl⟩
    -- the first compilation that fails decides, and those before it are the same on both sides
    rcases h a b d ha hb with ⟨depth, hx⟩ | ⟨hfits, context, n, max, hx⟩ | ⟨hfits, c, hx, hy⟩
    · exact gaveUp depth (mapM_cons_eq_error_iff.mpr (Or.inl hx))
    · have hall : ¬ ∀ d' ∈ d :: ds, fits d' := by
        intro hall
        exact hfits (hall d List.mem_cons_self)
      exact outOfRange hall context n max (mapM_cons_eq_error_iff.mpr (Or.inl hx))
    · rcases ih hrest with ⟨depth, hxs⟩ | ⟨hothers, context, n, max, hxs⟩ | ⟨hothers, cs, hxs, hys⟩
      · exact gaveUp depth (mapM_cons_eq_error_iff.mpr (Or.inr ⟨c, hx, hxs⟩))
      · have hall : ¬ ∀ d' ∈ d :: ds, fits d' := by
          intro hall
          apply hothers
          intro d' hd'
          exact hall d' (List.mem_cons_of_mem _ hd')
        exact outOfRange hall context n max (mapM_cons_eq_error_iff.mpr (Or.inr ⟨c, hx, hxs⟩))
      · exact same (List.forall_mem_cons.mpr ⟨hfits, hothers⟩) (c :: cs)
          (mapM_cons_eq_ok_iff.mpr ⟨c, cs, hx, hxs, rfl⟩)
          (mapM_cons_eq_ok_iff.mpr ⟨c, cs, hy, hys, rfl⟩)

end Outcome

/-! ## Rewriting trees -/

/-- What an atom may resolve to. -/
inductive Tree.Item (ρ : Type) where
  | step (s : Tree.Step ρ)
  | part (p : Tree.Part ρ)

/-- All values of the item fit. -/
def Tree.Item.Fits (fits : Bindable ρ → Prop) : Tree.Item ρ → Prop
  | .step s => s.Every (fun _ => True) fits
  | .part p => p.Every (fun _ => True) fits

/-- The item is what the atom resolves to. -/
inductive Atom.Denotes : Atom ρ → Tree.Item ρ → Prop where
  | step {s : Step ρ} {x : Tree.Step ρ} (h : Tree.ofStep Traversal.tree s = .ok x) :
      Denotes (.step s) (.step x)
  | value {v : Value ρ} {p : Tree.Part ρ} (h : v.part Traversal.tree = .ok p) :
      Denotes (.value v) (.part p)

/-- A way to rewrite trees, which keeps graphs and rewrites steps and nested trees one by one. -/
structure Rewriting (ρ : Type) where
  tree : Tree ρ → Tree ρ
  step : Tree.Step ρ → Tree.Step ρ
  part : Tree.Part ρ → Tree.Part ρ
  tree_mk : ∀ graph steps, tree ⟨graph, steps⟩ = ⟨graph, steps.map step⟩
  part_nested : ∀ x, part (.nested x) = .nested (tree x)

namespace Rewriting

/-- Rewrites values and steps from below. -/
def ofMaps (onStep : Tree.Step ρ → Tree.Step ρ) (onValue : Bindable ρ → Bindable ρ) :
    Rewriting ρ where
  tree := Tree.rewrite onStep onValue
  step := Tree.Step.rewrite onStep onValue
  part := Tree.Part.rewrite onStep onValue
  tree_mk graph steps := by rw [Tree.rewrite, Tree.rewriteSteps_eq]
  part_nested _ := rfl

/-- Rewrites one way after another. -/
def after (second first : Rewriting ρ) : Rewriting ρ where
  tree x := second.tree (first.tree x)
  step s := second.step (first.step s)
  part p := second.part (first.part p)
  tree_mk graph steps := by
    rw [first.tree_mk, second.tree_mk, List.map_map]
    rfl
  part_nested x := by rw [first.part_nested, second.part_nested]

variable (F : Rewriting ρ)

def item : Tree.Item ρ → Tree.Item ρ
  | .step s => .step (F.step s)
  | .part p => .part (F.part p)

/-- Rewriting changes nothing but what is below the item. -/
def Keeps (fits : Bindable ρ → Prop) : Tree.Item ρ → Prop
  | .step s => F.step s = ⟨s.name, s.parts.map F.part⟩
  | .part (.nested _) => True
  | .part p => F.part p = p ∧ p.Every (fun _ => True) fits

section Encoding

variable {F} {fits : Bindable ρ → Prop} {dispatch dispatch' : Atom ρ → Draft ρ}

/-- Where the parts have an outcome, a step that is kept has one. -/
theorem outcome_step
    (h : ∀ a a' i, a.Denotes i → a'.Denotes (F.item i) →
      Outcome ((F.item i).Fits fits) (dispatch a) (dispatch' a'))
    {s s' : Step ρ} {x : Tree.Step ρ} (hs : Tree.ofStep Traversal.tree s = .ok x)
    (hs' : Tree.ofStep Traversal.tree s' = .ok (F.step x)) (hkept : F.Keeps fits (.step x)) :
    Outcome ((F.step x).Every (fun _ => True) fits) (Draft.step dispatch s)
      (Draft.step dispatch' s') := by
  rcases x with ⟨name, parts⟩
  have hkept : F.step ⟨name, parts⟩ = ⟨name, parts.map F.part⟩ := hkept
  rw [hkept] at hs' ⊢
  rcases Tree.ofStep_eq_ok_iff.mp hs with ⟨hname, hparts⟩
  rcases Tree.ofStep_eq_ok_iff.mp hs' with ⟨hname', hparts'⟩
  rw [List.forall₂_map_right_iff] at hparts'
  rw [Draft.step_eq, Draft.step_eq, hname, hname']
  apply Outcome.map
  have hall := Outcome.mapM hparts hparts' fun v v' p hv hv' => h _ _ _ (.value hv) (.value hv')
  apply hall.congr
  simp [Tree.Step.Every, Tree.everyPart_iff, Tree.Item.Fits, item]

/-- Where the steps have an outcome, a traversal has one. -/
theorem outcome_traversal
    (h : ∀ a a' i, a.Denotes i → a'.Denotes (F.item i) →
      Outcome ((F.item i).Fits fits) (dispatch a) (dispatch' a'))
    {t t' : Traversal ρ} {x : Tree ρ} (ht : t.tree = .ok x) (ht' : t'.tree = .ok (F.tree x)) :
    Outcome ((F.tree x).Every (fun _ => True) fits) (Draft.traversal dispatch t)
      (Draft.traversal dispatch' t') := by
  rw [Traversal.tree_eq] at ht ht'
  rcases map_eq_ok_iff.mp ht with ⟨steps, hsteps, rfl⟩
  rcases map_eq_ok_iff.mp ht' with ⟨steps', hsteps', htree⟩
  rw [F.tree_mk] at htree ⊢
  injection htree with hgraph hsteps''
  rw [hsteps''] at hsteps'
  -- both traversals come apart into resolved steps, those of one tree and of its rewriting
  rcases Tree.resolved_eq_ok hsteps with ⟨groups, hgroups, hpairs⟩
  rcases Tree.resolved_eq_ok hsteps' with ⟨groups', hgroups', hpairs'⟩
  rw [List.forall₂_map_right_iff] at hpairs'
  rw [Draft.traversal_of_resolved hgroups, Draft.traversal_of_resolved hgroups', hgraph]
  apply Outcome.map
  have hall := Outcome.mapM hpairs hpairs' fun r r' s hr hr' => h _ _ _ (.step hr) (.step hr')
  apply hall.congr
  simp [Tree.Every, Tree.everyStep_iff, Tree.Item.Fits, item]

/-- Where the parts have an outcome, an atom that is kept has one. -/
theorem outcome_atom
    (h : ∀ a a' i, a.Denotes i → a'.Denotes (F.item i) →
      Outcome ((F.item i).Fits fits) (dispatch a) (dispatch' a'))
    {a a' : Atom ρ} {i : Tree.Item ρ} (ha : a.Denotes i) (ha' : a'.Denotes (F.item i))
    (hkept : F.Keeps fits i) :
    Outcome ((F.item i).Fits fits) (Draft.atom dispatch a) (Draft.atom dispatch' a') := by
  cases ha with
  | @step s x hs =>
    cases ha' with
    | step hs' => exact outcome_step h hs hs' hkept
  | @value v p hv =>
    cases ha' with
    | @value v' _ hv' =>
      cases p with
      | nested x =>
        rw [F.part_nested] at hv'
        rcases Tree.part_eq_nested_iff.mp hv with ⟨t, rfl, ht⟩
        rcases Tree.part_eq_nested_iff.mp hv' with ⟨t', rfl, ht'⟩
        have htree := outcome_traversal h ht ht'
        rw [item, F.part_nested]
        exact htree
      | _ =>
        -- a parameter that is no tree is the same before and after
        rcases hkept with ⟨hpart, hfits⟩
        rw [hpart] at hv'
        have hwritten := Draft.value_of_part dispatch hv (by simp)
        have hwritten' := Draft.value_of_part dispatch' hv' (by simp)
        rw [← hpart] at hfits
        exact .same hfits _ hwritten hwritten'

end Encoding

/-! ## Simulation of dialects -/

/-- How the verdict of a dialect on an atom is matched, where the atom resolves to the item `i`
and `other` gives the verdicts of the dialect for what has been rewritten. -/
inductive Matched (fits : Bindable ρ → Prop) (other : Atom ρ → Verdict ρ) (i : Tree.Item ρ) :
    Verdict ρ → Prop where
  | pass (hkept : F.Keeps fits i) (hother : ∀ a, a.Denotes (F.item i) → other a = .pass) :
      Matched fits other i .pass
  /-- The atom and its substitute are rewritten to the same. -/
  | absorbed {b : Atom ρ} {j : Tree.Item ρ} (hb : b.Denotes j) (hsame : F.item j = F.item i) :
      Matched fits other i (.substitute b)
  /-- What has been rewritten has a substitute as well. -/
  | followed {b : Atom ρ} {j : Tree.Item ρ} (hb : b.Denotes j)
      (hfits : (F.item j).Fits fits ↔ (F.item i).Fits fits)
      (hother : ∀ a, a.Denotes (F.item i) →
        ∃ c, other a = .substitute c ∧ c.Denotes (F.item j)) :
      Matched fits other i (.substitute b)
  | reject (hfits : ¬ (F.item i).Fits fits) (context : String) (n max : Int64) :
      Matched fits other i (.reject (.valueRange context n max))

/-- Every verdict of `d` is matched by `d'` on what has been rewritten. -/
def Simulates (fits : Bindable ρ → Prop) (options : Options) (d d' : Dialect ρ) : Prop :=
  ∀ a i, a.Denotes i → F.Matched fits (d'.verdict options) i (d.verdict options a)

variable {F} {fits : Bindable ρ → Prop} {options : Options} {d d' : Dialect ρ}

/-- Substitutions of `d` that rewriting has done before leave `d'` with more room and at less
depth, which it does not need. -/
theorem Simulates.outcome_within (hsim : F.Simulates fits options d d') (room depth : Nat)
    {a a' : Atom ρ} {i : Tree.Item ρ} (ha : a.Denotes i) (ha' : a'.Denotes (F.item i)) :
    Outcome ((F.item i).Fits fits) (Draft.within d options room depth a)
      (Draft.within d' options room depth a') := by
  -- by induction on the room for all depths, since substitutes are dispatched one deeper
  induction room generalizing depth a a' i with
  | zero => exact .gaveUp _ rfl
  | succ room ih =>
    have hmatched := hsim a i ha
    rw [Draft.within]
    generalize d.verdict options a = verdict at hmatched ⊢
    cases hmatched with
    | pass hkept hother =>
      rw [Draft.within, hother a' ha']
      exact outcome_atom (fun b b' j hb hb' => ih depth hb hb') ha ha' hkept
    | @absorbed b j hb hsame =>
      -- only `d` takes a step here: the other side stays with the same atom
      simp only [Draft.after]
      by_cases hbound : Dispatch.maxDepth < depth + 1
      · rw [if_pos hbound]
        exact .gaveUp _ rfl
      · rw [if_neg hbound]
        rw [← hsame] at ha' ⊢
        rcases ih (depth + 1) hb ha' with ⟨n, hx⟩ | ⟨hfits, context, n, max, hx⟩ |
          ⟨hfits, ps, hx, hy⟩
        · exact .gaveUp n hx
        · exact .outOfRange hfits context n max hx
        · exact .same hfits ps hx (Draft.within_mono (Nat.le_succ room) (Nat.le_succ depth) hy)
    | @followed b j hb hfits hother =>
      -- both sides take a step, so they meet the bound on the depth together
      rcases hother a' ha' with ⟨c, hverdict, hc⟩
      rw [Draft.within, hverdict]
      simp only [Draft.after]
      by_cases hbound : Dispatch.maxDepth < depth + 1
      · rw [if_pos hbound]
        exact .gaveUp _ rfl
      · rw [if_neg hbound, if_neg hbound]
        exact (ih (depth + 1) hb hc).congr hfits
    | reject hfits context n max => exact .outOfRange hfits context n max rfl

/-- A traversal compiled in `d` and the rewritten one compiled in `d'`. -/
theorem Simulates.outcome {t t' : Traversal ρ} {x : Tree ρ}
    (hsim : F.Simulates fits t.environment.options d d') (ht : t.tree = .ok x)
    (ht' : t'.tree = .ok (F.tree x)) (hoptions : t'.environment.options = t.environment.options) :
    Outcome ((F.tree x).Every (fun _ => True) fits) (d.draft t) (d'.draft t') := by
  have ha : (Atom.value (.traversal t)).Denotes (.part (.nested x)) :=
    .value (Tree.part_eq_nested_iff.mpr ⟨t, rfl, ht⟩)
  have ha' : (Atom.value (.traversal t')).Denotes (F.item (.part (.nested x))) := by
    rw [item, F.part_nested]
    exact .value (Tree.part_eq_nested_iff.mpr ⟨t', rfl, ht'⟩)
  have hwithin := hsim.outcome_within (Dispatch.maxNesting + 1) 0 ha ha'
  rw [item, F.part_nested] at hwithin
  rw [Dialect.draft, Dialect.draft, hoptions]
  exact hwithin

theorem Simulates.outcome_compile (hd : d.IsReady) (hd' : d'.IsReady) {t t' : Traversal ρ}
    {x : Tree ρ} (hsim : F.Simulates fits t.environment.options d d') (ht : t.tree = .ok x)
    (ht' : t'.tree = .ok (F.tree x)) (hoptions : t'.environment.options = t.environment.options)
    (inlined : Bool) :
    Outcome ((F.tree x).Every (fun _ => True) fits) (d.compile t inlined)
      (d'.compile t' inlined) := by
  rw [Dialect.compile_eq_draft hd, Dialect.compile_eq_draft hd', hoptions]
  exact (hsim.outcome ht ht' hoptions).map _

end Rewriting

end Gremlin
