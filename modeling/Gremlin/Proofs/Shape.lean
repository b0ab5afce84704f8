import Gremlin.Proofs.Modes
import Gremlin.Proofs.Standard

/-!
# Trees of one shape

Where literals are bound, the text of a script does not depend on what they are. Two traversals
whose trees have one shape, values of the same kinds in the same places and the same repetitions
among them are compiled in lock-step: every dispatch of the one is matched by a dispatch of the
other, down to pieces that correspond and parameters with the same names.

* `Draft.agree_within`: a dialect that heeds shapes writes pieces that correspond;
* `Output.Corresponds.writeAll`: pieces that correspond are bound alike;
* `Dialect.bound_scripts_correspond`: both for the plain and the standard dialect.
-/

namespace Gremlin

variable {ρ : Type}

namespace Tree

mutual

/-- The values of a tree, in order. -/
def values : Tree ρ → List (Bindable ρ)
  | ⟨_, steps⟩ => stepValues steps

def stepValues : List (Tree.Step ρ) → List (Bindable ρ)
  | [] => []
  | s :: rest => s.values ++ stepValues rest

def Step.values : Tree.Step ρ → List (Bindable ρ)
  | ⟨_, parts⟩ => partValues parts

def partValues : List (Tree.Part ρ) → List (Bindable ρ)
  | [] => []
  | p :: rest => p.values ++ partValues rest

def Part.values : Tree.Part ρ → List (Bindable ρ)
  | .value b => [b]
  | .key _ | .token _ => []
  | .nested tree => tree.values

end

/-! ## Trees that correspond -/

section Corresponds

variable (R : Bindable ρ → Bindable ρ → Prop)

mutual

/-- The trees are the same but for the values, which are related wherever they stand. -/
inductive Corresponds : Tree ρ → Tree ρ → Prop where
  | intro (graph : String) {steps steps' : List (Tree.Step ρ)}
      (h : List.Forall₂ Step.Corresponds steps steps') :
      Corresponds ⟨graph, steps⟩ ⟨graph, steps'⟩

inductive Step.Corresponds : Tree.Step ρ → Tree.Step ρ → Prop where
  | intro (name : String) {parts parts' : List (Tree.Part ρ)}
      (h : List.Forall₂ Part.Corresponds parts parts') :
      Step.Corresponds ⟨name, parts⟩ ⟨name, parts'⟩

inductive Part.Corresponds : Tree.Part ρ → Tree.Part ρ → Prop where
  | value {b b' : Bindable ρ} (h : R b b') : Part.Corresponds (.value b) (.value b')
  | key (name : String) : Part.Corresponds (.key name) (.key name)
  | token (word : String) : Part.Corresponds (.token word) (.token word)
  | nested {x x' : Tree ρ} (h : x.Corresponds x') : Part.Corresponds (.nested x) (.nested x')

end

end Corresponds

/-- The trees are the same but for their values. -/
def SameShape (x x' : Tree ρ) : Prop := x.Corresponds (fun _ _ => True) x'

section Values

variable {R : Bindable ρ → Bindable ρ → Prop}

mutual

/-- Trees of one shape correspond if their values are related one by one. What follows the values
in the lists is related as well. -/
theorem corresponds_of_values {more more' : List (Bindable ρ)} : (x x' : Tree ρ) →
    x.SameShape x' → List.Forall₂ R (x.values ++ more) (x'.values ++ more') →
    x.Corresponds R x' ∧ List.Forall₂ R more more'
  | ⟨_, steps⟩, ⟨_, steps'⟩, .intro graph hsteps, h => by
    rcases steps_correspond_of_values steps steps' hsteps h with ⟨hcorrespond, hmore⟩
    exact ⟨.intro graph hcorrespond, hmore⟩

theorem steps_correspond_of_values {more more' : List (Bindable ρ)} :
    (steps steps' : List (Tree.Step ρ)) →
    List.Forall₂ (Step.Corresponds fun _ _ => True) steps steps' →
    List.Forall₂ R (stepValues steps ++ more) (stepValues steps' ++ more') →
    List.Forall₂ (Step.Corresponds R) steps steps' ∧ List.Forall₂ R more more'
  | [], [], _, h => ⟨.nil, h⟩
  | ⟨_, parts⟩ :: rest, ⟨_, parts'⟩ :: rest', .cons (.intro name hparts) hrest, h => by
    simp only [stepValues, Step.values, List.append_assoc] at h
    rcases parts_correspond_of_values parts parts' hparts h with ⟨hfirst, hothers⟩
    rcases steps_correspond_of_values rest rest' hrest hothers with ⟨hcorrespond, hmore⟩
    exact ⟨.cons (.intro name hfirst) hcorrespond, hmore⟩

theorem parts_correspond_of_values {more more' : List (Bindable ρ)} :
    (parts parts' : List (Tree.Part ρ)) →
    List.Forall₂ (Part.Corresponds fun _ _ => True) parts parts' →
    List.Forall₂ R (partValues parts ++ more) (partValues parts' ++ more') →
    List.Forall₂ (Part.Corresponds R) parts parts' ∧ List.Forall₂ R more more'
  | [], [], _, h => ⟨.nil, h⟩
  | p :: rest, p' :: rest', .cons hp hrest, h => by
    simp only [partValues, List.append_assoc] at h
    rcases part_corresponds_of_values p p' hp h with ⟨hfirst, hothers⟩
    rcases parts_correspond_of_values rest rest' hrest hothers with ⟨hcorrespond, hmore⟩
    exact ⟨.cons hfirst hcorrespond, hmore⟩

theorem part_corresponds_of_values {more more' : List (Bindable ρ)} : (p p' : Tree.Part ρ) →
    p.Corresponds (fun _ _ => True) p' →
    List.Forall₂ R (p.values ++ more) (p'.values ++ more') →
    p.Corresponds R p' ∧ List.Forall₂ R more more'
  | .value _, .value _, .value _, .cons hb hmore => ⟨.value hb, hmore⟩
  | .key name, .key _, .key _, h => ⟨.key name, h⟩
  | .token word, .token _, .token _, h => ⟨.token word, h⟩
  | .nested x, .nested x', .nested hx, h => by
    rcases corresponds_of_values x x' hx h with ⟨hcorrespond, hmore⟩
    exact ⟨.nested hcorrespond, hmore⟩

end

/-- Trees of one shape correspond, with whatever relates their values one by one and the values
being those in the same places. -/
theorem SameShape.corresponds {x x' : Tree ρ} (hshape : x.SameShape x')
    (h : List.Forall₂ R x.values x'.values) :
    x.Corresponds (fun b b' => (b, b') ∈ x.values.zip x'.values ∧ R b b') x' := by
  have hpaired : List.Forall₂ (fun b b' => (b, b') ∈ x.values.zip x'.values ∧ R b b')
      (x.values ++ []) (x'.values ++ []) := by
    rcases List.forall₂_iff_zip.mp h with ⟨hlength, hrelated⟩
    rw [List.append_nil, List.append_nil]
    exact List.forall₂_iff_zip.mpr ⟨hlength, fun hmem => ⟨hmem, hrelated hmem⟩⟩
  exact (corresponds_of_values x x' hshape hpaired).1

end Values

/-- The items correspond. -/
inductive Item.Corresponds (R : Bindable ρ → Bindable ρ → Prop) :
    Tree.Item ρ → Tree.Item ρ → Prop where
  | step {s s' : Tree.Step ρ} (h : s.Corresponds R s') : Corresponds R (.step s) (.step s')
  | part {p p' : Tree.Part ρ} (h : p.Corresponds R p') : Corresponds R (.part p) (.part p')

/-! ### Normalising what corresponds -/

section Normalize

variable {R : Bindable ρ → Bindable ρ → Prop}

theorem Part.Corresponds.isNull_eq (hR : ∀ b b', R b b' → b.val.isNull = b'.val.isNull)
    {p p' : Tree.Part ρ} (h : p.Corresponds R p') : p.isNull = p'.isNull := by
  cases h with
  | value hb => exact hR _ _ hb
  | _ => rfl

theorem Part.Corresponds.isSingle_eq {p p' : Tree.Part ρ} (h : p.Corresponds R p') :
    p.isSingle = p'.isSingle := by
  cases h <;> rfl

theorem absence?_corresponds (hR : ∀ b b', R b b' → b.val.isNull = b'.val.isNull)
    {parts parts' : List (Tree.Part ρ)}
    (h : List.Forall₂ (Part.Corresponds R) parts parts') :
    Option.Rel (Step.Corresponds R) (absence? parts) (absence? parts') := by
  rcases h with _ | ⟨hp, _ | ⟨hq, _ | _⟩⟩
  · exact .none
  · exact .none
  · simp only [absence?, hq.isNull_eq hR]
    split
    · exact .some (.intro "hasNot" (.cons hp .nil))
    · exact .none
  · exact .none

theorem nothing?_corresponds {parts parts' : List (Tree.Part ρ)}
    (h : List.Forall₂ (Part.Corresponds R) parts parts') :
    Option.Rel (Step.Corresponds R) (nothing? parts) (nothing? parts') := by
  cases h with
  | nil => exact .some (.intro "none" .nil)
  | cons => exact .none

theorem unsingled?_corresponds (omitSingle : Bool) {parts parts' : List (Tree.Part ρ)}
    (h : List.Forall₂ (Part.Corresponds R) parts parts') :
    Option.Rel (Step.Corresponds R) (unsingled? omitSingle parts)
      (unsingled? omitSingle parts') := by
  cases h with
  | nil => exact .none
  | cons hp hrest =>
    simp only [unsingled?, hp.isSingle_eq]
    split
    · exact .some (.intro "property" hrest)
    · exact .none

/-- A step of normalising is taken from both of two steps that correspond or from neither, and
leads to steps that correspond. -/
theorem Step.Corresponds.normalize? (hR : ∀ b b', R b b' → b.val.isNull = b'.val.isNull)
    (omitSingle : Bool) {s s' : Tree.Step ρ} (h : s.Corresponds R s') :
    Option.Rel (Step.Corresponds R) (s.normalize? omitSingle) (s'.normalize? omitSingle) := by
  rcases h with ⟨name, hparts⟩
  unfold Step.normalize?
  simp only
  by_cases hhas : name = "has"
  · rw [if_pos hhas, if_pos hhas]
    exact absence?_corresponds hR hparts
  rw [if_neg hhas, if_neg hhas]
  by_cases hlabel : name = "hasLabel"
  · rw [if_pos hlabel, if_pos hlabel]
    exact nothing?_corresponds hparts
  rw [if_neg hlabel, if_neg hlabel]
  by_cases hproperty : name = "property"
  · rw [if_pos hproperty, if_pos hproperty]
    exact unsingled?_corresponds omitSingle hparts
  · rw [if_neg hproperty, if_neg hproperty]
    exact .none

end Normalize

end Tree

/-! ## Pieces that correspond -/

/-- The pieces are one text, or values that are related. -/
inductive Piece.Corresponds (R : Bindable ρ → Bindable ρ → Prop) : Piece ρ → Piece ρ → Prop where
  | fixed (s : String) : Corresponds R (.fixed s) (.fixed s)
  | value {b b' : Bindable ρ} (h : R b b') : Corresponds R (.value b) (.value b')

/-- Pieces that correspond one by one. -/
abbrev Piece.Parallel (R : Bindable ρ → Bindable ρ → Prop) :
    List (Piece ρ) → List (Piece ρ) → Prop :=
  List.Forall₂ (Piece.Corresponds R)

section Drafts

variable {R : Bindable ρ → Bindable ρ → Prop}

theorem Piece.parallel_separated (mark : String) (separate : Bool)
    {groups groups' : List (List (Piece ρ))} (h : List.Forall₂ (Piece.Parallel R) groups groups') :
    Piece.Parallel R (separated mark separate groups) (separated mark separate groups') := by
  induction h generalizing separate with
  | nil => exact .nil
  | cons hgroup _ ih =>
    have hrest := List.rel_append hgroup (ih true)
    cases separate with
    | false => exact hrest
    | true => exact .cons (.fixed mark) hrest

namespace Draft

/-- Atoms that resolve to items that correspond are dispatched alike. -/
def DispatchAlike (R : Bindable ρ → Bindable ρ → Prop) (dispatch dispatch' : Atom ρ → Draft ρ) :
    Prop :=
  ∀ a a' i i', a.Denotes i → a'.Denotes i' → i.Corresponds R i' →
    Agree (Piece.Parallel R) (dispatch a) (dispatch' a')

variable {dispatch dispatch' : Atom ρ → Draft ρ}

/-- Where the parts are written alike, steps that correspond are. -/
theorem agree_step (h : DispatchAlike R dispatch dispatch') {s s' : Step ρ}
    {x x' : Tree.Step ρ} (hs : Tree.ofStep Traversal.tree s = .ok x)
    (hs' : Tree.ofStep Traversal.tree s' = .ok x') (hx : x.Corresponds R x') :
    Agree (Piece.Parallel R) (step dispatch s) (step dispatch' s') := by
  rcases hx with ⟨name, hcorrespond⟩
  rcases Tree.ofStep_eq_ok_iff.mp hs with ⟨hname, hparts⟩
  rcases Tree.ofStep_eq_ok_iff.mp hs' with ⟨hname', hparts'⟩
  have hdispatched : List.Forall₂
      (fun v v' => Agree (Piece.Parallel R) (dispatch (.value v)) (dispatch' (.value v')))
      s.parameters s'.parameters := by
    refine forall₂_through ?_ hparts hparts' hcorrespond
    intro v v' p p' hv hv' hp
    exact h _ _ _ _ (.value hv) (.value hv') (.part hp)
  rw [step_eq, step_eq, hname, hname']
  refine (Agree.mapM_of_forall₂ hdispatched).map ?_
  intro groups groups' hgroups
  have hclosed := List.rel_append (Piece.parallel_separated ", " false hgroups)
    (.cons (.fixed ")") .nil)
  exact .cons (.fixed name) (.cons (.fixed "(") hclosed)

/-- Where the steps are written alike, traversals that correspond are. -/
theorem agree_traversal (h : DispatchAlike R dispatch dispatch') {t t' : Traversal ρ}
    {x x' : Tree ρ} (ht : t.tree = .ok x) (ht' : t'.tree = .ok x') (hx : x.Corresponds R x') :
    Agree (Piece.Parallel R) (traversal dispatch t) (traversal dispatch' t') := by
  rw [Traversal.tree_eq] at ht ht'
  rcases map_eq_ok_iff.mp ht with ⟨steps, hsteps, rfl⟩
  rcases map_eq_ok_iff.mp ht' with ⟨steps', hsteps', rfl⟩
  rcases Tree.resolved_eq_ok hsteps with ⟨groups, hgroups, hpairs⟩
  rcases Tree.resolved_eq_ok hsteps' with ⟨groups', hgroups', hpairs'⟩
  generalize hgraph : t.graph = graph at hx
  generalize hgraph' : t'.graph = graph' at hx
  cases hx with
  | intro _ hcorrespond =>
    have hdispatched : List.Forall₂
        (fun r r' => Agree (Piece.Parallel R) (dispatch (.step r)) (dispatch' (.step r')))
        groups.flatten groups'.flatten := by
      refine forall₂_through ?_ hpairs hpairs' hcorrespond
      intro r r' s s' hr hr' hs
      exact h _ _ _ _ (.step hr) (.step hr') (.step hs)
    rw [traversal_of_resolved hgroups, traversal_of_resolved hgroups', hgraph, hgraph']
    refine (Agree.mapM_of_forall₂ hdispatched).map ?_
    intro written written' hwritten
    exact .cons (.fixed graph) (Piece.parallel_separated "." _ hwritten)

/-- Where the parts are written alike, atoms that correspond are. -/
theorem agree_atom (h : DispatchAlike R dispatch dispatch') {a a' : Atom ρ}
    {i i' : Tree.Item ρ} (ha : a.Denotes i) (ha' : a'.Denotes i') (hi : i.Corresponds R i') :
    Agree (Piece.Parallel R) (atom dispatch a) (atom dispatch' a') := by
  cases hi with
  | step hx =>
    cases ha with
    | step hs =>
      cases ha' with
      | step hs' => exact agree_step h hs hs' hx
  | part hp =>
    cases ha with
    | @value v _ hv =>
      cases ha' with
      | @value v' _ hv' =>
        show Agree (Piece.Parallel R) (value dispatch v) (value dispatch' v')
        cases hp with
        | nested hx =>
          rcases Tree.part_eq_nested_iff.mp hv with ⟨t, rfl, ht⟩
          rcases Tree.part_eq_nested_iff.mp hv' with ⟨t', rfl, ht'⟩
          exact agree_traversal h ht ht' hx
        | value hb =>
          rw [value_of_part dispatch hv (by simp), value_of_part dispatch' hv' (by simp)]
          exact .cons (.value hb) .nil
        | _ =>
          rw [value_of_part dispatch hv (by simp), value_of_part dispatch' hv' (by simp)]
          exact .cons (.fixed _) .nil

end Draft

/-! ## Dialects that heed shapes -/

/-- On atoms that correspond the dialect either passes, or it makes substitutes that
correspond. -/
def Dialect.HeedsShape (R : Bindable ρ → Bindable ρ → Prop) (options : Options) (d : Dialect ρ) :
    Prop :=
  ∀ a a' i i', a.Denotes i → a'.Denotes i' → i.Corresponds R i' →
    (d.verdict options a = .pass ∧ d.verdict options a' = .pass) ∨
      ∃ b b' j j', d.verdict options a = .substitute b ∧ d.verdict options a' = .substitute b' ∧
        b.Denotes j ∧ b'.Denotes j' ∧ j.Corresponds R j'

/-- Atoms that correspond are dispatched in lock-step. -/
theorem Draft.agree_within {d : Dialect ρ} {options : Options} (hd : d.HeedsShape R options)
    (room depth : Nat) :
    DispatchAlike R (within d options room depth) (within d options room depth) := by
  -- whatever is dispatched from here, for both, has less room at a depth that is the same for both
  induction room generalizing depth with
  | zero =>
    intro a a' i i' _ _ _
    exact rfl
  | succ room ih =>
    intro a a' i i' ha ha' hi
    rw [within, within]
    rcases hd a a' i i' ha ha' hi with ⟨hpass, hpass'⟩ |
      ⟨b, b', j, j', hverdict, hverdict', hb, hb', hj⟩
    · rw [hpass, hpass']
      exact agree_atom (ih depth) ha ha' hi
    · rw [hverdict, hverdict']
      simp only [after]
      split
      · exact rfl
      · exact ih (depth + 1) b b' j j' hb hb' hj

namespace Dialect

theorem heedsShape_plain (options : Options) : (plain : Dialect ρ).HeedsShape R options :=
  fun _ _ _ _ _ _ _ => Or.inl ⟨rfl, rfl⟩

theorem heedsShape_groovy (hR : ∀ b b', R b b' → b.val.isNull = b'.val.isNull)
    (options : Options) : (groovy : Dialect ρ).HeedsShape R options := by
  intro a a' i i' ha ha' hi
  cases hi with
  | part hp =>
    cases ha with
    | value hv =>
      cases ha' with
      | value hv' => exact Or.inl ⟨groovy_verdict_value _ _, groovy_verdict_value _ _⟩
  | step hx =>
    cases ha with
    | step hs =>
      cases ha' with
      | step hs' =>
        have hmade := groovy_verdict_makes options hs
        have hmade' := groovy_verdict_makes options hs'
        have hrel := hx.normalize? hR options.omitSingle
        generalize Tree.Step.normalize? options.omitSingle _ = made at hmade hrel
        generalize Tree.Step.normalize? options.omitSingle _ = made' at hmade' hrel
        cases hrel with
        | none => exact Or.inl ⟨hmade, hmade'⟩
        | some hy =>
          rcases hmade with ⟨b, hverdict, hb⟩
          rcases hmade' with ⟨b', hverdict', hb'⟩
          exact Or.inr ⟨b, b', _, _, hverdict, hverdict', hb, hb', .step hy⟩

/-- Traversals whose trees correspond are compiled in lock-step. -/
theorem HeedsShape.agree_draft {d : Dialect ρ} {t t' : Traversal ρ} {x x' : Tree ρ}
    (hd : d.HeedsShape R t.environment.options) (ht : t.tree = .ok x) (ht' : t'.tree = .ok x')
    (hoptions : t.environment.options = t'.environment.options) (hx : x.Corresponds R x') :
    Agree (Piece.Parallel R) (d.draft t) (d.draft t') := by
  have ha : (Atom.value (.traversal t)).Denotes (.part (.nested x)) :=
    .value (Tree.part_eq_nested_iff.mpr ⟨t, rfl, ht⟩)
  have ha' : (Atom.value (.traversal t')).Denotes (.part (.nested x')) :=
    .value (Tree.part_eq_nested_iff.mpr ⟨t', rfl, ht'⟩)
  rw [draft, draft, ← hoptions]
  exact Draft.agree_within hd _ 0 _ _ _ _ ha ha' (.part (.nested hx))

end Dialect

end Drafts

/-! ## Binding what corresponds -/

/-- Of related values, two are written alike on one side exactly if they are on the other. -/
def Bindable.SamePattern (R : Bindable ρ → Bindable ρ → Prop) : Prop :=
  ∀ b b' c c', R b b' → R c c' →
    (Parameters.keyOf b.val = Parameters.keyOf c.val ↔
      Parameters.keyOf b'.val = Parameters.keyOf c'.val)

/-- Related values are bound in the same places. -/
def Parameters.Corresponds (R : Bindable ρ → Bindable ρ → Prop) (p p' : Parameters) : Prop :=
  List.Forall₂
    (fun entry entry' => ∃ b b', R b b' ∧ entry = (keyOf b.val, b.val.toJson) ∧
      entry' = (keyOf b'.val, b'.val.toJson))
    p.bound p'.bound

/-- The outputs show one text, with parameters in which related values are bound. -/
structure Output.Corresponds (R : Bindable ρ → Bindable ρ → Prop) (o o' : Output) : Prop where
  text : o.text = o'.text
  parameters : o.parameters.Corresponds R o'.parameters

section Binding

variable {R : Bindable ρ → Bindable ρ → Prop} {b b' : Bindable ρ}

namespace Parameters

variable {p p' : Parameters}

/-- Related values are found in the same place, if at all. -/
theorem Corresponds.indexOf?_eq (hR : Bindable.SamePattern R) (h : p.Corresponds R p')
    (hb : R b b') : p.indexOf? (keyOf b.val) = p'.indexOf? (keyOf b'.val) := by
  unfold indexOf?
  unfold Parameters.Corresponds at h
  generalize p.bound = bound at h
  generalize p'.bound = bound' at h
  induction h with
  | nil => rfl
  | cons hentry _ ih =>
    rcases hentry with ⟨c, c', hc, rfl, rfl⟩
    simp only [List.findIdx?_cons, hR c c' b b' hc hb, ih]

theorem Corresponds.name_eq (hR : Bindable.SamePattern R) (h : p.Corresponds R p')
    (hb : R b b') : p.name b.val = p'.name b'.val := by
  rw [name, name, h.indexOf?_eq hR hb, List.Forall₂.length_eq h]

theorem Corresponds.bind (hR : Bindable.SamePattern R) (h : p.Corresponds R p') (hb : R b b') :
    (p.bind b.val).2.Corresponds R (p'.bind b'.val).2 := by
  have hindex := h.indexOf?_eq hR hb
  cases hfound : p'.indexOf? (keyOf b'.val) with
  | some n =>
    rw [bind_of_some (hindex.trans hfound), bind_of_some hfound]
    exact h
  | none =>
    rw [bind_of_none (hindex.trans hfound), bind_of_none hfound]
    exact List.rel_append h (.cons ⟨b, b', hb, rfl, rfl⟩ .nil)

/-- What corresponds has the same names, for the JSON forms of related values. -/
theorem Corresponds.rows (h : p.Corresponds R p') :
    List.Forall₂
      (fun row row' => row.1 = row'.1 ∧
        ∃ b b', R b b' ∧ row.2 = b.val.toJson ∧ row'.2 = b'.val.toJson)
      p.rows p'.rows := by
  refine forall₂_mapIdx h ?_
  rintro n _ _ ⟨b, b', hb, rfl, rfl⟩
  exact ⟨rfl, b, b', hb, rfl, rfl⟩

end Parameters

namespace Output

variable {o o' : Output}

theorem Corresponds.push (h : o.Corresponds R o') (s : String) :
    (o.push s).Corresponds R (o'.push s) :=
  ⟨congrArg (· ++ s) h.text, h.parameters⟩

/-- Related values are written under one name. -/
theorem Corresponds.bind (hR : Bindable.SamePattern R) (h : o.Corresponds R o') (hb : R b b') :
    (o.bind b.val).Corresponds R (o'.bind b'.val) := by
  constructor
  · show o.text ++ (o.parameters.bind b.val).1 = o'.text ++ (o'.parameters.bind b'.val).1
    rw [Parameters.bind_fst, Parameters.bind_fst, h.text, h.parameters.name_eq hR hb]
  · exact h.parameters.bind hR hb

/-- Binding pieces that correspond leads to outputs that correspond. -/
theorem Corresponds.writeAll (hR : Bindable.SamePattern R) {mode : Mode}
    (hmode : mode.inlined = false) (h : o.Corresponds R o') {ps ps' : List (Piece ρ)}
    (hps : Piece.Parallel R ps ps') :
    (Piece.writeAll mode o ps).Corresponds R (Piece.writeAll mode o' ps') := by
  induction hps generalizing o o' with
  | nil => exact h
  | cons hp _ ih =>
    rw [Piece.writeAll_cons, Piece.writeAll_cons]
    apply ih
    cases hp with
    | fixed s => exact h.push s
    | @value b b' hb =>
      rw [Piece.write_value hmode, Piece.write_value hmode]
      exact h.bind hR hb

end Output

end Binding

/-! ## Scripts -/

/-- The two scripts, written for two drafts, have one text and the same names for parameters.
What they hold under a name are the JSON forms of related values, and these are the values at the
places of the drafts where the text shows the name. -/
structure Script.Corresponds (R : Bindable ρ → Bindable ρ → Prop) (pieces pieces' : List (Piece ρ))
    (s s' : Script) : Prop where
  text : s.text = s'.text
  parameters :
    List.Forall₂
      (fun row row' => row.1 = row'.1 ∧
        ∃ b b', R b b' ∧ row.2 = b.val.toJson ∧ row'.2 = b'.val.toJson)
      s.parameters s'.parameters
  names : ∃ name name' : Value ρ → String,
    s.text = Piece.text name pieces ∧ s'.text = Piece.text name' pieces' ∧
      Piece.Parallel
        (fun b b' => R b b' ∧ name b.val = name' b'.val ∧
          s.parameters.lookup (name b.val) = some b.val.toJson ∧
          s'.parameters.lookup (name' b'.val) = some b'.val.toJson)
        pieces pieces'

/-- Values that occur in pieces that correspond may be related by what follows from that. -/
theorem Piece.parallel_imp {R S : Bindable ρ → Bindable ρ → Prop} {ps ps' : List (Piece ρ)}
    (h : Piece.Parallel R ps ps')
    (hRS : ∀ b b', .value b ∈ ps → .value b' ∈ ps' → R b b' → S b b') :
    Piece.Parallel S ps ps' := by
  rcases List.forall₂_iff_zip.mp h with ⟨hlength, hzip⟩
  refine List.forall₂_iff_zip.mpr ⟨hlength, ?_⟩
  intro p p' hmem
  rcases List.of_mem_zip hmem with ⟨hp, hp'⟩
  cases hzip hmem with
  | fixed s => exact .fixed s
  | value hb => exact .value (hRS _ _ hp hp' hb)

/-- Whether a value is null is a matter of its kind. -/
theorem Value.isNull_eq_of_kind {v w : Value ρ} (h : v.kind = w.kind) : v.isNull = w.isNull := by
  have hkind : ∀ u : Value ρ, u.isNull = (u.kind = .null) := by
    intro u
    cases u <;> simp [isNull, kind]
  have hnull := (hkind v).trans (h ▸ (hkind w).symm)
  simpa using hnull

namespace Dialect

/-- Drafts that correspond are written into scripts that correspond. -/
theorem script_corresponds {R : Bindable ρ → Bindable ρ → Prop} (hR : Bindable.SamePattern R)
    (options : Options) {ps ps' : List (Piece ρ)} (h : Piece.Parallel R ps ps') :
    (script ⟨false, options⟩ ps).Corresponds R ps ps' (script ⟨false, options⟩ ps') := by
  have hmode : (⟨false, options⟩ : Mode).inlined = false := rfl
  have hempty : ({} : Output).Corresponds R {} := ⟨rfl, .nil⟩
  have houtputs := hempty.writeAll hR hmode h
  have hbound := Piece.bound_writeAll hmode {} ps
  have hbound' := Piece.bound_writeAll hmode {} ps'
  have hformed := hbound.wellFormed Parameters.wellFormed_empty
  have hformed' := hbound'.wellFormed Parameters.wellFormed_empty
  refine ⟨houtputs.text, houtputs.parameters.rows,
    (Piece.writeAll ⟨false, options⟩ {} ps).parameters.name,
    (Piece.writeAll ⟨false, options⟩ {} ps').parameters.name, ?_, ?_, ?_⟩
  · simpa [script, Output.script] using hbound.text
  · simpa [script, Output.script] using hbound'.text
  · refine Piece.parallel_imp h ?_
    intro b b' hb hb' hrelated
    have hname := houtputs.parameters.name_eq hR hrelated
    have hlookup := Parameters.lookup_name hformed (hbound.holds b hb)
    have hlookup' := Parameters.lookup_name hformed' (hbound'.holds b' hb')
    exact ⟨hrelated, hname, hlookup, hlookup'⟩

/-- Where literals are bound, the plain and the standard dialect make no more of them than their
kinds and which of them are written alike. Two traversals with the same options, trees of one
shape, values of the same kinds in the same places, and the same pattern of equal keys among
them, fail with the same error or have the same text and the same names for parameters, and under
each name the JSON forms of the values at one place of the trees. -/
theorem bound_scripts_correspond {d : Dialect ρ} (hd : d = plain ∨ d = groovy)
    {t t' : Traversal ρ} {x x' : Tree ρ} (ht : t.tree = .ok x) (ht' : t'.tree = .ok x')
    (hoptions : t.environment.options = t'.environment.options) (hshape : x.SameShape x')
    (hkinds : List.Forall₂ (fun b b' => b.val.kind = b'.val.kind) x.values x'.values)
    (hpattern : ∀ p ∈ x.values.zip x'.values, ∀ q ∈ x.values.zip x'.values,
      (Parameters.keyOf p.1.val = Parameters.keyOf q.1.val ↔
        Parameters.keyOf p.2.val = Parameters.keyOf q.2.val)) :
    Agree
      (fun s s' => ∃ pieces pieces', d.draft t = .ok pieces ∧ d.draft t' = .ok pieces' ∧
        s.Corresponds (fun b b' => (b, b') ∈ x.values.zip x'.values) pieces pieces' s')
      (d.compile t false) (d.compile t' false) := by
  have hpattern' : Bindable.SamePattern fun b b' => (b, b') ∈ x.values.zip x'.values :=
    fun b b' c c' hb hc => hpattern (b, b') hb (c, c') hc
  -- the kinds are needed until the rules have been followed
  have hcorresponds := hshape.corresponds hkinds
  have hheeds : d.HeedsShape
      (fun b b' => (b, b') ∈ x.values.zip x'.values ∧ b.val.kind = b'.val.kind)
      t.environment.options := by
    rcases hd with rfl | rfl
    · exact heedsShape_plain _
    · exact heedsShape_groovy (fun b b' hb => Value.isNull_eq_of_kind hb.2) _
  have hready : d.IsReady := by
    rcases hd with rfl | rfl
    · exact isReady_plain
    · exact isReady_plain.withStandard
  have hdrafts := hheeds.agree_draft ht ht' hoptions hcorresponds
  rw [compile_eq_draft hready, compile_eq_draft hready, ← hoptions]
  refine hdrafts.map_of_eq ?_
  intro pieces pieces' hdraft hdraft' hparallel
  have hpaired := Piece.parallel_imp hparallel fun _ _ _ _ hb => hb.1
  exact ⟨pieces, pieces', hdraft, hdraft', script_corresponds hpattern' _ hpaired⟩

end Dialect

/-! ### An example -/

/-- A search for two names, the first of which is asked for again in a nested traversal. -/
def Traversal.search (first second : String) : Traversal Unit :=
  ⟨"g", .ofList
    [⟨"has", [.key "name", .text first]⟩,
     ⟨"has", [.key "alias", .text second]⟩,
     ⟨"has", [.key "age", .null]⟩,
     ⟨"where", [.traversal ⟨"__", .ofList [⟨"is", [.text first]⟩], default, 0, ∅⟩]⟩],
    { options := {}, pipeline := () }, 0, ∅⟩

/-- The tree of the search. -/
def Tree.search (first second : String) : Tree Unit :=
  ⟨"g",
    [⟨"has", [.key "name", .value (.text first)]⟩,
     ⟨"has", [.key "alias", .value (.text second)]⟩,
     ⟨"has", [.key "age", .value .null]⟩,
     ⟨"where", [.nested ⟨"__", [⟨"is", [.value (.text first)]⟩]⟩]⟩]⟩

namespace Dialect

theorem bound_scripts_correspond_search :
    (∃ s, groovy.compile (Traversal.search "ann" "bob") false = .ok s) ∧
    Agree
      (fun s s' => ∃ pieces pieces', groovy.draft (Traversal.search "ann" "bob") = .ok pieces ∧
        groovy.draft (Traversal.search "' + x" "") = .ok pieces' ∧
        s.Corresponds (fun b b' => (b, b') ∈
          (Tree.search "ann" "bob").values.zip (Tree.search "' + x" "").values) pieces pieces' s')
      (groovy.compile (Traversal.search "ann" "bob") false)
      (groovy.compile (Traversal.search "' + x" "") false) := by
  have hshape : (Tree.search "ann" "bob").SameShape (Tree.search "' + x" "") := by
    repeat' constructor
  have hkinds : List.Forall₂ (fun b b' => b.val.kind = b'.val.kind)
      (Tree.search "ann" "bob").values (Tree.search "' + x" "").values := by
    repeat' constructor
  refine ⟨⟨_, rfl⟩, ?_⟩
  refine bound_scripts_correspond (Or.inr rfl) rfl rfl rfl hshape hkinds ?_
  decide +kernel

end Dialect

end Gremlin
