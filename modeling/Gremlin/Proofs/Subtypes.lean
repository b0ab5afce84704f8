import Mathlib.Algebra.BigOperators.Group.Finset.Basic
import Mathlib.Algebra.Order.BigOperators.Group.Finset
import Mathlib.Logic.Relation
import Gremlin.Proofs.Results
import Gremlin.Script.Stock

/-!
# Subtypes

The labels of a type are those of everything that derives from it by any number of declarations,
whatever the declarations are: they may go in circles, meet again, or name types without labels.

1. `Schema.DepthFirst` says which types a walk visits, and in which order; there is exactly one
   such order (`exists_depthFirst`, `DepthFirst.unique`), and from one type it lists what derives
   from it (`DepthFirst.mem_iff_reaches`);
2. `Schema.walk_of_depthFirst`: the walk looks up the labels in this order;
3. `Schema.entries_le`: the walk has steps enough to come to its end;
4. `Schema.derivedLabels_eq_closure`: what the walk gives in the end.
-/

namespace Gremlin

namespace Schema

variable (s : Schema)

/-! ## Declarations -/

/-- The second type is declared to derive from the first. -/
def Declares (t u : String) : Prop := ∃ below, s.subtypes[t]? = some below ∧ u ∈ below

/-- The second type derives from the first by any number of declarations. -/
def Reaches : String → String → Prop := Relation.ReflTransGen s.Declares

theorem mem_subtypesOf {t u : String} : u ∈ s.subtypesOf t ↔ s.Declares t u := by
  unfold subtypesOf Declares
  rw [Std.TreeSet.mem_toList, Std.TreeMap.getD_eq_getD_getElem?]
  cases s.subtypes[t]? <;> simp

theorem subtypesOf_ascending (t : String) : (s.subtypesOf t).Pairwise (· < ·) :=
  ascending_toList _

/-! ## Walks -/

/-- The pending types are visited one after another, each with everything below it before the
next, and without those that were seen: these are the types visited, in order. -/
inductive DepthFirst : (seen pending order : List String) → Prop
  | done (seen : List String) : DepthFirst seen [] []
  | skip {seen pending order : List String} {t : String} (met : t ∈ seen)
    (rest : DepthFirst seen pending order) : DepthFirst seen (t :: pending) order
  | visit {seen pending below order : List String} {t : String} (new : t ∉ seen)
    (down : DepthFirst (t :: seen) (s.subtypesOf t) below)
    (rest : DepthFirst (below ++ t :: seen) pending order) :
    DepthFirst seen (t :: pending) (t :: below ++ order)

variable {s} {seen pending order : List String}

theorem DepthFirst.unique {order' : List String} (h : s.DepthFirst seen pending order)
    (h' : s.DepthFirst seen pending order') : order = order' := by
  induction h generalizing order' with
  | done => cases h' with | done => rfl
  | skip hmet _ ih =>
    cases h' with
    | skip _ hrest => exact ih hrest
    | visit hnew => exact absurd hmet hnew
  | visit hnew _ _ ihdown ihrest =>
    cases h' with
    | skip hmet => exact absurd hmet hnew
    | visit _ hdown hrest =>
      rw [ihdown hdown] at ihrest ⊢
      rw [ihrest hrest]

/-- A type is visited once, and only if it was not seen. -/
theorem DepthFirst.nodup (h : s.DepthFirst seen pending order) :
    order.Nodup ∧ order.Disjoint seen := by
  induction h with
  | done => simp
  | skip _ _ ih => exact ih
  | visit hnew _ _ ihdown ihrest =>
    obtain ⟨hbelow, hdown⟩ := ihdown
    obtain ⟨horder, hrest⟩ := ihrest
    simp only [List.disjoint_cons_right, List.disjoint_append_right] at hdown hrest
    obtain ⟨htopBelow, hbelowSeen⟩ := hdown
    obtain ⟨hmeet, htopOrder, horderSeen⟩ := hrest
    simp only [List.cons_append, List.nodup_cons, List.mem_append, not_or, List.nodup_append',
      List.disjoint_cons_left, List.disjoint_append_left]
    -- the type itself is neither below itself nor visited later, and nothing below it is
    exact ⟨⟨⟨htopBelow, htopOrder⟩, hbelow, horder, hmeet.symm⟩, hnew, hbelowSeen, horderSeen⟩

/-- The types that are visited derive from the pending ones. -/
theorem DepthFirst.reaches (h : s.DepthFirst seen pending order) :
    ∀ u ∈ order, ∃ t ∈ pending, s.Reaches t u := by
  induction h with
  | done => simp
  | skip _ _ ih =>
    intro u hu
    obtain ⟨t, ht, hreach⟩ := ih u hu
    exact ⟨t, List.mem_cons_of_mem _ ht, hreach⟩
  | @visit seen pending below order t _ _ _ ihdown ihrest =>
    intro u hu
    rw [List.cons_append, List.mem_cons, List.mem_append] at hu
    rcases hu with rfl | hbelow | horder
    · exact ⟨u, List.mem_cons_self, .refl⟩
    · obtain ⟨v, hv, hreach⟩ := ihdown u hbelow
      exact ⟨t, List.mem_cons_self, .head (s.mem_subtypesOf.mp hv) hreach⟩
    · obtain ⟨v, hv, hreach⟩ := ihrest u horder
      exact ⟨v, List.mem_cons_of_mem _ hv, hreach⟩

/-- All pending types are visited unless they were seen, and so is everything that is declared
below a type that is visited. -/
theorem DepthFirst.closed (h : s.DepthFirst seen pending order) :
    (∀ t ∈ pending, t ∈ order ∨ t ∈ seen) ∧
      ∀ t ∈ order, ∀ u ∈ s.subtypesOf t, u ∈ order ∨ u ∈ seen := by
  induction h with
  | done => simp
  | skip hmet _ ih =>
    obtain ⟨hpending, hbelow⟩ := ih
    refine ⟨?_, hbelow⟩
    intro u hu
    rcases List.mem_cons.mp hu with rfl | hu
    · exact .inr hmet
    · exact hpending u hu
  | @visit seen pending below order t _ _ _ ihdown ihrest =>
    obtain ⟨hsubtypes, hbelow⟩ := ihdown
    obtain ⟨hpending, horder⟩ := ihrest
    simp only [List.cons_append, List.mem_cons, List.mem_append] at *
    constructor
    · rintro u (rfl | hu)
      · exact .inl (.inl rfl)
      · have hmet := hpending u hu
        tauto
    · -- what is below the type itself, below a type under it, and below one visited later
      rintro v (rfl | hv | hv) u hu
      · have hmet := hsubtypes u hu
        tauto
      · have hmet := hbelow v hv u hu
        tauto
      · have hmet := horder v hv u hu
        tauto

/-- From one type, the types visited are those that derive from it. -/
theorem DepthFirst.mem_iff_reaches {t : String} (h : s.DepthFirst [] [t] order) {u : String} :
    u ∈ order ↔ s.Reaches t u := by
  constructor
  · intro hu
    obtain ⟨v, hv, hreach⟩ := h.reaches u hu
    rw [List.mem_singleton] at hv
    rwa [← hv]
  · intro hreach
    obtain ⟨hpending, hbelow⟩ := h.closed
    simp only [List.not_mem_nil, or_false] at hpending hbelow
    induction hreach with
    | refl => exact hpending t List.mem_cons_self
    | tail _ hdeclares ih => exact hbelow _ ih _ (s.mem_subtypesOf.mpr hdeclares)

/-! ### Every walk comes to an end -/

variable (s) in
/-- The number of types with declared subtypes that were not seen. -/
def unseen (seen : List String) : Nat := (s.subtypes.keys.toFinset \ seen.toFinset).card

theorem unseen_anti {seen' : List String} (h : seen ⊆ seen') : s.unseen seen' ≤ s.unseen seen := by
  apply Finset.card_le_card
  apply Finset.sdiff_subset_sdiff subset_rfl
  intro t ht
  rw [List.mem_toFinset] at ht ⊢
  exact h ht

theorem unseen_lt {t : String} (hkey : t ∈ s.subtypes) (hnew : t ∉ seen) :
    s.unseen (t :: seen) < s.unseen seen := by
  unfold unseen
  rw [List.toFinset_cons, Finset.sdiff_insert]
  apply Finset.card_erase_lt_of_mem
  rw [Finset.mem_sdiff, List.mem_toFinset, List.mem_toFinset, Std.TreeMap.mem_keys]
  exact ⟨hkey, hnew⟩

theorem exists_depthFirst_of_le {n : Nat} (hn : s.unseen seen ≤ n) (pending : List String) :
    ∃ order, s.DepthFirst seen pending order := by
  -- on the types that are still unseen, and for as many of them on those that are pending
  induction n using Nat.strong_induction_on generalizing seen pending with
  | _ n ih =>
    induction pending generalizing seen with
    | nil => exact ⟨[], .done seen⟩
    | cons t pending ihrest =>
      by_cases hmet : t ∈ seen
      · obtain ⟨order, hrest⟩ := ihrest hn
        exact ⟨order, .skip hmet hrest⟩
      · obtain ⟨below, hdown⟩ : ∃ below, s.DepthFirst (t :: seen) (s.subtypesOf t) below := by
          by_cases hkey : t ∈ s.subtypes
          · have hlt : s.unseen (t :: seen) < n := Nat.lt_of_lt_of_le (unseen_lt hkey hmet) hn
            exact ih _ hlt le_rfl (s.subtypesOf t)
          · rw [subtypesOf, Std.TreeMap.getD_eq_fallback hkey]
            exact ⟨[], .done _⟩
        have hle : s.unseen (below ++ t :: seen) ≤ n := by
          refine (unseen_anti ?_).trans hn
          intro u hu
          exact List.mem_append_right _ (List.mem_cons_of_mem _ hu)
        obtain ⟨order, hrest⟩ := ihrest hle
        exact ⟨_, .visit hmet hdown hrest⟩

/-- There is an order for whatever was seen and whatever is pending. -/
theorem exists_depthFirst (s : Schema) (seen pending : List String) :
    ∃ order, s.DepthFirst seen pending order :=
  exists_depthFirst_of_le le_rfl pending

/-! ## Looking up labels on the way -/

variable (s) in
/-- The number of subtype declarations of the types. -/
def entries (types : List String) : Nat := (types.flatMap s.subtypesOf).length

/-- The walk over pending types looks up the labels of those that are visited, in order, and goes
on with what comes after, if all of them have one. -/
theorem walk_of_depthFirst (h : s.DepthFirst seen pending order) {met : Std.TreeSet String}
    (hmet : ∀ t, t ∈ met ↔ t ∈ seen) (labels : Std.TreeSet String) (after : List String)
    (steps : Nat) :
    s.walk (pending.length + s.entries order + steps) (pending ++ after) met labels =
      (order.mapM s.label).bind fun found =>
        s.walk steps after (met.insertMany order) (labels.insertMany found) := by
  induction h generalizing met labels after steps with
  | done => simp [entries, Except.bind, pure, Except.pure]
  | @skip seen pending order t hseen hrest ih =>
    have hcontains : met.contains t = true := Std.TreeSet.contains_iff_mem.mpr ((hmet t).mpr hseen)
    have hsteps : (t :: pending).length + s.entries order + steps =
        pending.length + s.entries order + steps + 1 := by
      rw [List.length_cons]
      omega
    rw [hsteps, List.cons_append, walk, if_pos hcontains]
    exact ih hmet labels after steps
  | @visit seen pending below order t hnew hdown hrest ihdown ihrest =>
    have hcontains : ¬ met.contains t = true := by
      rw [Std.TreeSet.contains_iff_mem, hmet]
      exact hnew
    have hentries : s.entries (t :: below ++ order) =
        (s.subtypesOf t).length + s.entries below + s.entries order := by
      simp [entries, Nat.add_assoc]
    have hsteps : (t :: pending).length + s.entries (t :: below ++ order) + steps =
        (s.subtypesOf t).length + s.entries below + (pending.length + s.entries order + steps)
          + 1 := by
      rw [List.length_cons, hentries]
      omega
    rw [hsteps, List.cons_append, walk, if_neg hcontains]
    cases hlabel : s.label t with
    | error e => simp [List.mapM_cons, hlabel, bind, Except.bind]
    | ok label =>
      -- the types below it come before those that were pending with it
      have hmet' : ∀ u, u ∈ met.insert t ↔ u ∈ t :: seen := by
        intro u
        rw [Std.TreeSet.mem_insert, List.mem_cons, hmet, Std.LawfulEqCmp.compare_eq_iff_eq,
          eq_comm]
      have hmet'' : ∀ u, u ∈ (met.insert t).insertMany below ↔ u ∈ below ++ t :: seen := by
        intro u
        rw [Std.TreeSet.mem_insertMany_list, hmet', List.contains_iff_mem, List.mem_append, or_comm]
      simp only
      rw [ihdown hmet', List.cons_append, List.mapM_cons, List.mapM_append, hlabel]
      cases hbelow : below.mapM s.label with
      | error e => rfl
      | ok found =>
        have hrest := ihrest hmet'' ((labels.insert label).insertMany found) after steps
        rw [Except.bind, hrest]
        cases order.mapM s.label with
        | error e => rfl
        | ok more =>
          simp only [Except.bind, bind, pure, Except.pure, Std.TreeSet.insertMany_cons,
            Std.TreeSet.insertMany_append]

/-- All subtype declarations are those of the types that have any. -/
theorem subtypeCount_eq (s : Schema) : s.subtypeCount = s.entries s.subtypes.keys := by
  have hsize : ∀ e ∈ s.subtypes.toList,
      e.2.size = ((fun t => (s.subtypesOf t).length) ∘ Prod.fst) e := by
    intro e he
    have hfound := Std.TreeMap.mem_toList_iff_getElem?_eq_some.mp he
    rw [Function.comp, subtypesOf, Std.TreeSet.length_toList, Std.TreeMap.getD_eq_getD_getElem?,
      hfound]
    rfl
  unfold subtypeCount entries
  rw [← Std.TreeMap.map_fst_toList_eq_keys, List.length_flatMap, List.map_map,
    ← List.map_congr_left hsize, List.sum_eq_foldl, List.foldl_map]

/-- Different types have no more subtype declarations than there are. -/
theorem entries_le (s : Schema) (h : order.Nodup) : s.entries order ≤ s.subtypeCount := by
  rw [subtypeCount_eq]
  unfold entries
  rw [List.length_flatMap, List.length_flatMap, ← List.sum_toFinset _ h,
    ← List.sum_toFinset _ Std.TreeMap.nodup_keys]
  apply Finset.sum_le_sum_of_ne_zero
  intro t _ hsubtypes
  by_contra hkey
  rw [List.mem_toFinset, Std.TreeMap.mem_keys] at hkey
  rw [subtypesOf, Std.TreeMap.getD_eq_fallback hkey] at hsubtypes
  contradiction

/-! ## Labels of a type -/

/-- The labels of a type that is not unconstrained are those of the types visited from it. -/
theorem derivedLabels_of_depthFirst {t : String} (h : s.DepthFirst [] [t] order)
    (hconstrained : t ∉ s.unconstrained) :
    s.derivedLabels t = (order.mapM s.label).map fun found =>
      ((∅ : Std.TreeSet String).insertMany found).toList := by
  have hcontains : ¬ s.unconstrained.contains t = true := by
    rwa [Std.TreeSet.contains_iff_mem]
  obtain ⟨steps, hsteps⟩ := Nat.exists_eq_add_of_le (s.entries_le h.nodup.1)
  have hseen : ∀ u, u ∈ (∅ : Std.TreeSet String) ↔ u ∈ ([] : List String) := by simp
  have hwalk := walk_of_depthFirst h hseen ∅ [] steps
  have hcount : s.subtypeCount + 1 = [t].length + s.entries order + steps := by
    rw [hsteps, List.length_singleton]
    omega
  rw [List.append_nil, ← hcount] at hwalk
  rw [derivedLabels, if_neg hcontains, hwalk]
  cases order.mapM s.label with
  | error e => rfl
  | ok found => cases steps <;> rfl

theorem label_eq_error_iff {t : String} {e : Error} :
    s.label t = .error e ↔ t ∉ s.labels ∧ e = .unknownMapping t := by
  unfold label
  rw [Std.TreeMap.mem_iff_isSome_getElem?]
  cases s.labels[t]? <;> simp [eq_comm]

theorem label_eq_ok_iff {t l : String} : s.label t = .ok l ↔ s.labels[t]? = some l := by
  unfold label
  cases s.labels[t]? <;> simp

theorem mem_labels_iff {t : String} : t ∈ s.labels ↔ ∃ l, s.label t = .ok l := by
  rw [Std.TreeMap.mem_iff_isSome_getElem?, Option.isSome_iff_exists]
  simp only [label_eq_ok_iff]

variable (s) in
/-- The labels of everything that derives from a type, each once. -/
structure LabelsBelow (t : String) (labels : List String) : Prop where
  ascending : labels.Pairwise (· < ·)
  mem_iff : ∀ l, l ∈ labels ↔ ∃ u, s.Reaches t u ∧ s.labels[u]? = some l
  nonempty : labels ≠ []

variable (s) in
/-- The second type is the first one without a label that is visited from the first. -/
def FirstUnlabelled (t u : String) : Prop :=
  ∃ before after, s.DepthFirst [] [t] (before ++ u :: after) ∧ (∀ v ∈ before, v ∈ s.labels) ∧
    u ∉ s.labels

section Constrained

variable {t : String} (hconstrained : t ∉ s.unconstrained)

include hconstrained

/-- It is the first missing label that is reported. -/
theorem derivedLabels_eq_error_iff {e : Error} :
    s.derivedLabels t = .error e ↔ ∃ u, s.FirstUnlabelled t u ∧ e = .unknownMapping u := by
  obtain ⟨order, horder⟩ := exists_depthFirst s [] [t]
  rw [derivedLabels_of_depthFirst horder hconstrained, map_eq_error_iff, mapM_eq_error_iff]
  constructor
  · rintro ⟨before, u, after, rfl, hbefore, hu⟩
    obtain ⟨hunlabelled, he⟩ := label_eq_error_iff.mp hu
    refine ⟨u, ⟨before, after, horder, ?_, hunlabelled⟩, he⟩
    intro v hv
    exact mem_labels_iff.mpr (hbefore v hv)
  · rintro ⟨u, ⟨before, after, hvisited, hbefore, hunlabelled⟩, he⟩
    refine ⟨before, u, after, horder.unique hvisited, ?_, label_eq_error_iff.mpr ⟨hunlabelled, he⟩⟩
    intro v hv
    exact mem_labels_iff.mp (hbefore v hv)

/-- With labels for everything that derives from the type, these are the labels. -/
theorem labelsBelow_of_derivedLabels {labels : List String} (h : s.derivedLabels t = .ok labels) :
    s.LabelsBelow t labels ∧ ∀ u, s.Reaches t u → u ∈ s.labels := by
  obtain ⟨order, horder⟩ := exists_depthFirst s [] [t]
  rw [derivedLabels_of_depthFirst horder hconstrained] at h
  obtain ⟨found, hfound, rfl⟩ := map_eq_ok_iff.mp h
  have hpairs := mapM_eq_ok_iff.mp hfound
  have hlabelled : ∀ u, s.Reaches t u → ∃ l ∈ found, s.label u = .ok l := by
    intro u hu
    exact exists_of_mem_left hpairs (horder.mem_iff_reaches.mpr hu)
  have hmem : ∀ l, l ∈ ((∅ : Std.TreeSet String).insertMany found).toList ↔ l ∈ found := by
    intro l
    rw [Std.TreeSet.mem_toList, Std.TreeSet.mem_insertMany_list, List.contains_iff_mem]
    simp
  refine ⟨⟨ascending_toList _, ?_, ?_⟩, ?_⟩
  · intro l
    rw [hmem]
    constructor
    · intro hl
      obtain ⟨u, hu, hlabel⟩ := exists_of_mem_right hpairs hl
      exact ⟨u, horder.mem_iff_reaches.mp hu, label_eq_ok_iff.mp hlabel⟩
    · rintro ⟨u, hu, hl⟩
      obtain ⟨l', hl', hlabel⟩ := hlabelled u hu
      rw [label_eq_ok_iff, hl] at hlabel
      injection hlabel with hlabel
      rwa [hlabel]
  · obtain ⟨l, hl, -⟩ := hlabelled t .refl
    exact List.ne_nil_of_mem ((hmem l).mpr hl)
  · intro u hu
    obtain ⟨l, -, hlabel⟩ := hlabelled u hu
    exact mem_labels_iff.mpr ⟨l, hlabel⟩

theorem exists_derivedLabels_iff :
    (∃ labels, s.derivedLabels t = .ok labels) ↔ ∀ u, s.Reaches t u → u ∈ s.labels := by
  constructor
  · rintro ⟨labels, h⟩
    exact (labelsBelow_of_derivedLabels hconstrained h).2
  · intro hlabelled
    cases h : s.derivedLabels t with
    | ok labels => exact ⟨labels, rfl⟩
    | error e =>
      obtain ⟨u, ⟨before, after, hvisited, -, hunlabelled⟩, -⟩ :=
        (derivedLabels_eq_error_iff hconstrained).mp h
      have hreach : s.Reaches t u := hvisited.mem_iff_reaches.mp (by simp)
      exact absurd (hlabelled u hreach) hunlabelled

end Constrained

end Schema

/-! ## Filters for types -/

/-- The dialect writes the name and the parameters of the step, wherever it stands. -/
def Dialect.WritesAsIs {ρ : Type} (d : Dialect ρ) (r : Step ρ) : Prop :=
  ∀ mode room depth, Dispatch.within d mode (room + 1) depth (.step r) =
    Encoding.step (Dispatch.within d mode room depth) r

theorem Dialect.writesAsIs_hasLabel {ρ : Type} {labels : List String} (h : labels ≠ []) :
    (groovy : Dialect ρ).WritesAsIs (Step.hasLabel labels) := by
  intro mode room depth
  have hchain : (groovy : Dialect ρ).chain (.step "hasLabel") = [.step .nothingForNoLabel] := rfl
  have hparameters : (Step.hasLabel labels : Step ρ).parameters.isEmpty = false := by
    rw [List.isEmpty_eq_false_iff]
    exact mt List.map_eq_nil_iff.mp h
  have hsubstitute : StepRule.nothingForNoLabel.substitute? mode (Step.hasLabel labels : Step ρ) =
      none := by
    rw [StepRule.substitute?, hparameters]
    rfl
  have htag : (Atom.step (Step.hasLabel labels) : Atom ρ).tag = .step "hasLabel" := rfl
  rw [Dispatch.within, htag, hchain, Dispatch.proceed]
  simp only [Rule.run, StepRule.run, hsubstitute]
  rfl

/-- An unconstrained type has no labels. Any other type has those of everything that derives from
it, or else the first label that is missing on the way is reported. So a filter for a type becomes
no filter, for an unconstrained type only, or one for these labels, which the standard dialect
writes as it is. -/
theorem Schema.derivedLabels_closure {ρ : Type} (s : Schema) (t : String) (mappings : Mappings) :
    (∀ u, (s.subtypesOf u).Pairwise (· < ·) ∧ ∀ v, v ∈ s.subtypesOf u ↔ s.Declares u v) ∧
    (∃! order, s.DepthFirst [] [t] order) ∧
    (t ∈ s.unconstrained → s.derivedLabels t = .ok []) ∧
    (t ∉ s.unconstrained →
      ((∃ labels, s.derivedLabels t = .ok labels) ↔ ∀ u, s.Reaches t u → u ∈ s.labels) ∧
      (∀ labels, s.derivedLabels t = .ok labels → s.LabelsBelow t labels ∧
        (Dialect.groovy : Dialect ρ).WritesAsIs (Step.hasLabel labels)) ∧
      ∀ e, s.derivedLabels t = .error e ↔ ∃ u, s.FirstUnlabelled t u ∧ e = .unknownMapping u) ∧
    (Step.ofType t : Step ρ).resolve ⟨.schema s, mappings⟩ = (s.derivedLabels t).map fun labels =>
      if t ∈ s.unconstrained then [] else [Step.hasLabel labels] := by
  have hunconstrained : t ∈ s.unconstrained → s.derivedLabels t = .ok [] := by
    intro h
    rw [derivedLabels, if_pos (Std.TreeSet.contains_iff_mem.mpr h)]
  have hresolve : (Step.ofType t : Step ρ).resolve ⟨.schema s, mappings⟩ =
      (s.derivedLabels t).map fun labels =>
        if labels.isEmpty then [] else [Step.hasLabel labels] := by
    rfl
  refine ⟨?_, ?_, hunconstrained, ?_, ?_⟩
  · intro u
    exact ⟨s.subtypesOf_ascending u, fun v => s.mem_subtypesOf⟩
  · obtain ⟨order, horder⟩ := s.exists_depthFirst [] [t]
    exact ⟨order, horder, fun _ hother => hother.unique horder⟩
  · intro h
    refine ⟨exists_derivedLabels_iff h, ?_, fun e => derivedLabels_eq_error_iff h⟩
    intro labels hlabels
    have hbelow := (labelsBelow_of_derivedLabels h hlabels).1
    exact ⟨hbelow, Dialect.writesAsIs_hasLabel hbelow.nonempty⟩
  · rw [hresolve]
    by_cases h : t ∈ s.unconstrained
    · simp [hunconstrained h, h, Except.map]
    · cases hlabels : s.derivedLabels t with
      | error e => rfl
      | ok labels =>
        have hnonempty := (labelsBelow_of_derivedLabels h hlabels).1.nonempty
        simp [Except.map, h, hnonempty]

/-- Two types that are declared to derive from each other have the same labels. -/
example : ((((({} : Schema).withType "base" "B").withType "part" "A").withSubtype "base" "part"
    ).withSubtype "part" "base").derivedLabels "base" = .ok ["A", "B"] := by
  rfl

end Gremlin
