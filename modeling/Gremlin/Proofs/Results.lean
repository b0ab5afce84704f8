import Mathlib.Data.List.Forall2

/-!
# Results that may be errors

What it takes for a chain of computations, or for one computation after another over a list, to
succeed or to fail.
-/

namespace Gremlin

variable {ε α β : Type}

section Single

variable {x : Except ε α}

theorem bind_eq_ok_iff {f : α → Except ε β} {b : β} :
    x >>= f = .ok b ↔ ∃ a, x = .ok a ∧ f a = .ok b := by
  cases x <;> simp [Bind.bind, Except.bind]

theorem bind_eq_error_iff {f : α → Except ε β} {e : ε} :
    x >>= f = .error e ↔ x = .error e ∨ ∃ a, x = .ok a ∧ f a = .error e := by
  cases x <;> simp [Bind.bind, Except.bind]

theorem map_eq_ok_iff {f : α → β} {b : β} : x.map f = .ok b ↔ ∃ a, x = .ok a ∧ f a = b := by
  cases x <;> simp [Except.map]

theorem map_eq_error_iff {f : α → β} {e : ε} : x.map f = .error e ↔ x = .error e := by
  cases x <;> simp [Except.map]

/-- One computation with a state after another, which is left out if the first one fails. -/
theorem bind_apply {σ : Type} (x : ExceptT ε (StateM σ) α) (f : α → ExceptT ε (StateM σ) β)
    (s : σ) :
    (x >>= f) s =
      match x s with
      | (.ok a, after) => f a after
      | (.error e, after) => (.error e, after) := by
  have hbind : (x >>= f) s = ExceptT.bindCont f (x s).1 (x s).2 := rfl
  rw [hbind]
  rcases x s with ⟨_ | _, _⟩ <;> rfl

end Single

section Lists

variable {f g : α → Except ε β} {as : List α}

theorem mapM_cons_eq_ok_iff {a : α} {bs : List β} :
    (a :: as).mapM f = .ok bs ↔
      ∃ b rest, f a = .ok b ∧ as.mapM f = .ok rest ∧ bs = b :: rest := by
  simp only [List.mapM_cons, bind_eq_ok_iff, pure, Except.pure, Except.ok.injEq]
  constructor
  · rintro ⟨b, hb, rest, hrest, rfl⟩
    exact ⟨b, rest, hb, hrest, rfl⟩
  · rintro ⟨b, rest, hb, hrest, rfl⟩
    exact ⟨b, hb, rest, hrest, rfl⟩

theorem mapM_cons_eq_error_iff {a : α} {e : ε} :
    (a :: as).mapM f = .error e ↔
      f a = .error e ∨ ∃ b, f a = .ok b ∧ as.mapM f = .error e := by
  simp [List.mapM_cons, bind_eq_error_iff, pure, Except.pure]

theorem mapM_eq_ok_iff {bs : List β} :
    as.mapM f = .ok bs ↔ List.Forall₂ (fun a b => f a = .ok b) as bs := by
  induction as generalizing bs with
  | nil => cases bs <;> simp [pure, Except.pure]
  | cons a rest ih =>
    rw [mapM_cons_eq_ok_iff, List.forall₂_cons_left_iff]
    simp only [ih]

theorem exists_of_mapM_eq_error {e : ε} (h : as.mapM f = .error e) : ∃ a ∈ as, f a = .error e := by
  induction as with
  | nil => contradiction
  | cons a rest ih =>
    rcases mapM_cons_eq_error_iff.mp h with hfirst | ⟨_, _, hrest⟩
    · exact ⟨a, List.mem_cons_self, hfirst⟩
    · rcases ih hrest with ⟨b, hb, hfail⟩
      exact ⟨b, List.mem_cons_of_mem _ hb, hfail⟩

/-- A list fails with the first failure among its items. -/
theorem mapM_eq_error_iff {e : ε} :
    as.mapM f = .error e ↔ ∃ before a after, as = before ++ a :: after ∧
      (∀ b ∈ before, ∃ c, f b = .ok c) ∧ f a = .error e := by
  induction as with
  | nil => simp [pure, Except.pure]
  | cons a rest ih =>
    rw [mapM_cons_eq_error_iff, ih]
    constructor
    · rintro (hfirst | ⟨b, hb, before, a', after, rfl, hbefore, hfail⟩)
      · exact ⟨[], a, rest, rfl, by simp, hfirst⟩
      · refine ⟨a :: before, a', after, rfl, ?_, hfail⟩
        exact List.forall_mem_cons.mpr ⟨⟨b, hb⟩, hbefore⟩
    · rintro ⟨before, a', after, hsplit, hbefore, hfail⟩
      cases before with
      | nil =>
        injection hsplit with ha
        rw [ha]
        exact .inl hfail
      | cons b before =>
        injection hsplit with ha hrest
        obtain ⟨hb, hbefore⟩ := List.forall_mem_cons.mp hbefore
        rw [ha]
        exact .inr ⟨hb.choose, hb.choose_spec, before, a', after, hrest, hbefore, hfail⟩

/-- Two lists give the same if their items do, one by one. -/
theorem mapM_eq_of_forall₂ {γ : Type} {g : γ → Except ε β} {cs : List γ}
    (h : List.Forall₂ (fun a c => f a = g c) as cs) : as.mapM f = cs.mapM g := by
  induction h with
  | nil => rfl
  | cons hfirst _ ih => rw [List.mapM_cons, List.mapM_cons, hfirst, ih]

theorem mapM_congr (h : ∀ a ∈ as, f a = g a) : as.mapM f = as.mapM g :=
  mapM_eq_of_forall₂ (List.forall₂_same.mpr h)

theorem mapM_mono {bs : List β} (h : ∀ a b, f a = .ok b → g a = .ok b) (hf : as.mapM f = .ok bs) :
    as.mapM g = .ok bs := by
  have hpairs := mapM_eq_ok_iff.mp hf
  rw [mapM_eq_ok_iff]
  apply hpairs.imp
  intro a b hab
  exact h a b hab

/-- What is done to each result can be done to all of them at the end. -/
theorem mapM_map_results {γ : Type} (f : α → Except ε β) (h : β → γ) (as : List α) :
    as.mapM (fun a => (f a).map h) = (as.mapM f).map (List.map h) := by
  induction as with
  | nil => rfl
  | cons a rest ih =>
    rw [List.mapM_cons, List.mapM_cons, ih]
    cases f a with
    | error e => rfl
    | ok b => cases rest.mapM f <;> rfl

/-- Changed items give what the items give, if each one does. -/
theorem mapM_map_eq {γ : Type} {g : γ → Except ε β} {change : α → γ} (h : ∀ a, g (change a) = f a)
    (as : List α) : (as.map change).mapM g = as.mapM f := by
  rw [List.mapM_map]
  exact mapM_congr fun a _ => h a

/-- Changed items give changed results, if each one does. -/
theorem mapM_map_map {γ δ : Type} {g : γ → Except ε δ} {change : α → γ} {after : β → δ}
    (h : ∀ a, g (change a) = (f a).map after) (as : List α) :
    (as.map change).mapM g = (as.mapM f).map (List.map after) := by
  rw [mapM_map_eq h, mapM_map_results]

/-- What stands in the second of two related lists is related to something in the first. -/
theorem exists_of_mem_right {R : α → β → Prop} {bs : List β} (h : List.Forall₂ R as bs) {b : β}
    (hb : b ∈ bs) : ∃ a ∈ as, R a b := by
  induction h with
  | nil => simp at hb
  | cons hab _ ih =>
    rcases List.mem_cons.mp hb with rfl | hrest
    · exact ⟨_, List.mem_cons_self, hab⟩
    · rcases ih hrest with ⟨a, ha, hr⟩
      exact ⟨a, List.mem_cons_of_mem _ ha, hr⟩

/-- What stands in the first of two related lists is related to something in the second. -/
theorem exists_of_mem_left {R : α → β → Prop} {bs : List β} (h : List.Forall₂ R as bs) {a : α}
    (ha : a ∈ as) : ∃ b ∈ bs, R a b := by
  have hflip : List.Forall₂ (flip R) bs as := h.flip
  exact exists_of_mem_right hflip ha

/-- Two lists are related if they are related to two lists that are. -/
theorem forall₂_through {γ δ : Type} {R : α → γ → Prop} {S : β → δ → Prop} {T : γ → δ → Prop}
    {Q : α → β → Prop} {as : List α} {bs : List β} {cs : List γ} {ds : List δ}
    (h : ∀ a b c d, R a c → S b d → T c d → Q a b) (hac : List.Forall₂ R as cs)
    (hbd : List.Forall₂ S bs ds) (hcd : List.Forall₂ T cs ds) : List.Forall₂ Q as bs := by
  induction hcd generalizing as bs with
  | nil =>
    rw [List.forall₂_nil_right_iff] at hac hbd
    rw [hac, hbd]
    exact .nil
  | cons hcd _ ih =>
    rcases List.forall₂_cons_right_iff.mp hac with ⟨a, as', ha, has, rfl⟩
    rcases List.forall₂_cons_right_iff.mp hbd with ⟨b, bs', hb, hbs, rfl⟩
    exact .cons (h _ _ _ _ ha hb hcd) (ih has hbs)

/-- Related lists are related when related items have been put in one place. -/
theorem forall₂_set {R : α → β → Prop} {bs : List β} (h : List.Forall₂ R as bs) {a : α} {b : β}
    (hab : R a b) (index : Nat) : List.Forall₂ R (as.set index a) (bs.set index b) := by
  induction h generalizing index with
  | nil => exact .nil
  | cons hfirst hrest ih =>
    cases index with
    | zero => exact .cons hab hrest
    | succ index => exact .cons hfirst (ih index)

/-- Related lists are related when they have been numbered. -/
theorem forall₂_mapIdx {γ δ : Type} {R : α → β → Prop} {S : γ → δ → Prop} {f : Nat → α → γ}
    {g : Nat → β → δ} {as : List α} {bs : List β} (h : List.Forall₂ R as bs)
    (hfg : ∀ n a b, R a b → S (f n a) (g n b)) :
    List.Forall₂ S (as.mapIdx f) (bs.mapIdx g) := by
  induction h generalizing f g with
  | nil => exact .nil
  | cons hab _ ih =>
    rw [List.mapIdx_cons, List.mapIdx_cons]
    refine .cons (hfg 0 _ _ hab) (ih ?_)
    intro n _ _ hr
    exact hfg (n + 1) _ _ hr

end Lists

/-! ## Two computations side by side -/

/-- Both fail with one error, or both succeed with related results. -/
def Agree (R : α → β → Prop) : Except ε α → Except ε β → Prop
  | .error e, .error e' => e = e'
  | .ok a, .ok b => R a b
  | _, _ => False

namespace Agree

variable {R : α → β → Prop} {x : Except ε α} {y : Except ε β}

theorem map_of_eq {γ δ : Type} {S : γ → δ → Prop} {f : α → γ} {g : β → δ} (h : Agree R x y)
    (hfg : ∀ a b, x = .ok a → y = .ok b → R a b → S (f a) (g b)) :
    Agree S (x.map f) (y.map g) := by
  cases x with
  | error e =>
    cases y with
    | error e' => exact h
    | ok b => exact h
  | ok a =>
    cases y with
    | error e => exact h
    | ok b => exact hfg a b rfl rfl h

theorem map {γ δ : Type} {S : γ → δ → Prop} {f : α → γ} {g : β → δ} (h : Agree R x y)
    (hfg : ∀ a b, R a b → S (f a) (g b)) : Agree S (x.map f) (y.map g) :=
  h.map_of_eq fun a b _ _ => hfg a b

theorem mapM_of_forall₂ {γ δ : Type} {f : γ → Except ε α} {g : δ → Except ε β} {cs : List γ}
    {ds : List δ} (h : List.Forall₂ (fun c d => Agree R (f c) (g d)) cs ds) :
    Agree (List.Forall₂ R) (cs.mapM f) (ds.mapM g) := by
  induction h with
  | nil => exact List.Forall₂.nil
  | @cons c d cs ds hfirst _ hrest =>
    rw [List.mapM_cons, List.mapM_cons]
    -- the computation that is first to fail is the same for both
    cases hf : f c with
    | error e =>
      rw [hf] at hfirst
      cases hg : g d with
      | error e' =>
        rw [hg] at hfirst
        exact hfirst
      | ok b => simp [hg, Agree] at hfirst
    | ok a =>
      rw [hf] at hfirst
      cases hg : g d with
      | error e => simp [hg, Agree] at hfirst
      | ok b =>
        rw [hg] at hfirst
        exact hrest.map fun _ _ hpairs => List.Forall₂.cons hfirst hpairs

theorem mapM {γ : Type} {f : γ → Except ε α} {g : γ → Except ε β} {items : List γ}
    (h : ∀ c ∈ items, Agree R (f c) (g c)) :
    Agree (List.Forall₂ R) (items.mapM f) (items.mapM g) :=
  mapM_of_forall₂ (List.forall₂_same.mpr h)

end Agree

end Gremlin
