import Gremlin.Proofs.Tree.Resolved

/-!
# The plain dialect

Without rules, dispatching does nothing but take a traversal apart and put the pieces together,
which amounts to writing its tree. Every level of traversals takes two dispatches, one for the
traversal and one for its step, so the bound on nested dispatches leaves room for more than a
hundred levels.

* `Draft.atom_pieces`: encoding puts together the pieces of the tree from those of its parts;
* `Dialect.draft_plain`: the draft in the plain dialect lists the pieces of the tree.
-/

namespace Gremlin

variable {ρ : Type}

/-! ## Parts of atoms -/

/-- The first atom is dispatched when the second one is encoded. -/
inductive Atom.IsPart : Atom ρ → Atom ρ → Prop where
  | parameter {s : Step ρ} {v : Value ρ} (hv : v ∈ s.parameters) : IsPart (.value v) (.step s)
  | step {t : Traversal ρ} {s r : Step ρ} {rs : List (Step ρ)} (hs : s ∈ t.steps.toList)
      (hresolve : s.resolve t.scope = .ok rs) (hr : r ∈ rs) :
      IsPart (.step r) (.value (.traversal t))

/-- The dispatches that nest below the one of an atom in the plain dialect, at most, and that
one. -/
def Atom.room : Atom ρ → Nat
  | .value v => 2 * v.nesting + 1
  | .step s => 2 * s.nesting + 2

theorem Atom.room_pos (a : Atom ρ) : 0 < a.room := by
  cases a <;> simp [Atom.room]

theorem Atom.IsPart.room_lt {b a : Atom ρ} (h : b.IsPart a) : b.room < a.room := by
  -- a step below a traversal is one level less deep, a parameter as deep as its step at most
  cases h with
  | parameter hv =>
    have hle := Step.nesting_of_mem_parameters hv
    simp only [Atom.room]
    omega
  | step hs hresolve hr =>
    have hstep := Step.nesting_le_of_resolve hresolve hr
    have htop := Traversal.nesting_of_mem_steps hs
    simp only [Atom.room, Value.nesting]
    omega

namespace Draft

/-- What the encoder writes depends on what dispatching gives for the parts only. -/
theorem atom_congr {dispatch dispatch' : Atom ρ → Draft ρ} {a : Atom ρ}
    (h : ∀ b, b.IsPart a → dispatch b = dispatch' b) : atom dispatch a = atom dispatch' a := by
  cases a with
  | step s =>
    have hparts : parts dispatch s.parameters = parts dispatch' s.parameters := by
      apply mapM_congr
      intro v hv
      exact h _ (.parameter hv)
    rw [atom, atom, step_eq, step_eq, hparts]
  | value v =>
    cases v with
    | traversal t =>
      have hexpanded : t.steps.toList.mapM (expanded dispatch t.scope) =
          t.steps.toList.mapM (expanded dispatch' t.scope) := by
        apply mapM_congr
        intro s hs
        unfold expanded
        cases hresolve : s.resolve t.scope with
        | error e => rfl
        | ok rs =>
          apply mapM_congr
          intro r hr
          exact h _ (.step hs hresolve hr)
      show traversal dispatch t = traversal dispatch' t
      rw [traversal_eq, traversal_eq, hexpanded]
    | _ => rfl

end Draft

/-! ## The pieces of an atom -/

/-- The pieces of the tree of a resolved atom. -/
def Atom.pieces : Atom ρ → Draft ρ
  | .step s => (Tree.ofStep Traversal.tree s).map Tree.Step.pieces
  | .value v => (v.part Traversal.tree).map Tree.Part.pieces

namespace Tree

theorem stepGroups_eq (steps : List (Tree.Step ρ)) : stepGroups steps = steps.map Step.pieces := by
  induction steps with
  | nil => rfl
  | cons s rest ih => simp [stepGroups, ih]

theorem partGroups_eq (parts : List (Tree.Part ρ)) : partGroups parts = parts.map Part.pieces := by
  induction parts with
  | nil => rfl
  | cons p rest ih => simp [partGroups, ih]

end Tree

namespace Draft

theorem parts_pieces (values : List (Value ρ)) :
    parts Atom.pieces values = (values.mapM (Value.part Traversal.tree)).map Tree.partGroups := by
  have hgroups : (Tree.partGroups : List (Tree.Part ρ) → _) = List.map Tree.Part.pieces :=
    funext Tree.partGroups_eq
  rw [hgroups, ← mapM_map_results]
  rfl

theorem expanded_pieces (scope : Scope) (s : Step ρ) :
    expanded Atom.pieces scope s =
      (Tree.expanded Traversal.tree scope s).map (List.map Tree.Step.pieces) := by
  unfold expanded Tree.expanded
  cases s.resolve scope with
  | error e => rfl
  | ok rs => exact mapM_map_results (Tree.ofStep Traversal.tree) Tree.Step.pieces rs

/-- Encoding puts the pieces of a tree together from those of its parts. -/
theorem atom_pieces (a : Atom ρ) : atom Atom.pieces a = a.pieces := by
  cases a with
  | step s =>
    rw [atom, step_eq, parts_pieces, Atom.pieces, Tree.ofStep]
    cases s.parameters.mapM (Value.part Traversal.tree) <;> rfl
  | value v =>
    cases v with
    | traversal t =>
      have hexpanded : (expanded Atom.pieces t.scope : Step ρ → _) = fun s =>
          (Tree.expanded Traversal.tree t.scope s).map (List.map Tree.Step.pieces) :=
        funext (expanded_pieces t.scope)
      show traversal Atom.pieces t = ((t.tree).map Tree.Part.nested).map Tree.Part.pieces
      rw [traversal_eq, hexpanded, mapM_map_results, Traversal.tree_eq, Tree.resolved]
      cases t.steps.toList.mapM (Tree.expanded Traversal.tree t.scope) with
      | error e => rfl
      | ok groups =>
        simp only [Except.map, Tree.Part.pieces, Tree.pieces, Tree.stepGroups_eq,
          List.map_flatten]
    | _ => rfl

/-- The plain dialect writes the pieces of an atom if there is room for all its levels. -/
theorem within_plain (options : Options) {room : Nat} (depth : Nat) {a : Atom ρ}
    (h : a.room ≤ room) : within .plain options room depth a = a.pieces := by
  induction room generalizing depth a with
  | zero =>
    have hpos := a.room_pos
    omega
  | succ room ih =>
    -- no rule has a verdict, so the atom is encoded, and its parts need less room
    show atom (within .plain options room depth) a = a.pieces
    rw [← atom_pieces]
    apply atom_congr
    intro b hb
    have hlt := hb.room_lt
    exact ih depth (by omega)

end Draft

/-- The draft of a traversal in the plain dialect lists the pieces of its tree. -/
theorem Dialect.draft_plain {t : Traversal ρ} (h : t.nesting ≤ 127) :
    plain.draft t = t.tree.map Tree.pieces := by
  have hroom : (Atom.value (Value.traversal t)).room ≤ Dispatch.maxNesting + 1 := by
    simp only [Atom.room, Value.nesting, Dispatch.maxNesting]
    omega
  rw [draft, Draft.within_plain _ _ hroom]
  show ((t.tree).map Tree.Part.nested).map Tree.Part.pieces = t.tree.map Tree.pieces
  cases t.tree <;> rfl

end Gremlin
