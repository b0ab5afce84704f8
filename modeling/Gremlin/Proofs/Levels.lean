import Gremlin.Proofs.Modes
import Gremlin.Proofs.Rewriting

/-!
# Levels of traversals

Every level of nested traversals takes two dispatches, one for the traversal and one for each of
its steps, and what has no steps takes only the first. So the bound on nested dispatches is a
bound on the levels that have steps, and the plain dialect meets it exactly there. Within the
bound it writes what the tree reads as, in which no bound occurs.

* `Tree.hasStepsFrom_succ`: steps many levels below are steps one level less below a part;
* `Draft.settled_within`: with room for some levels, the plain dialect writes the tree if all of
  its steps are on these levels, and reports the bound if not;
* `Tree.text_pieces`: the pieces of a tree make up its text;
* `Dialect.plain_compile_exact`: what that means for scripts.
-/

namespace Gremlin

variable {ρ : Type}

/-! ## Results with one error -/

/-- A result is the error if something holds, and the value if not. -/
structure Settled {ε α : Type} (bad : Prop) (e : ε) (a : α) (x : Except ε α) : Prop where
  fails : bad → x = .error e
  succeeds : ¬ bad → x = .ok a

namespace Settled

variable {ε α β γ : Type} {bad : Prop} {e : ε} {a : α} {x : Except ε α}

theorem map (f : α → β) (h : Settled bad e a x) : Settled bad e (f a) (x.map f) := by
  constructor
  · intro hbad
    rw [h.fails hbad]
    rfl
  · intro hgood
    rw [h.succeeds hgood]
    rfl

theorem congr {bad' : Prop} (h : Settled bad e a x) (hbad : bad ↔ bad') : Settled bad' e a x := by
  rw [← propext hbad]
  exact h

/-- A list of results is the error if one of them is. -/
theorem mapM {f : α → Except ε β} {g : γ → β} {bad : γ → Prop} {as : List α} {cs : List γ}
    (h : List.Forall₂ (fun a c => Settled (bad c) e (g c) (f a)) as cs) :
    Settled (∃ c ∈ cs, bad c) e (cs.map g) (as.mapM f) := by
  induction h with
  | nil =>
    constructor
    · rintro ⟨c, hc, _⟩
      contradiction
    · intro _
      rfl
  | @cons a c as cs hfirst _ ih =>
    by_cases hbad : bad c
    · -- the first of them fails, whatever the others do
      constructor
      · intro _
        exact mapM_cons_eq_error_iff.mpr (Or.inl (hfirst.fails hbad))
      · intro hgood
        exact absurd ⟨c, List.mem_cons_self, hbad⟩ hgood
    · have hok := hfirst.succeeds hbad
      constructor
      · rintro ⟨c', hc', hbad'⟩
        rcases List.mem_cons.mp hc' with rfl | hrest
        · contradiction
        · have herror := ih.fails ⟨c', hrest, hbad'⟩
          exact mapM_cons_eq_error_iff.mpr (Or.inr ⟨_, hok, herror⟩)
      · intro hgood
        have hrest : ¬ ∃ c' ∈ cs, bad c' := by
          rintro ⟨c', hc', hbad'⟩
          exact hgood ⟨c', List.mem_cons_of_mem _ hc', hbad'⟩
        exact mapM_cons_eq_ok_iff.mpr ⟨_, _, hok, ih.succeeds hrest, rfl⟩

end Settled

/-! ## Trees below trees -/

namespace Tree

/-- The tree `y` is nested so many levels below the tree `x`. -/
inductive Nests : Nat → Tree ρ → Tree ρ → Prop where
  | self (x : Tree ρ) : Nests 0 x x
  | nested {n : Nat} {x y z : Tree ρ} {s : Tree.Step ρ} (hs : s ∈ x.steps)
      (hy : .nested y ∈ s.parts) (h : Nests n y z) : Nests (n + 1) x z

/-- There are steps so many levels below, or more. -/
def HasStepsFrom (x : Tree ρ) (level : Nat) : Prop :=
  ∃ n y, level ≤ n ∧ x.Nests n y ∧ y.steps ≠ []

theorem hasStepsFrom_zero (x : Tree ρ) : x.HasStepsFrom 0 ↔ x.steps ≠ [] := by
  constructor
  · rintro ⟨n, y, _, hnests, hsteps⟩
    cases hnests with
    | self => exact hsteps
    | nested hs => exact List.ne_nil_of_mem hs
  · intro h
    exact ⟨0, x, Nat.le_refl 0, .self x, h⟩

theorem hasStepsFrom_succ (x : Tree ρ) (level : Nat) :
    x.HasStepsFrom (level + 1) ↔
      ∃ s ∈ x.steps, ∃ p ∈ s.parts, ∃ y, p = .nested y ∧ y.HasStepsFrom level := by
  constructor
  · rintro ⟨n, z, hlevel, hnests, hsteps⟩
    cases hnests with
    | self => contradiction
    | @nested n _ y _ s hs hy h =>
      exact ⟨s, hs, _, hy, y, rfl, n, z, Nat.le_of_succ_le_succ hlevel, h, hsteps⟩
  · rintro ⟨s, hs, _, hy, y, rfl, n, z, hlevel, hnests, hsteps⟩
    exact ⟨n + 1, z, Nat.succ_le_succ hlevel, .nested hs hy hnests, hsteps⟩

end Tree

/-! ## Room for levels -/

namespace Draft

variable {dispatch : Atom ρ → Draft ρ} {e : Error}

/-- A step fails if one of its parts does. -/
theorem settled_step {bad : Tree.Part ρ → Prop} {s : Step ρ} {x : Tree.Step ρ}
    (h : ∀ v p, v.part Traversal.tree = .ok p →
      Settled (bad p) e p.pieces (dispatch (.value v)))
    (hs : Tree.ofStep Traversal.tree s = .ok x) :
    Settled (∃ p ∈ x.parts, bad p) e x.pieces (step dispatch s) := by
  rcases x with ⟨name, xs⟩
  obtain ⟨hname, hparts⟩ := Tree.ofStep_eq_ok_iff.mp hs
  have hgroups := Settled.mapM (hparts.imp fun v p => h v p)
  rw [← Tree.partGroups_eq] at hgroups
  rw [step_eq, hname]
  exact hgroups.map fun written =>
    .fixed name :: .fixed "(" :: (Piece.separated ", " false written ++ [.fixed ")"])

/-- A traversal fails if one of its resolved steps does. -/
theorem settled_traversal {bad : Tree.Step ρ → Prop} {t : Traversal ρ} {x : Tree ρ}
    (h : ∀ s y, Tree.ofStep Traversal.tree s = .ok y →
      Settled (bad y) e y.pieces (dispatch (.step s)))
    (ht : t.tree = .ok x) :
    Settled (∃ s ∈ x.steps, bad s) e x.pieces (traversal dispatch t) := by
  rw [Traversal.tree_eq] at ht
  obtain ⟨steps, hsteps, rfl⟩ := map_eq_ok_iff.mp ht
  obtain ⟨groups, hgroups, htrees⟩ := Tree.resolved_eq_ok hsteps
  have hwritten := Settled.mapM (htrees.imp fun s y => h s y)
  rw [← Tree.stepGroups_eq] at hwritten
  rw [traversal_of_resolved hgroups]
  exact hwritten.map fun written =>
    .fixed t.graph :: Piece.separated "." (!t.graph.isEmpty) written

/-- With room for the levels down to some level and for the traversals one below, the plain
dialect reports the bound exactly if there are steps further down. -/
theorem settled_within (options : Options) (depth level : Nat) {t : Traversal ρ} {x : Tree ρ}
    (ht : t.tree = .ok x) :
    Settled (x.HasStepsFrom level) (.serializationLoop (Dispatch.maxNesting + 1)) x.pieces
      (within .plain options (2 * level + 1) depth (.value (.traversal t))) := by
  induction level generalizing t x with
  | zero =>
    -- there is room for the traversal and none for a step
    have hsteps : ∀ (s : Step ρ) y, Tree.ofStep Traversal.tree s = .ok y →
        Settled True (.serializationLoop (Dispatch.maxNesting + 1)) y.pieces
          (within .plain options 0 depth (.step s)) := by
      intro s y _
      exact ⟨fun _ => rfl, fun h => absurd trivial h⟩
    have hsettled := settled_traversal hsteps ht
    apply hsettled.congr
    rw [Tree.hasStepsFrom_zero]
    constructor
    · rintro ⟨s, hs, _⟩
      exact List.ne_nil_of_mem hs
    · intro hne
      obtain ⟨s, hs⟩ := List.exists_mem_of_ne_nil _ hne
      exact ⟨s, hs, trivial⟩
  | succ level ih =>
    -- a part that is no traversal needs no room below it
    have hparts : ∀ (v : Value ρ) p, v.part Traversal.tree = .ok p →
        Settled (∃ y, p = .nested y ∧ y.HasStepsFrom level)
          (.serializationLoop (Dispatch.maxNesting + 1)) p.pieces
          (within .plain options (2 * level + 1) depth (.value v)) := by
      intro v p hv
      by_cases hnested : ∃ y, p = .nested y
      · obtain ⟨y, rfl⟩ := hnested
        obtain ⟨u, rfl, hu⟩ := Tree.part_eq_nested_iff.mp hv
        apply (ih hu).congr
        simp
      · have hwritten := value_of_part (within .plain options (2 * level) depth) hv
          fun y hy => hnested ⟨y, hy⟩
        constructor
        · rintro ⟨y, hy, _⟩
          exact absurd ⟨y, hy⟩ hnested
        · intro _
          exact hwritten
    have hsteps : ∀ (s : Step ρ) y, Tree.ofStep Traversal.tree s = .ok y →
        Settled (∃ p ∈ y.parts, ∃ z, p = .nested z ∧ z.HasStepsFrom level)
          (.serializationLoop (Dispatch.maxNesting + 1)) y.pieces
          (within .plain options (2 * level + 2) depth (.step s)) := by
      intro s y hs
      exact settled_step hparts hs
    have hsettled := settled_traversal hsteps ht
    apply hsettled.congr
    rw [Tree.hasStepsFrom_succ]

end Draft

/-! ## The text of a tree -/

namespace Tree

mutual

/-- The graph, if it has a name, and the steps, joined by points. -/
def text : Tree ρ → String
  | ⟨graph, steps⟩ =>
    ".".intercalate ((if graph.isEmpty then [] else [graph]) ++ stepTexts steps)

def stepTexts : List (Tree.Step ρ) → List String
  | [] => []
  | s :: rest => s.text :: stepTexts rest

/-- The name, and in parentheses the parameters, joined by commas. -/
def Step.text : Tree.Step ρ → String
  | ⟨name, parts⟩ => name ++ "(" ++ ", ".intercalate (partTexts parts) ++ ")"

def partTexts : List (Tree.Part ρ) → List String
  | [] => []
  | p :: rest => p.text :: partTexts rest

def Part.text : Tree.Part ρ → String
  | .value b => Output.inlineText b.val
  | .key name => Text.quoted '"' name
  | .token word => word
  | .nested tree => tree.text

end

end Tree

namespace Piece

variable (form : Value ρ → String)

theorem text_append (ps qs : List (Piece ρ)) :
    text form (ps ++ qs) = text form ps ++ text form qs := by
  induction ps with
  | nil => simp [text]
  | cons p rest ih => cases p <;> simp [text, ih, String.append_assoc]

/-- What is separated from something before it is joined to it. -/
theorem text_separated_true (mark before : String) (groups : List (List (Piece ρ))) :
    before ++ text form (separated mark true groups) =
      mark.intercalate (before :: groups.map (text form)) := by
  induction groups generalizing before with
  | nil => simp [separated, text]
  | cons group rest ih =>
    have hrest := ih (text form group)
    simp only [separated, if_true, text_append, text, List.map_cons,
      String.intercalate_cons_cons, String.append_empty, String.append_assoc]
    rw [hrest, ← String.append_assoc]

theorem text_separated_false (mark : String) (groups : List (List (Piece ρ))) :
    text form (separated mark false groups) = mark.intercalate (groups.map (text form)) := by
  cases groups with
  | nil => simp [separated, text]
  | cons group rest =>
    rw [List.map_cons, ← text_separated_true]
    simp [separated, text_append]

end Piece

namespace Tree

mutual

/-- The pieces of a tree make up its text. -/
theorem text_pieces : (x : Tree ρ) → Piece.text Output.inlineText x.pieces = x.text
  | ⟨graph, steps⟩ => by
    rw [pieces, text, Piece.text]
    by_cases hgraph : graph.isEmpty = true
    · have hempty : graph = "" := String.isEmpty_iff.mp hgraph
      rw [if_pos hgraph, hgraph, Bool.not_true, Piece.text_separated_false, texts_stepGroups,
        hempty]
      simp
    · rw [if_neg hgraph, Bool.eq_false_iff.mpr hgraph, Bool.not_false,
        Piece.text_separated_true, texts_stepGroups]
      rfl

theorem texts_stepGroups : (steps : List (Tree.Step ρ)) →
    (stepGroups steps).map (Piece.text Output.inlineText) = stepTexts steps
  | [] => rfl
  | s :: rest => by
    rw [stepGroups, stepTexts, List.map_cons, Step.text_pieces s, texts_stepGroups rest]

theorem Step.text_pieces : (s : Tree.Step ρ) → Piece.text Output.inlineText s.pieces = s.text
  | ⟨name, parts⟩ => by
    rw [Step.pieces, Step.text, ← texts_partGroups parts, ← Piece.text_separated_false]
    simp [Piece.text, Piece.text_append, String.append_assoc]

theorem texts_partGroups : (parts : List (Tree.Part ρ)) →
    (partGroups parts).map (Piece.text Output.inlineText) = partTexts parts
  | [] => rfl
  | p :: rest => by
    rw [partGroups, partTexts, List.map_cons, Part.text_pieces p, texts_partGroups rest]

theorem Part.text_pieces : (p : Tree.Part ρ) → Piece.text Output.inlineText p.pieces = p.text
  | .value b => by simp [Part.pieces, Part.text, Piece.text]
  | .key name => by simp [Part.pieces, Part.text, Piece.text]
  | .token word => by simp [Part.pieces, Part.text, Piece.text]
  | .nested x => Tree.text_pieces x

end

end Tree

/-! ## Deep trees -/

namespace Tree

/-- The tree so many levels below others, with one step on each of them. -/
def buried (x : Tree Unit) : Nat → Tree Unit
  | 0 => x
  | n + 1 => ⟨"g", [⟨"where", [.nested (buried x n)]⟩]⟩

theorem hasStepsFrom_buried (x : Tree Unit) (level n : Nat) :
    (x.buried n).HasStepsFrom (level + n) ↔ x.HasStepsFrom level := by
  induction n with
  | zero => exact Iff.rfl
  | succ n ih =>
    rw [← Nat.add_assoc, hasStepsFrom_succ]
    simp [buried, ih]

theorem isSettled_buried {x : Tree Unit} (hx : x.IsSettled) (n : Nat) :
    (x.buried n).IsSettled := by
  induction n with
  | zero => exact hx
  | succ n ih =>
    have hwhere : "where" ∉ ["withoutStrategies", "addV", "addE", "update"] := by decide
    exact ⟨⟨Step.IsSettled.of_name hwhere, ih, trivial⟩, trivial⟩

end Tree

/-! ## Whole compilations -/

namespace Dialect

/-- What the plain dialect does to a traversal whose names all have a meaning. If one of the trees
nested 128 or more levels below has a step, compiling fails, and reports 257. Otherwise it
succeeds; and if literals are written into the text, the text is that of the tree, and there are no
parameters. -/
theorem plain_compile_exact {t : Traversal ρ} {x : Tree ρ} (h : t.tree = .ok x) (inlined : Bool) :
    ((∃ n y, 128 ≤ n ∧ x.Nests n y ∧ y.steps ≠ []) →
      plain.compile t inlined = .error (.serializationLoop 257)) ∧
    ((¬ ∃ n y, 128 ≤ n ∧ x.Nests n y ∧ y.steps ≠ []) →
      ∃ script, plain.compile t inlined = .ok script ∧
        (inlined = true → script = ⟨x.text, []⟩)) := by
  have hsettled : Settled (x.HasStepsFrom 128) (.serializationLoop 257) x.pieces (plain.draft t) :=
    Draft.settled_within t.environment.options 0 128 h
  rw [compile_eq_draft isReady_plain]
  constructor
  · intro hdeep
    rw [hsettled.fails hdeep]
    rfl
  · intro hshallow
    rw [hsettled.succeeds hshallow]
    refine ⟨_, rfl, ?_⟩
    intro hinlined
    rw [hinlined, script_inlined, Tree.text_pieces]

/-- What has steps may be 127 levels below, what has none may be one level further down, and
what has steps may not. -/
theorem plain_compile_exact_buried :
    (∃ x : Tree Unit, x = Tree.buried ⟨"__", []⟩ 128 ∧
      plain.compile (x.traversal default) true = .ok ⟨x.text, []⟩) ∧
    (∃ x : Tree Unit, x = Tree.buried ⟨"__", [⟨"identity", []⟩]⟩ 128 ∧
      ∀ inlined,
        plain.compile (x.traversal default) inlined = .error (.serializationLoop 257)) := by
  have hbare : Tree.IsSettled (⟨"__", []⟩ : Tree Unit) := trivial
  have hidentity : Tree.IsSettled (⟨"__", [⟨"identity", []⟩]⟩ : Tree Unit) :=
    ⟨⟨Tree.Step.IsSettled.of_name (by decide), trivial⟩, trivial⟩
  constructor
  · refine ⟨_, rfl, ?_⟩
    have htree := Tree.tree_traversal default _ (Tree.isSettled_buried hbare 128)
    have hnone : ¬ (Tree.buried ⟨"__", []⟩ 128).HasStepsFrom 128 := by
      intro hdeep
      have hsteps := (Tree.hasStepsFrom_buried _ 0 128).mp hdeep
      exact (Tree.hasStepsFrom_zero _).mp hsteps rfl
    obtain ⟨_, hshallow⟩ := plain_compile_exact htree true
    obtain ⟨script, hscript, htext⟩ := hshallow hnone
    rw [hscript, htext rfl]
  · refine ⟨_, rfl, ?_⟩
    intro inlined
    have htree := Tree.tree_traversal default _ (Tree.isSettled_buried hidentity 128)
    obtain ⟨hdeep, _⟩ := plain_compile_exact htree inlined
    apply hdeep
    apply (Tree.hasStepsFrom_buried _ 0 128).mpr
    apply (Tree.hasStepsFrom_zero _).mpr
    exact List.cons_ne_nil _ _

end Dialect

end Gremlin
