import Gremlin.Proofs.Tree
import Gremlin.Script.Stock

/-!
# Layers

A rule is put on top of those that are registered for its tag, and reaches them by handing an
atom on. So all that a dialect does with an atom is settled by the rules of its tag, the latest
first, and a rule that hands on what it is given might as well not be there.

* `Dispatch.proceed_transparent`: a rule that hands everything on can be left out of a chain;
* `Dialect.compile_congr`: dialects whose chains do the same compile alike;
* `Dialect.layering_wraps`: both for whole sequences of registrations.
-/

namespace Gremlin

variable {ρ : Type}

/-! ## Rules that hand everything on -/

/-- The rule does nothing but hand the atom that it is given to the rule below. -/
def Rule.IsTransparent (rule : Rule ρ) : Prop :=
  ∀ mode chain atom, rule.run mode chain atom = chain.overridden atom

/-- The program that hands on the atom at hand. -/
def Action.handOn : List (Action ρ) := [.overridden .self]

theorem Action.runAll_handOn (mode : Mode) (chain : Chain ρ) (atom : Atom ρ) :
    runAll mode chain atom handOn = chain.overridden atom := by
  show ((onTarget .self atom chain.overridden).andThen Pass.done) = _
  rw [Pass.andThen_done]
  rfl

namespace Rule

/-- The rules that hand on the atom at hand, for steps, for values and for either. -/
def handOns : List (Rule ρ) :=
  [step (.program Action.handOn), value (.program Action.handOn), any Action.handOn]

theorem isTransparent_of_mem_handOns {rule : Rule ρ} (h : rule ∈ handOns) :
    rule.IsTransparent := by
  simp only [handOns, List.mem_cons, List.not_mem_nil, or_false] at h
  intro mode chain atom
  -- a rule for steps hands a value on without running, and the other way round
  rcases h with rfl | rfl | rfl
  · cases atom with
    | step s => exact Action.runAll_handOn mode chain (.step s)
    | value v => rfl
  · cases atom with
    | step s => rfl
    | value v => exact Action.runAll_handOn mode chain (.value v)
  · exact Action.runAll_handOn mode chain atom

end Rule

namespace Dispatch

variable {mode : Mode}

/-- A rule that hands everything on can be left out, whatever is above and below it. -/
theorem proceed_transparent {rule : Rule ρ} (h : rule.IsTransparent)
    (restart : Nat → Atom ρ → Pass) (depth : Nat) (above below : List (Rule ρ)) :
    proceed mode restart depth (above ++ rule :: below) =
      proceed mode restart depth (above ++ below) := by
  induction above with
  | nil =>
    funext atom
    exact h mode _ atom
  | cons first rest ih =>
    -- the rules above see the others only through what handing on does
    funext atom
    simp only [List.cons_append, proceed, ih]

/-! ## Chains that do the same -/

theorem within_congr {d d' : Dialect ρ}
    (h : ∀ restart depth tag, proceed mode restart depth (d.chain tag) =
      proceed mode restart depth (d'.chain tag)) (room : Nat) :
    within d mode room = within d' mode room := by
  induction room with
  | zero => rfl
  | succ room ih =>
    funext depth atom
    rw [within, within, ih, h]

end Dispatch

namespace Dialect

/-- Dialects whose chains do the same with every atom compile alike. -/
theorem compile_congr {d d' : Dialect ρ}
    (h : ∀ mode restart depth tag, Dispatch.proceed mode restart depth (d.chain tag) =
      Dispatch.proceed mode restart depth (d'.chain tag)) (t : Traversal ρ) (inlined : Bool) :
    d.compile t inlined = d'.compile t inlined := by
  simp only [compile]
  rw [Dispatch.within_congr (h _)]

/-- The chain of a tag is made of its layers alone. -/
theorem chain_eq_filter (d : Dialect ρ) (tag : Tag) :
    d.chain tag = ((d.layers.filter fun layer => layer.1 = tag).map (·.2)).reverse := by
  unfold chain
  congr 1
  induction d.layers with
  | nil => rfl
  | cons layer rest ih =>
    by_cases htag : layer.1 = tag
    · simp [htag, ih]
    · simp [htag, ih]

theorem chain_append (below above : List (Tag × Rule ρ)) (tag : Tag) :
    chain ⟨below ++ above⟩ tag = chain ⟨above⟩ tag ++ chain ⟨below⟩ tag := by
  simp [chain]

/-- A layer that hands everything on changes no chain but the one of its tag, where it can be left
out. -/
theorem proceed_insert {rule : Rule ρ} (h : rule.IsTransparent) (mode : Mode)
    (restart : Nat → Atom ρ → Pass) (depth : Nat) (below above : List (Tag × Rule ρ))
    (tag tag' : Tag) :
    Dispatch.proceed mode restart depth (chain ⟨below ++ (tag, rule) :: above⟩ tag') =
      Dispatch.proceed mode restart depth (chain ⟨below ++ above⟩ tag') := by
  rw [List.append_cons, chain_append, chain_append below [(tag, rule)], chain_append below above]
  by_cases htag : tag = tag'
  · have hlayer : chain ⟨[(tag, rule)]⟩ tag' = [rule] := by simp [chain, htag]
    rw [hlayer]
    exact Dispatch.proceed_transparent h restart depth _ _
  · have hlayer : chain ⟨[(tag, rule)]⟩ tag' = [] := by simp [chain, htag]
    rw [hlayer]
    rfl

/-- Layers wrap those below them and nothing else. A layer that hands on what it is given, as the
programs do that call for nothing else, changes no compilation, wherever it is registered and for
whatever tag; and it does not matter in which order layers of different tags are registered. -/
theorem layering_wraps (t : Traversal ρ) (inlined : Bool) :
    (∀ rule ∈ (Rule.handOns : List (Rule ρ)), rule.IsTransparent) ∧
    (∀ (below above : List (Tag × Rule ρ)) (tag : Tag) (rule : Rule ρ), rule.IsTransparent →
      compile ⟨below ++ (tag, rule) :: above⟩ t inlined = compile ⟨below ++ above⟩ t inlined) ∧
    ∀ d d' : Dialect ρ,
      (∀ tag, (d.layers.filter fun layer => layer.1 = tag) =
        d'.layers.filter fun layer => layer.1 = tag) →
      d.compile t inlined = d'.compile t inlined := by
  refine ⟨fun rule hrule => Rule.isTransparent_of_mem_handOns hrule, ?_, ?_⟩
  · intro below above tag rule hrule
    apply compile_congr
    intro mode restart depth tag'
    exact proceed_insert hrule mode restart depth below above tag tag'
  · intro d d' hlayers
    apply compile_congr
    intro mode restart depth tag
    rw [chain_eq_filter, chain_eq_filter, hlayers tag]

/-- The standard rules are for different tags, so the chains are the same in another order. -/
theorem filter_standardRules_reverse (tag : Tag) :
    ((standardRules : List (Tag × Rule ρ)).filter fun layer => layer.1 = tag) =
      standardRules.reverse.filter fun layer => layer.1 = tag := by
  simp only [standardRules, List.reverse_cons, List.reverse_nil, List.nil_append,
    List.cons_append, List.filter_cons, List.filter_nil, decide_eq_true_eq]
  by_cases hhas : .step "has" = tag
  · simp [← hhas]
  · by_cases hlabel : .step "hasLabel" = tag
    · simp [← hlabel]
    · simp [hhas, hlabel]

/-- A layer that hands on between the standard rules and a layer above them, and the standard
rules registered in another order. -/
theorem layering_wraps_assorted :
    (Rule.any Action.handOn : Rule Unit) ∈ Rule.handOns ∧
      (Rule.any Action.handOn : Rule Unit).IsTransparent ∧
      compile ⟨standardRules ++ (.step "has", .any Action.handOn) ::
          [(.step "has", .any [.push "?", .overridden .self])]⟩ Traversal.assorted true =
        compile ⟨standardRules ++ [(.step "has", .any [.push "?", .overridden .self])]⟩
          Traversal.assorted true ∧
      (∀ tag, ((groovy : Dialect Unit).layers.filter fun layer => layer.1 = tag) =
        standardRules.reverse.filter fun layer => layer.1 = tag) ∧
      groovy.compile Traversal.assorted true =
        compile ⟨standardRules.reverse⟩ Traversal.assorted true := by
  rcases layering_wraps Traversal.assorted true with ⟨htransparent, hinsert, hsame⟩
  have hmem : (Rule.any Action.handOn : Rule Unit) ∈ Rule.handOns := by simp [Rule.handOns]
  have hrule := htransparent _ hmem
  exact ⟨hmem, hrule, hinsert _ _ _ _ hrule, filter_standardRules_reverse,
    hsame _ _ filter_standardRules_reverse⟩

end Dialect

end Gremlin
