import Gremlin.Proofs.Modes
import Gremlin.Proofs.Tree
import Mathlib.Data.List.Dedup

/-!
# Stacks of ready-made rules

The ready-made sets of rules may be put on top of each other again and again. The chain of a tag
then has one rule in it several times, and a ready-made rule says of an atom what it says wherever
it stands: the copies below the topmost one have nothing to add. No tag is in both sets, so their
order does not matter either.

* `Rule.firstVerdict_congr`: a chain of copies of one rule gives the verdict of that rule;
* `RuleSet.eq_of_mem_rules`: the sets have one rule for a tag;
* `Dialect.stacked_once`: what is compiled depends on which sets are in the stack alone.
-/

namespace Gremlin

variable {ρ : Type}

/-! ## Copies of one rule -/

namespace Rule

variable {rules others : List (Rule ρ)}

/-- The topmost copy has the verdict, or none of them has one. -/
theorem firstVerdict_of_forall_eq {rule : Rule ρ} (hmem : rule ∈ rules)
    (hcopies : ∀ other ∈ rules, other = rule) (options : Options) (a : Atom ρ) :
    firstVerdict options a rules = rule.verdict options a := by
  induction rules with
  | nil => contradiction
  | cons first below ih =>
    obtain ⟨hfirst, hbelow⟩ := List.forall_mem_cons.mp hcopies
    rw [firstVerdict, hfirst]
    cases hverdict : rule.verdict options a with
    | substitute b => rfl
    | reject e => rfl
    | pass =>
      -- the rules below pass as well, be there any or not
      cases below with
      | nil => rfl
      | cons second rest =>
        have hsecond : second = rule := hbelow second List.mem_cons_self
        have hrule : rule ∈ second :: rest := by
          rw [hsecond]
          exact List.mem_cons_self
        exact (ih hrule hbelow).trans hverdict

/-- Chains of copies of one rule give one verdict, however many copies there are. -/
theorem firstVerdict_congr (hcopies : ∀ rule ∈ rules, ∀ other ∈ rules, other = rule)
    (hsame : ∀ rule, rule ∈ rules ↔ rule ∈ others) (options : Options) (a : Atom ρ) :
    firstVerdict options a rules = firstVerdict options a others := by
  cases rules with
  | nil =>
    have hnone : others = [] := by
      rw [List.eq_nil_iff_forall_not_mem]
      intro rule hrule
      exact List.not_mem_nil ((hsame rule).mpr hrule)
    rw [hnone]
  | cons rule below =>
    have hcopies := hcopies rule List.mem_cons_self
    have hothers : ∀ other ∈ others, other = rule := by
      intro other hother
      exact hcopies other ((hsame other).mpr hother)
    have hmem : rule ∈ others := (hsame rule).mp List.mem_cons_self
    rw [firstVerdict_of_forall_eq List.mem_cons_self hcopies,
      firstVerdict_of_forall_eq hmem hothers]

end Rule

/-! ## Dialects with the same verdicts -/

theorem Draft.within_congr {d d' : Dialect ρ} {options : Options}
    (h : ∀ a, d.verdict options a = d'.verdict options a) (room : Nat) :
    within d options room = within d' options room := by
  induction room with
  | zero => rfl
  | succ room ih =>
    funext depth a
    rw [within, within, ih, h]

namespace Dialect

/-- Of ready-made rules nothing but their verdicts matters. -/
theorem compile_eq_of_verdict {d d' : Dialect ρ} (hd : d.IsReady) (hd' : d'.IsReady)
    (h : ∀ options a, d.verdict options a = d'.verdict options a) (t : Traversal ρ)
    (inlined : Bool) : d.compile t inlined = d'.compile t inlined := by
  rw [compile_eq_draft hd, compile_eq_draft hd', draft, draft, Draft.within_congr (h _)]

end Dialect

/-! ## The ready-made sets -/

section Sets

variable [Inhabited ρ]

/-- The rules of a set with their tags. -/
def RuleSet.rules : RuleSet → List (Tag × Rule ρ)
  | standard => Dialect.standardRules
  | cosmos => Dialect.cosmosRules

/-- The sets have one rule for a tag between them. -/
theorem RuleSet.eq_of_mem_rules {set set' : RuleSet} {tag : Tag} {rule rule' : Rule ρ}
    (h : (tag, rule) ∈ set.rules) (h' : (tag, rule') ∈ set'.rules) : rule = rule' := by
  have hmem : ∀ {set : RuleSet} {layer : Tag × Rule ρ}, layer ∈ set.rules →
      layer ∈ Dialect.standardRules ++ Dialect.cosmosRules := by
    intro set layer hlayer
    cases set with
    | standard => exact List.mem_append_left _ hlayer
    | cosmos => exact List.mem_append_right _ hlayer
  have htags : ((Dialect.standardRules ++ Dialect.cosmosRules : List (Tag × Rule ρ)).map
      (·.1)).Nodup := by
    simp [Dialect.standardRules, Dialect.cosmosRules]
  have hlayer := List.inj_on_of_nodup_map htags (hmem h) (hmem h') rfl
  injection hlayer

namespace Dialect

theorem withSet_eq (d : Dialect ρ) (set : RuleSet) : d.withSet set = d.withRules set.rules := by
  cases set <;> rfl

theorem layers_stacked (sets : List RuleSet) :
    (stacked sets : Dialect ρ).layers = sets.flatMap RuleSet.rules := by
  have hfold : ∀ d : Dialect ρ,
      (sets.foldl withSet d).layers = d.layers ++ sets.flatMap RuleSet.rules := by
    induction sets with
    | nil => simp
    | cons set rest ih =>
      intro d
      rw [List.foldl_cons, ih, withSet_eq, withRules, List.flatMap_cons, List.append_assoc]
  exact hfold plain

theorem mem_chain_stacked {sets : List RuleSet} {tag : Tag} {rule : Rule ρ} :
    rule ∈ (stacked sets).chain tag ↔ ∃ set ∈ sets, (tag, rule) ∈ set.rules := by
  rw [mem_chain, layers_stacked, List.mem_flatMap]

/-- In a stack the chain of a tag has copies of one rule at most. -/
theorem eq_of_mem_chain_stacked {sets : List RuleSet} {tag : Tag} :
    ∀ rule ∈ (stacked sets : Dialect ρ).chain tag, ∀ other ∈ (stacked sets).chain tag,
      other = rule := by
  intro rule hrule other hother
  obtain ⟨set, -, hset⟩ := mem_chain_stacked.mp hrule
  obtain ⟨set', -, hset'⟩ := mem_chain_stacked.mp hother
  exact RuleSet.eq_of_mem_rules hset' hset

theorem verdict_stacked_congr {sets others : List RuleSet}
    (h : ∀ set, set ∈ others ↔ set ∈ sets) (options : Options) (a : Atom ρ) :
    (stacked sets).verdict options a = (stacked others).verdict options a := by
  apply Rule.firstVerdict_congr eq_of_mem_chain_stacked
  intro rule
  simp only [mem_chain_stacked, h]

/-- Putting a ready-made set of rules on a stack again changes no compilation, and neither does
the order of the stack. Every traversal is compiled to the same script or the same error by each
set of the stack once, and by any other stack of the same sets. -/
theorem stacked_once (sets : List RuleSet) (t : Traversal ρ) (inlined : Bool) :
    (stacked sets).compile t inlined = (stacked sets.dedup).compile t inlined ∧
    ∀ others : List RuleSet, (∀ set, set ∈ others ↔ set ∈ sets) →
      (stacked sets).compile t inlined = (stacked others).compile t inlined := by
  have hothers : ∀ others : List RuleSet, (∀ set, set ∈ others ↔ set ∈ sets) →
      (stacked sets).compile t inlined = (stacked others).compile t inlined := by
    intro others hsame
    exact compile_eq_of_verdict (isReady_stacked sets) (isReady_stacked others)
      (verdict_stacked_congr hsame) t inlined
  refine ⟨hothers sets.dedup ?_, hothers⟩
  intro set
  exact List.mem_dedup

/-- The CosmosDb rules below the standard ones, and both twice, are the CosmosDb dialect. -/
theorem stacked_once_assorted :
    (∀ set, set ∈ [RuleSet.standard, .cosmos] ↔
      set ∈ [RuleSet.cosmos, .standard, .cosmos, .standard]) ∧
    (stacked [.cosmos, .standard, .cosmos, .standard]).compile Traversal.assorted true =
      cosmos.compile Traversal.assorted true ∧
    cosmos.compile Traversal.assorted true =
      .ok ⟨"g.hasNot(\"name\").property(\"age\", 3)" ++
        ".where(__.not(__.identity()).range(2, -1)).limit(10)", []⟩ := by
  have hsame : ∀ set, set ∈ [RuleSet.standard, .cosmos] ↔
      set ∈ [RuleSet.cosmos, .standard, .cosmos, .standard] := by
    intro set
    cases set <;> decide
  refine ⟨hsame, ?_, by decide +kernel⟩
  exact (stacked_once [.cosmos, .standard, .cosmos, .standard] Traversal.assorted true).2 _ hsame

end Dialect

end Sets

end Gremlin
