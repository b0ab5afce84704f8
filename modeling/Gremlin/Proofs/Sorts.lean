import Gremlin.Proofs.Bounds

/-!
# The two sorts of atoms

Steps are one sort of atoms and values the other. A rule that is registered for one sort hands on
the atoms of the other, and handing on does not start from the top again: an atom stays in the
chain that it is in, whatever rules there are for its own tag. So an atom that gets into a chain
for the other sort goes past all the rules that are left there, and comes to the encoder.

* `Rule.run_of_isForeign`: a rule hands on an atom of the other sort;
* `Dispatch.proceed_of_isForeign`: so a chain leaves it to the encoder, however long it is;
* `Dispatch.within_eq_straight`: dispatching might as well give it to the encoder at once;
* `Dialect.foreign_atoms_encoded`: what that means at every position of every chain, and for
  whole compilations.
-/

namespace Gremlin

variable {ρ : Type}

/-! ## Rules for one sort -/

/-- The atom is not of the sort that the tag is for. -/
def Atom.isForeign : Atom ρ → Tag → Bool
  | step _, .value _ | value _, .step _ => true
  | _, _ => false

namespace Rule

/-- The rule is for atoms of the sort that the tag is for, and for no others. -/
def isFor : Rule ρ → Tag → Bool
  | step _, .step _ | value _, .value _ => true
  | _, _ => false

/-- A rule for one sort does nothing with an atom of the other but hand it on. -/
theorem run_of_isForeign {rule : Rule ρ} {tag : Tag} (hrule : rule.isFor tag = true) {a : Atom ρ}
    (ha : a.isForeign tag = true) (mode : Mode) (chain : Chain ρ) :
    rule.run mode chain a = chain.overridden a := by
  -- the tag settles the sort of the rule, and the other one for the atom
  cases tag with
  | step name =>
    cases rule with
    | step rule =>
      cases a with
      | step s => contradiction
      | value v => rfl
    | value rule => contradiction
    | any actions => contradiction
  | value kind =>
    cases rule with
    | step rule => contradiction
    | value rule =>
      cases a with
      | step s => rfl
      | value v => contradiction
    | any actions => contradiction

end Rule

namespace Dialect

/-- Every rule is registered as one for steps, or as one for values, for a tag of that sort. -/
def IsSorted (d : Dialect ρ) : Prop := ∀ layer ∈ d.layers, layer.2.isFor layer.1 = true

instance (d : Dialect ρ) : Decidable d.IsSorted :=
  inferInstanceAs (Decidable (∀ layer ∈ d.layers, layer.2.isFor layer.1 = true))

/-- The chain of a tag has rules of one sort only. -/
theorem IsSorted.chain {d : Dialect ρ} (hd : d.IsSorted) (tag : Tag) :
    ∀ rule ∈ d.chain tag, rule.isFor tag = true := by
  intro rule hrule
  have hlayer : (tag, rule) ∈ d.layers := mem_chain.mp hrule
  exact hd (tag, rule) hlayer

end Dialect

/-! ## Chains for one sort -/

namespace Dispatch

/-- What a rule can do at a depth, where `overridden` is what becomes of atoms that it hands on. -/
def chainOver (restart : Nat → Atom ρ → Pass) (depth : Nat) (overridden : Atom ρ → Pass) :
    Chain ρ where
  depth
  overridden
  recurse a :=
    if maxDepth < depth + 1 then .fail (.serializationLoop (depth + 1)) else restart (depth + 1) a
  dispatch := restart depth

section Chains

variable (mode : Mode) (restart : Nat → Atom ρ → Pass) (depth : Nat)

/-- The atoms that a rule hands on go through the rules below it. -/
theorem proceed_cons (rule : Rule ρ) (below : List (Rule ρ)) (a : Atom ρ) :
    proceed mode restart depth (rule :: below) a =
      rule.run mode (chainOver restart depth (proceed mode restart depth below)) a := rfl

/-- A chain for one sort leaves the atoms of the other to the encoder, which dispatches their parts
at the depth of the chain. -/
theorem proceed_of_isForeign {rules : List (Rule ρ)} {tag : Tag}
    (hrules : ∀ rule ∈ rules, rule.isFor tag = true) {a : Atom ρ} (ha : a.isForeign tag = true) :
    proceed mode restart depth rules a = Encoding.atom mode (restart depth) a := by
  induction rules with
  | nil => rfl
  | cons rule below ih =>
    obtain ⟨hrule, hbelow⟩ := List.forall_mem_cons.mp hrules
    calc proceed mode restart depth (rule :: below) a
        = rule.run mode (chainOver restart depth (proceed mode restart depth below)) a :=
          proceed_cons mode restart depth rule below a
      _ = proceed mode restart depth below a := Rule.run_of_isForeign hrule ha mode _
      _ = Encoding.atom mode (restart depth) a := ih hbelow

/-- Hands an atom to the topmost of the rules for a tag. What a rule hands on goes to the rule
below, but to the encoder at once if it is not of the sort that the tag is for. -/
def straight (tag : Tag) : List (Rule ρ) → Atom ρ → Pass
  | [], a => Encoding.atom mode (restart depth) a
  | rule :: below, a =>
    let overridden (b : Atom ρ) : Pass :=
      if b.isForeign tag then Encoding.atom mode (restart depth) b else straight tag below b
    rule.run mode (chainOver restart depth overridden) a

theorem proceed_eq_straight {rules : List (Rule ρ)} {tag : Tag}
    (hrules : ∀ rule ∈ rules, rule.isFor tag = true) :
    proceed mode restart depth rules = straight mode restart depth tag rules := by
  induction rules with
  | nil => rfl
  | cons rule below ih =>
    obtain ⟨_, hbelow⟩ := List.forall_mem_cons.mp hrules
    -- a rule may be any program, but all it gets of the rules below it is this function
    have hoverridden : proceed mode restart depth below = fun b =>
        if b.isForeign tag then Encoding.atom mode (restart depth) b
        else straight mode restart depth tag below b := by
      funext b
      split
      · rename_i hforeign
        exact proceed_of_isForeign mode restart depth hbelow hforeign
      · rw [ih hbelow]
    funext a
    rw [proceed_cons, hoverridden, straight]

end Chains

/-! ## Whole compilations -/

/-- Dispatches an atom with some room left for nested dispatches, where atoms that get into a chain
for the other sort go to the encoder at once. -/
def withinStraight (d : Dialect ρ) (mode : Mode) : (room : Nat) → (depth : Nat) → Atom ρ → Pass
  | 0, _, _ => .fail (.serializationLoop (maxNesting + 1))
  | room + 1, depth, a =>
    straight mode (withinStraight d mode room) depth a.tag (d.chain a.tag) a

/-- Nobody can tell whether atoms go past the rules for the other sort one by one or at once. -/
theorem within_eq_straight {d : Dialect ρ} (hd : d.IsSorted) (mode : Mode) (room : Nat) :
    within d mode room = withinStraight d mode room := by
  induction room with
  | zero => rfl
  | succ room ih =>
    funext depth a
    rw [within, withinStraight, ih, proceed_eq_straight _ _ _ (hd.chain a.tag)]

end Dispatch

namespace Dialect

/-- The script of a traversal, where atoms that get into a chain for the other sort go to the
encoder at once. -/
def compileStraight (d : Dialect ρ) (t : Traversal ρ) (inlined : Bool) : Except Error Script :=
  (Dispatch.withinStraight d ⟨inlined, t.environment.options⟩ (Dispatch.maxNesting + 1) 0
    (.value (.traversal t))).script

/-- Where all rules are registered for steps or for values, atoms of the other sort fall through.
Take a rule at any position of the chain of any tag, at any depth and with any room left for nested
dispatches, and the chain that it is run on there (`Dispatch.proceed_cons`). If the rule hands on
an atom of the other sort, then whatever was written before, this adds to the text and to the
parameters, and fails, exactly as the encoder does that is given the atom at the same depth and
with the same room. It makes no difference which rules are below, nor which there are for the tag
of the atom. So every traversal compiles to what it compiles to if all such atoms, wherever a rule
hands one on, go to the encoder at once. -/
theorem foreign_atoms_encoded {d : Dialect ρ} (hd : d.IsSorted) :
    (∀ (tag : Tag) (above : List (Rule ρ)) (rule : Rule ρ) (below : List (Rule ρ)),
      d.chain tag = above ++ rule :: below →
      ∀ (mode : Mode) (room depth : Nat) (a : Atom ρ), a.isForeign tag = true → ∀ o : Output,
        let restart := Dispatch.within d mode room
        let chain := Dispatch.chainOver restart depth (Dispatch.proceed mode restart depth below)
        chain.overridden a o = Encoding.atom mode (restart depth) a o) ∧
    ∀ (t : Traversal ρ) (inlined : Bool), d.compile t inlined = d.compileStraight t inlined := by
  constructor
  · intro tag above rule below hchain mode room depth a ha o restart chain
    have hbelow : ∀ other ∈ below, other.isFor tag = true := by
      intro other hother
      apply hd.chain tag
      rw [hchain]
      exact List.mem_append_right above (List.mem_cons_of_mem rule hother)
    have hencoded : chain.overridden a = Encoding.atom mode (restart depth) a :=
      Dispatch.proceed_of_isForeign mode restart depth hbelow ha
    rw [hencoded]
  · intro t inlined
    rw [compileStraight, ← Dispatch.within_eq_straight hd]
    rfl

/-- The CosmosDb dialect with two rules for `V`, of which the upper one hands on an integer; with
one for integers, which hands on the step `out`; and with one for `out`. -/
def crossing : Dialect Unit := cosmos.withRules
  [(.step "V", .step (.program [.push "!", .overridden .self])),
   (.step "V", .step (.program [.overridden (.value (.long 5)), .push " ", .overridden .self])),
   (.value .long, .value (.program [.push "#", .overridden (.step (.out ["a"]))])),
   (.step "out", .step (.program [.push "?", .overridden .self]))]

/-- The vertex with the number 7. -/
def seventh : Traversal Unit := ⟨"g", .push .empty 0 (Step.v [.long 7]), default, 0, ∅⟩

/-- The integer that gets into the chain of `V` is not marked as the one that is dispatched is, and
`out`, which gets into the chain of that one, is not marked either. -/
theorem foreign_atoms_encoded_crossing :
    let mode : Mode := ⟨true, {}⟩
    let restart := Dispatch.within crossing mode 255
    let overridden (below : List (Rule Unit)) : Atom Unit → Pass :=
      (Dispatch.chainOver restart 0 (Dispatch.proceed mode restart 0 below)).overridden
    crossing.IsSorted ∧
    (∃ upper lower, crossing.chain (.step "V") = [] ++ upper :: [lower] ∧
      overridden [lower] (.value (.long 5)) {} =
        Encoding.atom mode (restart 0) (.value (.long 5)) {}) ∧
    (∃ upper lower, crossing.chain (.value .long) = [] ++ upper :: [lower] ∧
      overridden [lower] (.step (.out ["a"])) {} =
        Encoding.atom mode (restart 0) (.step (.out ["a"])) {}) ∧
    crossing.compile seventh true = .ok ⟨"g.5 !V(#out('a'))", []⟩ ∧
    crossing.compile seventh true = crossing.compileStraight seventh true := by
  intro mode restart overridden
  have hsorted : crossing.IsSorted := by decide
  have hcompile : crossing.compile seventh true = .ok ⟨"g.5 !V(#out('a'))", []⟩ := by
    decide +kernel
  obtain ⟨hencoded, hstraight⟩ := foreign_atoms_encoded hsorted
  refine ⟨hsorted, ⟨_, _, rfl, ?_⟩, ⟨_, _, rfl, ?_⟩, hcompile, hstraight seventh true⟩
  · exact hencoded (.step "V") [] _ _ rfl mode 255 0 (.value (.long 5)) rfl {}
  · exact hencoded (.value .long) [] _ _ rfl mode 255 0 (.step (.out ["a"])) rfl {}

end Dialect

end Gremlin
