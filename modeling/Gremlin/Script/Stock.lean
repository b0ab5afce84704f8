import Gremlin.Script.Dispatch

/-!
# Ready-made dialects

The standard rules write filters in the form that servers expect. The CosmosDb rules go on top
of any dialect: that server knows neither `skip` nor `none`, and takes no count or integer of
more than 32 bits.
-/

namespace Gremlin.Dialect

variable {ρ : Type}

/-- The standard rules. -/
def standardRules : List (Tag × Rule ρ) :=
  [(.step "has", .step .absentForNull),
   (.step "hasLabel", .step .nothingForNoLabel),
   (.step "property", .step .dropSingle)]

variable [Inhabited ρ]

/-- A filter that keeps nothing: it drops whatever there is. -/
def dropEverything : Step ρ :=
  Step.lacking ⟨Traversal.anonymousGraph, ⟨[⟨0, Step.identity⟩]⟩, default, 0, ∅⟩

/-- The rules for CosmosDb. -/
def cosmosRules : List (Tag × Rule ρ) :=
  [(.step "skip", .step .rangeForSkip),
   (.step "none", .step (.replaced dropEverything)),
   (.step "limit", .step (.atMost maxInt32)),
   (.step "tail", .step (.atMost maxInt32)),
   (.step "range", .step (.atMost maxInt32)),
   (.value .long, .value .narrowed)]

/-- The standard rules on top. -/
def withStandard (d : Dialect ρ) : Dialect ρ := d.withRules standardRules

/-- The CosmosDb rules on top. -/
def withCosmos (d : Dialect ρ) : Dialect ρ := d.withRules cosmosRules

/-- The standard dialect. -/
def groovy : Dialect ρ := plain.withStandard

/-- The standard dialect for CosmosDb. -/
def cosmos : Dialect ρ := groovy.withCosmos

end Gremlin.Dialect
