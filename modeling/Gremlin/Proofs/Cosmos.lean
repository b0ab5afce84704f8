import Gremlin.Proofs.Standard

/-!
# The dialect for CosmosDb

The rules for CosmosDb rewrite: `skip` becomes a range without end, what keeps nothing becomes
`not(__.identity())`, and a 64-bit integer that fits becomes a 32-bit one. The result is compiled
in the standard dialect, and if integers are left that do not fit, compiling fails for one of
them. The bounds on counts add nothing to this: a count above the bound is an integer that does
not fit.

* `simulates_cosmos`: the standard dialect matches every verdict on what has been rewritten;
* `cosmos_compile_eq_rewritten`: compiling for CosmosDb is rewriting, and then compiling in the
  standard dialect.
-/

namespace Gremlin

variable {ρ : Type}

/-! ## Narrow integers -/

/-- The integer is one of 32 bits. -/
def FitsInt32 (n : Int64) : Prop := Int32.minValue.toInt64 ≤ n ∧ n ≤ maxInt32

instance (n : Int64) : Decidable (FitsInt32 n) :=
  inferInstanceAs (Decidable (Int32.minValue.toInt64 ≤ n ∧ n ≤ maxInt32))

theorem FitsInt32.toInt64_toInt32 {n : Int64} (h : FitsInt32 n) : n.toInt32.toInt64 = n := by
  rcases h with ⟨hmin, hmax⟩
  rw [Int64.le_iff_toInt_le] at hmin hmax
  have hmin : -2147483648 ≤ n.toInt := hmin
  have hmax : n.toInt ≤ 2147483647 := hmax
  rw [← Int64.toInt_inj, Int32.toInt_toInt64, Int64.toInt_toInt32]
  exact Int.bmod_eq_of_le (by omega) (by omega)

theorem fitsInt32_toInt64 (n : Int32) : FitsInt32 n.toInt64 := by
  have hmin : -2147483648 ≤ n.toInt := n.le_toInt
  have hmax : n.toInt < 2147483648 := n.toInt_lt
  rw [← Int32.toInt_toInt64] at hmin hmax
  constructor
  · rw [Int64.le_iff_toInt_le]
    exact hmin
  · rw [Int64.le_iff_toInt_le]
    show n.toInt64.toInt ≤ 2147483647
    omega

namespace Tree

/-! ## Rewriting -/

/-- The value as a 32-bit integer if it is a 64-bit one that fits. -/
def narrowed (b : Bindable ρ) : Bindable ρ :=
  match b.val with
  | .long n => if FitsInt32 n then .int n.toInt32 else b
  | _ => b

/-- The value is no 64-bit integer of more than 32 bits. -/
def Narrow (b : Bindable ρ) : Prop := ∀ n, b.val = .long n → FitsInt32 n

/-- What is left out at the start, if a count is given. -/
def skipped? : List (Tree.Part ρ) → Option Int64
  | p :: _ => p.integer?
  | [] => none

/-- The step that drops whatever there is. -/
def Step.dropping : Tree.Step ρ := ⟨"not", [.nested ⟨"__", [⟨"identity", []⟩]⟩]⟩

/-- The step without what the server does not know: `skip` is a range without end, and `none` and
a label filter without labels drop whatever there is. -/
def Step.known (s : Tree.Step ρ) : Tree.Step ρ :=
  if s.name = "skip" then
    match skipped? s.parts with
    | some n => ⟨"range", [.long n, .long (-1)]⟩
    | none => s
  else if s.name = "none" ∨ s.name = "hasLabel" ∧ s.parts.isEmpty = true then Step.dropping
  else s

/-- The tree with all steps known to the server, and all integers that fit narrowed. -/
def forCosmos (x : Tree ρ) : Tree ρ := (x.rewrite Step.known id).rewrite id narrowed

/-- No integer of more than 32 bits is left. -/
def IsNarrow (x : Tree ρ) : Prop := x.Every (fun _ => True) Narrow

/-! ### Narrowed values -/

theorem narrowed_integer? (b : Bindable ρ) :
    (narrowed b).val.integer? = b.val.integer? := by
  rcases b with ⟨v, hv⟩
  cases v with
  | long n =>
    simp only [narrowed]
    by_cases hfits : FitsInt32 n
    · rw [if_pos hfits]
      exact congrArg some hfits.toInt64_toInt32
    · rw [if_neg hfits]
  | _ => rfl

theorem narrowed_eq_self {b : Bindable ρ} (h : ∀ n, b.val ≠ .long n) : narrowed b = b := by
  rcases b with ⟨v, hv⟩
  cases v with
  | long n => exact absurd rfl (h n)
  | _ => rfl

theorem narrowed_isNull (b : Bindable ρ) : (narrowed b).val.isNull = b.val.isNull := by
  rcases b with ⟨v, hv⟩
  cases v with
  | long n =>
    simp only [narrowed]
    split <;> rfl
  | _ => rfl

theorem narrowed_entity (b : Bindable ρ) (e : Entity ρ) (h : (narrowed b).val = .entity e) :
    b.val = .entity e := by
  rcases b with ⟨v, hv⟩
  cases v with
  | long n =>
    simp only [narrowed] at h
    split at h <;> contradiction
  | _ => exact h

end Tree

/-! ## Verdicts of the rules for CosmosDb -/

namespace Dialect

/-- Rules for other tags do not matter. -/
theorem verdict_withRules {d : Dialect ρ} {rules : List (Tag × Rule ρ)} {a : Atom ρ}
    (h : ∀ layer ∈ rules, layer.1 ≠ a.tag) (options : Options) :
    (d.withRules rules).verdict options a = d.verdict options a := by
  have hnone : (rules.filterMap fun layer => if layer.1 = a.tag then some layer.2 else none) =
      [] := by
    rw [List.filterMap_eq_nil_iff]
    intro layer hlayer
    exact if_neg (h layer hlayer)
  rw [verdict, verdict, chain, chain, withRules, List.filterMap_append, hnone, List.append_nil]

section Verdicts

variable [Inhabited ρ]

theorem cosmos_verdict_value (options : Options) (v : Value ρ) :
    cosmos.verdict options (.value v) = ValueRule.verdict v .narrowed := by
  cases v with
  | long n =>
    have hchain : (cosmos : Dialect ρ).chain (Atom.value (.long n) : Atom ρ).tag =
        [.value .narrowed] := rfl
    exact verdict_of_chain hchain options
  | _ =>
    rw [cosmos, withCosmos, verdict_withRules, groovy_verdict_value]
    · rfl
    · simp [cosmosRules, Atom.tag, Value.kind]

theorem cosmos_verdict_step (options : Options) (s : Step ρ) :
    cosmos.verdict options (.step s) =
      if s.name = "skip" then StepRule.verdict options s .rangeForSkip
      else if s.name = "none" then StepRule.verdict options s (.replaced dropEverything)
      else if s.name ∈ ["limit", "tail", "range"] then
        StepRule.verdict options s (.atMost maxInt32)
      else groovy.verdict options (.step s) := by
  by_cases hskip : s.name = "skip"
  · rw [if_pos hskip]
    have hchain : (cosmos : Dialect ρ).chain (Atom.step s).tag = [.step .rangeForSkip] := by
      rw [Atom.tag, hskip]
      rfl
    exact verdict_of_chain hchain options
  rw [if_neg hskip]
  by_cases hnone : s.name = "none"
  · rw [if_pos hnone]
    have hchain : (cosmos : Dialect ρ).chain (Atom.step s).tag =
        [.step (.replaced dropEverything)] := by
      rw [Atom.tag, hnone]
      rfl
    exact verdict_of_chain hchain options
  rw [if_neg hnone]
  by_cases hcount : s.name ∈ ["limit", "tail", "range"]
  · rw [if_pos hcount]
    have hchain : (cosmos : Dialect ρ).chain (Atom.step s).tag = [.step (.atMost maxInt32)] := by
      rw [Atom.tag]
      simp only [List.mem_cons, List.not_mem_nil, or_false] at hcount
      rcases hcount with h | h | h <;> rw [h] <;> rfl
    exact verdict_of_chain hchain options
  · rw [if_neg hcount, cosmos, withCosmos, verdict_withRules]
    simp only [List.mem_cons, List.not_mem_nil, or_false, not_or] at hcount
    simp [cosmosRules, Atom.tag, Ne.symm hskip, Ne.symm hnone, Ne.symm hcount.1,
      Ne.symm hcount.2.1, Ne.symm hcount.2.2]

/-! ### Verdicts on resolved steps -/

section Resolved

variable (options : Options) {name : String} {parameters : List (Value ρ)}
  {parts : List (Tree.Part ρ)}

omit [Inhabited ρ] in
theorem part_integer? {v : Value ρ} {p : Tree.Part ρ} (h : v.part Traversal.tree = .ok p) :
    p.integer? = v.integer? := by
  rcases Tree.part_cases h with ⟨b, rfl, rfl⟩ | ⟨_, rfl, rfl⟩ | ⟨_, rfl, rfl⟩ | ⟨_, _, rfl, _, rfl⟩
  all_goals rfl

omit [Inhabited ρ] in
theorem rangeForSkip_makes
    (h : List.Forall₂ (fun v p => v.part Traversal.tree = .ok p) parameters parts) :
    (StepRule.verdict options ⟨name, parameters⟩ .rangeForSkip).Makes
      ((Tree.skipped? parts).map fun n => ⟨"range", [.long n, .long (-1)]⟩) := by
  have hskipped : (⟨name, parameters⟩ : Step ρ).integerAt 0 = Tree.skipped? parts := by
    rcases h with _ | ⟨hp, _⟩
    · rfl
    · exact (part_integer? hp).symm
  simp only [StepRule.verdict, StepRule.substitute?, hskipped]
  cases Tree.skipped? parts with
  | none => exact rfl
  | some n => exact ⟨.step (Step.range n (-1)), rfl, .step rfl⟩

theorem denotes_dropEverything :
    (Atom.step (dropEverything : Step ρ)).Denotes (.step Tree.Step.dropping) := .step rfl

omit [Inhabited ρ] in
/-- A count above the bound is an integer that does not fit. -/
theorem atMost_verdict
    (h : List.Forall₂ (fun v p => v.part Traversal.tree = .ok p) parameters parts) :
    (∃ n, .long n ∈ parts ∧ ¬ FitsInt32 n ∧
        StepRule.verdict options ⟨name, parameters⟩ (.atMost maxInt32) =
          .reject (.valueRange name n maxInt32)) ∨
      StepRule.verdict options ⟨name, parameters⟩ (.atMost maxInt32) = .pass := by
  simp only [StepRule.verdict]
  cases hexcess : (⟨name, parameters⟩ : Step ρ).excess? maxInt32 with
  | none => exact Or.inr rfl
  | some n =>
    have hlarge : ¬ FitsInt32 n := by
      have habove : maxInt32 < n := by simpa using List.find?_some hexcess
      intro hfits
      exact absurd hfits.2 (Int64.not_le.mpr habove)
    rcases List.mem_filterMap.mp (List.mem_of_find?_eq_some hexcess) with ⟨v, hv, hn⟩
    rcases exists_of_mem_right h.flip hv with ⟨p, hp, hpart⟩
    cases v with
    | int k =>
      injection hn with hn
      exact absurd (fitsInt32_toInt64 k) (hn ▸ hlarge)
    | long m =>
      injection hn with hn
      injection hpart with hpart
      have hp : .long m ∈ parts := by
        rw [← hpart] at hp
        exact hp
      exact Or.inl ⟨n, hn ▸ hp, hlarge, rfl⟩
    | _ => contradiction

end Resolved

end Verdicts

end Dialect

/-! ## Rewriting before compiling -/

namespace Tree

/-- Rewriting for CosmosDb, first the steps and then the integers. -/
def cosmosRewriting : Rewriting ρ :=
  (Rewriting.ofMaps id narrowed).after (Rewriting.ofMaps Step.known id)

theorem cosmosRewriting_step (s : Tree.Step ρ) :
    cosmosRewriting.step s = (s.rewriteBelow Step.known id).known.rewriteBelow id narrowed := by
  show (s.rewrite Step.known id).rewrite id narrowed = _
  rw [Step.rewrite_eq_below, Step.rewrite_eq_below]
  rfl

theorem integer?_rewrite (onStep : Tree.Step ρ → Tree.Step ρ) {onValue : Bindable ρ → Bindable ρ}
    (h : ∀ b, (onValue b).val.integer? = b.val.integer?) (p : Tree.Part ρ) :
    (p.rewrite onStep onValue).integer? = p.integer? := by
  cases p with
  | value b => exact h b
  | _ => rfl

theorem skipped?_rewrite (onStep : Tree.Step ρ → Tree.Step ρ) {onValue : Bindable ρ → Bindable ρ}
    (h : ∀ b, (onValue b).val.integer? = b.val.integer?) (parts : List (Tree.Part ρ)) :
    skipped? (parts.map (Part.rewrite onStep onValue)) = skipped? parts := by
  cases parts with
  | nil => rfl
  | cons p rest => exact integer?_rewrite onStep h p

/-- The server knows the step. -/
structure Step.IsKnown (s : Tree.Step ρ) : Prop where
  skip : s.name = "skip" → skipped? s.parts = none
  none : s.name ≠ "none"
  label : s.name = "hasLabel" → s.parts ≠ []

theorem Step.IsKnown.eq {s : Tree.Step ρ} (h : s.IsKnown) : s.known = s := by
  unfold known
  by_cases hname : s.name = "skip"
  · rw [if_pos hname, h.skip hname]
  · rw [if_neg hname, if_neg]
    rintro (hnone | ⟨hlabel, hempty⟩)
    · exact h.none hnone
    · exact h.label hlabel (List.isEmpty_iff.mp hempty)

theorem Step.IsKnown.rewriteBelow {s : Tree.Step ρ} (h : s.IsKnown)
    (onStep : Tree.Step ρ → Tree.Step ρ) {onValue : Bindable ρ → Bindable ρ}
    (hvalue : ∀ b, (onValue b).val.integer? = b.val.integer?) :
    (s.rewriteBelow onStep onValue).IsKnown where
  skip hname := (skipped?_rewrite onStep hvalue s.parts).trans (h.skip hname)
  none := h.none
  label hname := fun hnil => h.label hname (List.map_eq_nil_iff.mp hnil)

theorem rewriteBelow_twice (s : Tree.Step ρ) :
    (s.rewriteBelow Step.known id).rewriteBelow id narrowed =
      ⟨s.name, s.parts.map cosmosRewriting.part⟩ := by
  simp only [Step.rewriteBelow, List.map_map]
  rfl

/-- A step that the server knows is rewritten below only. -/
theorem cosmosRewriting_of_isKnown {s : Tree.Step ρ} (h : s.IsKnown) :
    cosmosRewriting.step s = ⟨s.name, s.parts.map cosmosRewriting.part⟩ := by
  have hbelow : (s.rewriteBelow Step.known id).IsKnown := h.rewriteBelow Step.known fun _ => rfl
  rw [cosmosRewriting_step, hbelow.eq, rewriteBelow_twice]

theorem cosmosRewriting_dropping :
    cosmosRewriting.step (Step.dropping : Tree.Step ρ) = Step.dropping := by
  rfl

theorem cosmosRewriting_none (parts : List (Tree.Part ρ)) :
    cosmosRewriting.step ⟨"none", parts⟩ = Step.dropping := by
  rw [cosmosRewriting_step]
  rfl

theorem cosmosRewriting_noLabel :
    cosmosRewriting.step (⟨"hasLabel", []⟩ : Tree.Step ρ) = Step.dropping := by
  rw [cosmosRewriting_step]
  rfl

theorem cosmosRewriting_skip {parts : List (Tree.Part ρ)} {n : Int64}
    (h : skipped? parts = some n) :
    cosmosRewriting.step ⟨"skip", parts⟩ =
      cosmosRewriting.step ⟨"range", [.long n, .long (-1)]⟩ := by
  have hbelow : skipped? (parts.map (Part.rewrite Step.known id)) = some n :=
    (skipped?_rewrite Step.known (fun _ => rfl) parts).trans h
  have hknown : (Step.rewriteBelow Step.known id ⟨"skip", parts⟩).known =
      ⟨"range", [.long n, .long (-1)]⟩ := by
    simp [Step.known, Step.rewriteBelow, hbelow]
  rw [cosmosRewriting_step, cosmosRewriting_step, hknown]
  rfl

/-- Steps of normalising commute with rewriting for CosmosDb. -/
theorem normalize?_cosmosRewriting (omitSingle : Bool) (s : Tree.Step ρ) :
    Step.normalize? omitSingle ⟨s.name, s.parts.map cosmosRewriting.part⟩ =
      (s.normalize? omitSingle).map fun r => ⟨r.name, r.parts.map cosmosRewriting.part⟩ := by
  have hsteps := Step.normalize?_rewriteBelow Step.known id (fun _ => rfl) omitSingle s
  have hvalues := Step.normalize?_rewriteBelow id narrowed narrowed_isNull omitSingle
    (s.rewriteBelow Step.known id)
  rw [hsteps, Option.map_map] at hvalues
  simpa only [Function.comp_def, rewriteBelow_twice] using hvalues

end Tree

namespace Dialect

open Gremlin.Tree (cosmosRewriting Narrow)

section Matched

variable (options : Options)

theorem not_narrow_long {n : Int64} (h : ¬ FitsInt32 n) :
    ¬ (cosmosRewriting.part (Tree.Part.long n : Tree.Part ρ)).Every (fun _ => True) Narrow := by
  have hkept : cosmosRewriting.part (Tree.Part.long n : Tree.Part ρ) = .long n :=
    congrArg Tree.Part.value (if_neg h)
  rw [hkept]
  intro hnarrow
  exact h (hnarrow n rfl)

/-- An integer is narrowed or rejected, and every other value is kept. -/
theorem matched_value {v : Value ρ} {p : Tree.Part ρ} (h : v.part Traversal.tree = .ok p) :
    cosmosRewriting.Matched Narrow (groovy.verdict options) (.part p)
      (ValueRule.verdict v .narrowed) := by
  have hgroovy : ∀ (a : Atom ρ) (q : Tree.Part ρ), a.Denotes (.part q) →
      groovy.verdict options a = .pass := by
    intro a q ha
    cases ha
    exact groovy_verdict_value options _
  by_cases hlong : ∃ n, v = .long n
  · rcases hlong with ⟨n, rfl⟩
    injection h with h
    rw [← h]
    by_cases hfits : FitsInt32 n
    · have hverdict : ValueRule.verdict (.long n : Value ρ) .narrowed =
          .substitute (.value (.int n.toInt32)) := if_pos hfits
      have hnarrowed : cosmosRewriting.part (Tree.Part.long n : Tree.Part ρ) =
          .int n.toInt32 := congrArg Tree.Part.value (if_pos hfits)
      rw [hverdict]
      refine .absorbed (j := .part (.int n.toInt32)) (.value rfl) ?_
      exact congrArg Tree.Item.part hnarrowed.symm
    · have hverdict : ValueRule.verdict (.long n : Value ρ) .narrowed =
          .reject (.valueRange "Long" n maxInt32) := if_neg hfits
      have hwide : ¬ (cosmosRewriting.item (.part (Tree.Part.long n : Tree.Part ρ))).Fits Narrow :=
        not_narrow_long hfits
      rw [hverdict]
      exact .reject hwide _ _ _
  · have hverdict : ValueRule.verdict v .narrowed = .pass := by
      cases v with
      | long n => exact absurd ⟨n, rfl⟩ hlong
      | _ => rfl
    rw [hverdict]
    refine .pass ?_ fun a ha => hgroovy a _ ha
    rcases Tree.part_cases h with ⟨b, rfl, rfl⟩ | ⟨_, _, rfl⟩ | ⟨_, _, rfl⟩ | ⟨_, _, _, _, rfl⟩
    · have hb : ∀ n, b.val ≠ .long n := by
        intro n hn
        exact hlong ⟨n, hn⟩
      refine ⟨congrArg Tree.Part.value (Tree.narrowed_eq_self hb), ?_⟩
      intro n hn
      exact absurd hn (hb n)
    · exact ⟨rfl, trivial⟩
    · exact ⟨rfl, trivial⟩
    · trivial

/-- What the standard dialect makes of a step that the server knows, once it is rewritten. -/
theorem groovy_verdict_rewritten {x : Tree.Step ρ} (hknown : x.IsKnown) {a : Atom ρ}
    (ha : a.Denotes (.step (cosmosRewriting.step x))) :
    (groovy.verdict options a).Makes
      ((x.normalize? options.omitSingle).map fun r =>
        ⟨r.name, r.parts.map cosmosRewriting.part⟩) := by
  cases ha with
  | step hs =>
    rw [Tree.cosmosRewriting_of_isKnown hknown] at hs
    have hmakes := groovy_verdict_makes options hs
    rw [Tree.normalize?_cosmosRewriting] at hmakes
    exact hmakes

/-- A step that the server knows is kept if both dialects pass it on. -/
theorem matched_pass {x : Tree.Step ρ} (hknown : x.IsKnown)
    (hnormal : x.normalize? options.omitSingle = none) :
    cosmosRewriting.Matched Narrow (groovy.verdict options) (.step x) .pass := by
  refine .pass (Tree.cosmosRewriting_of_isKnown hknown) ?_
  intro a ha
  have hmakes := groovy_verdict_rewritten options hknown ha
  rw [hnormal] at hmakes
  exact hmakes

/-- A step of normalising that the server knows the outcome of is taken on both sides. -/
theorem matched_followed {x y : Tree.Step ρ} (hx : x.IsKnown) (hy : y.IsKnown)
    (hnormal : x.normalize? options.omitSingle = some y)
    (hfits : (∀ p ∈ y.parts, (cosmosRewriting.part p).Every (fun _ => True) Narrow) ↔
      ∀ p ∈ x.parts, (cosmosRewriting.part p).Every (fun _ => True) Narrow)
    {b : Atom ρ} (hb : b.Denotes (.step y)) :
    cosmosRewriting.Matched Narrow (groovy.verdict options) (.step x) (.substitute b) := by
  have hrewritten := Tree.cosmosRewriting_of_isKnown hx
  have hrewritten' := Tree.cosmosRewriting_of_isKnown hy
  refine .followed hb ?_ ?_
  · simp only [Rewriting.item, Tree.Item.Fits, hrewritten, hrewritten', Tree.Step.Every,
      Tree.everyPart_iff, List.forall_mem_map, true_and]
    exact hfits
  · intro a ha
    have hmakes := groovy_verdict_rewritten options hx ha
    rw [hnormal] at hmakes
    show ∃ c : Atom ρ, _ ∧ c.Denotes (.step (cosmosRewriting.step y))
    rw [hrewritten']
    exact hmakes

/-- What is dropped by normalising holds no integers. -/
theorem narrow_of_normalize? {x y : Tree.Step ρ}
    (hnormal : x.normalize? options.omitSingle = some y) (hlabel : x.name ≠ "hasLabel") :
    y.IsKnown ∧ ((∀ p ∈ y.parts, (cosmosRewriting.part p).Every (fun _ => True) Narrow) ↔
      ∀ p ∈ x.parts, (cosmosRewriting.part p).Every (fun _ => True) Narrow) := by
  rcases Tree.Step.normalize?_cases hnormal with ⟨p, q, hnull, rfl, rfl⟩ | ⟨rfl, rfl⟩ |
    ⟨p, rest, hsingle, _, rfl, rfl⟩
  · have hq : (cosmosRewriting.part q).Every (fun _ => True) Narrow := by
      cases q with
      | value b =>
        rcases b with ⟨v, hv⟩
        cases v with
        | null =>
          intro n hn
          cases hn
        | _ => contradiction
      | _ => contradiction
    exact ⟨⟨by simp, by simp, by simp⟩, by simp [hq]⟩
  · exact absurd rfl hlabel
  · have hp : (cosmosRewriting.part p).Every (fun _ => True) Narrow := by
      cases p with
      | token word => trivial
      | _ => contradiction
    exact ⟨⟨by simp, by simp, by simp⟩, by simp [hp]⟩

section Steps

variable {name : String} {parameters : List (Value ρ)} {parts : List (Tree.Part ρ)}

/-- Skipping and the range without end are rewritten to the same. -/
theorem matched_skip
    (h : List.Forall₂ (fun v p => v.part Traversal.tree = .ok p) parameters parts) :
    cosmosRewriting.Matched Narrow (groovy.verdict options) (.step ⟨"skip", parts⟩)
      (StepRule.verdict options ⟨"skip", parameters⟩ .rangeForSkip) := by
  rcases (rangeForSkip_makes options h : Verdict.Makes _ _).cases with ⟨hnone, hverdict⟩ |
    ⟨y, b, hsome, hverdict, hb⟩
  · have hskipped : Tree.skipped? parts = none := Option.map_eq_none_iff.mp hnone
    have hknown : (⟨"skip", parts⟩ : Tree.Step ρ).IsKnown :=
      ⟨fun _ => hskipped, by simp, by simp⟩
    rw [hverdict]
    exact matched_pass options hknown (by simp [Tree.Step.normalize?])
  · rcases Option.map_eq_some_iff.mp hsome with ⟨n, hskipped, rfl⟩
    have hsame := Tree.cosmosRewriting_skip hskipped
    rw [hverdict]
    exact .absorbed hb (congrArg Tree.Item.step hsame.symm)

/-- A count above the bound is an integer that does not fit. -/
theorem matched_count (hname : name ∈ ["limit", "tail", "range"])
    (h : List.Forall₂ (fun v p => v.part Traversal.tree = .ok p) parameters parts) :
    cosmosRewriting.Matched Narrow (groovy.verdict options) (.step ⟨name, parts⟩)
      (StepRule.verdict options ⟨name, parameters⟩ (.atMost maxInt32)) := by
  have hnames : name ≠ "skip" ∧ name ≠ "none" ∧ name ≠ "has" ∧ name ≠ "hasLabel" ∧
      name ≠ "property" := by
    simp only [List.mem_cons, List.not_mem_nil, or_false] at hname
    rcases hname with rfl | rfl | rfl <;> decide
  rcases hnames with ⟨hskip, hnone, hhas, hlabel, hproperty⟩
  have hknown : (⟨name, parts⟩ : Tree.Step ρ).IsKnown :=
    ⟨fun heq => absurd heq hskip, hnone, fun heq => absurd heq hlabel⟩
  rcases atMost_verdict options h with ⟨n, hn, hlarge, hverdict⟩ | hverdict
  · -- narrowing leaves the count as it is, and so it is found by looking at what is left
    have hwide : ¬ (cosmosRewriting.item (.step ⟨name, parts⟩)).Fits Narrow := by
      rw [Rewriting.item, Tree.cosmosRewriting_of_isKnown hknown]
      rintro ⟨_, hall⟩
      rw [Tree.everyPart_iff, List.forall_mem_map] at hall
      exact not_narrow_long hlarge (hall _ hn)
    rw [hverdict]
    exact .reject hwide _ _ _
  · rw [hverdict]
    exact matched_pass options hknown (by simp [Tree.Step.normalize?, hhas, hlabel, hproperty])

/-- A label filter without labels and what keeps nothing are rewritten to the same, and all other
steps of normalising are taken on both sides. -/
theorem matched_standard (hskip : name ≠ "skip") (hnone : name ≠ "none")
    (h : List.Forall₂ (fun v p => v.part Traversal.tree = .ok p) parameters parts) :
    cosmosRewriting.Matched Narrow (groovy.verdict options) (.step ⟨name, parts⟩)
      (groovy.verdict options (.step ⟨name, parameters⟩)) := by
  have hs : Tree.ofStep Traversal.tree ⟨name, parameters⟩ = .ok ⟨name, parts⟩ :=
    Tree.ofStep_eq_ok_iff.mpr ⟨rfl, h⟩
  have hknown : (name = "hasLabel" → parts ≠ []) → (⟨name, parts⟩ : Tree.Step ρ).IsKnown := by
    intro hlabel
    exact ⟨fun heq => absurd heq hskip, hnone, hlabel⟩
  rcases (groovy_verdict_makes options hs).cases with ⟨hnormal, hverdict⟩ |
    ⟨y, b, hnormal, hverdict, hb⟩
  · rw [hverdict]
    refine matched_pass options (hknown ?_) hnormal
    rintro rfl rfl
    simp [Tree.Step.normalize?, Tree.nothing?] at hnormal
  rw [hverdict]
  by_cases hlabel : name = "hasLabel"
  · -- the standard rules make `none` of it, which is rewritten in turn
    rcases Tree.Step.normalize?_cases hnormal with ⟨_, _, _, heq, _⟩ | ⟨heq, rfl⟩ |
      ⟨_, _, _, _, heq, _⟩
    · injection heq with heq
      simp [heq] at hlabel
    · rw [heq]
      refine .absorbed hb (congrArg Tree.Item.step ?_)
      rw [Tree.cosmosRewriting_none, Tree.cosmosRewriting_noLabel]
    · injection heq with heq
      simp [heq] at hlabel
  · rcases narrow_of_normalize? options hnormal hlabel with ⟨hy, hfits⟩
    exact matched_followed options (hknown fun heq => absurd heq hlabel) hy hnormal hfits hb

end Steps

end Matched

/-- The standard dialect matches every verdict of the rules for CosmosDb on what has been
rewritten. -/
theorem simulates_cosmos [Inhabited ρ] (options : Options) :
    (cosmosRewriting : Rewriting ρ).Simulates Narrow options cosmos groovy := by
  intro a i ha
  cases ha with
  | value h =>
    rw [cosmos_verdict_value]
    exact matched_value options h
  | @step s x hs =>
    rcases s with ⟨name, parameters⟩
    rcases x with ⟨name', parts⟩
    rcases Tree.ofStep_eq_ok_iff.mp hs with ⟨hname, hparts⟩
    simp only at hname hparts
    rw [cosmos_verdict_step, ← hname]
    by_cases hskip : name = "skip"
    · rw [if_pos hskip, hskip]
      exact matched_skip options hparts
    rw [if_neg hskip]
    by_cases hnone : name = "none"
    · rw [if_pos hnone, hnone]
      refine .absorbed denotes_dropEverything (congrArg Tree.Item.step ?_)
      rw [Tree.cosmosRewriting_none, Tree.cosmosRewriting_dropping]
    rw [if_neg hnone]
    by_cases hcount : name ∈ ["limit", "tail", "range"]
    · rw [if_pos hcount]
      exact matched_count options hcount hparts
    · rw [if_neg hcount]
      exact matched_standard options hskip hnone hparts

end Dialect

/-! ### Rewritten trees -/

namespace Tree

/-- A step is known to the server, or replaced by one that is. -/
theorem Step.known_cases (s : Tree.Step ρ) :
    (s.IsKnown ∧ s.known = s) ∨ (∃ n, s.known = ⟨"range", [.long n, .long (-1)]⟩) ∨
      s.known = Step.dropping := by
  by_cases hskip : s.name = "skip"
  · cases hskipped : skipped? s.parts with
    | none =>
      have hknown : s.IsKnown := ⟨fun _ => hskipped, by simp [hskip], by simp [hskip]⟩
      exact Or.inl ⟨hknown, hknown.eq⟩
    | some n => exact Or.inr (Or.inl ⟨n, by simp [known, hskip, hskipped]⟩)
  · by_cases hnothing : s.name = "none" ∨ s.name = "hasLabel" ∧ s.parts.isEmpty = true
    · refine Or.inr (Or.inr ?_)
      rw [known, if_neg hskip, if_pos hnothing]
    · have hknown : s.IsKnown := by
        refine ⟨fun heq => absurd heq hskip, fun heq => hnothing (Or.inl heq), ?_⟩
        intro hlabel hnil
        exact hnothing (Or.inr ⟨hlabel, List.isEmpty_iff.mpr hnil⟩)
      exact Or.inl ⟨hknown, hknown.eq⟩

/-- What holds of the steps that are kept and of those that are put in their place holds at
every level of the tree with known steps. -/
theorem every_known {before after : Tree.Step ρ → Prop}
    (hkept : ∀ s : Tree.Step ρ, before s → (s.rewriteBelow Step.known id).IsKnown →
      after (s.rewriteBelow Step.known id))
    (hmade : ∀ s : Tree.Step ρ, s.name ∈ ["range", "not", "identity"] → after s) {x : Tree ρ}
    (h : x.Every before fun _ => True) : (x.rewrite Step.known id).Every after fun _ => True := by
  refine every_rewrite ?_ (fun _ _ => trivial) x h
  intro s hs hbelow
  rcases Step.known_cases (s.rewriteBelow Step.known id) with ⟨hknown, heq⟩ | ⟨n, heq⟩ | heq
  · rw [heq]
    exact ⟨hkept s hs hknown, hbelow⟩
  · rw [heq]
    exact ⟨hmade _ (by simp), trivial, trivial, trivial⟩
  · rw [heq]
    exact ⟨hmade _ (by simp), ⟨⟨hmade _ (by simp), trivial⟩, trivial⟩, trivial⟩

theorem isSettled_forCosmos {x : Tree ρ} (h : x.IsSettled) : x.forCosmos.IsSettled := by
  have hsteps : (x.rewrite Step.known id).IsSettled := by
    refine every_known (fun s hs _ => hs.rewriteBelow fun _ _ h => h) ?_ h
    intro s hname
    apply Step.IsSettled.of_name
    simp only [List.mem_cons, List.not_mem_nil, or_false] at hname
    rcases hname with hname | hname | hname <;> simp [hname]
  refine every_rewrite ?_ (fun _ _ => trivial) _ hsteps
  intro s hs hbelow
  exact ⟨hs.rewriteBelow narrowed_entity, hbelow⟩

/-- The server knows every step of the rewritten tree. -/
theorem isKnown_forCosmos (x : Tree ρ) : x.forCosmos.Every Step.IsKnown fun _ => True := by
  have hall : x.Every (fun _ => True) fun _ => True :=
    every_of_forall (fun _ => trivial) (fun _ => trivial) x
  have hsteps : (x.rewrite Step.known id).Every Step.IsKnown fun _ => True := by
    refine every_known (fun _ _ hknown => hknown) ?_ hall
    intro s hname
    simp only [List.mem_cons, List.not_mem_nil, or_false] at hname
    rcases hname with hname | hname | hname <;>
      exact ⟨by simp [hname], by simp [hname], by simp [hname]⟩
  refine every_rewrite ?_ (fun _ _ => trivial) _ hsteps
  intro s hs hbelow
  exact ⟨hs.rewriteBelow id narrowed_integer?, hbelow⟩

/-- Normalising brings no step back that the server does not know. -/
theorem isKnown_normal (omitSingle : Bool) {x : Tree ρ}
    (h : x.Every Step.IsKnown fun _ => True) :
    (x.normal omitSingle).Every Step.IsKnown fun _ => True := by
  refine every_normal (fun s hs => hs.rewriteBelow _ fun _ => rfl) ?_ ?_ h
  · intro s hname
    simp only [List.mem_cons, List.not_mem_nil, or_false] at hname
    rcases hname with hname | hname <;>
      exact ⟨by simp [hname], by simp [hname], by simp [hname]⟩
  · intro hlabel
    exact absurd rfl (hlabel.label rfl)

end Tree

namespace Dialect

/-- Compiling a traversal whose steps all resolve for CosmosDb is compiling its rewritten tree in
the standard dialect, unless compiling runs into a bound: it fails with an integer out of range
exactly if one is left in the rewritten tree that does not fit, and else gives the same script.
This script is made of the pieces of the normal form of that tree, all of whose steps the server
knows. -/
theorem cosmos_compile_eq_rewritten [Inhabited ρ] {t : Traversal ρ} {x : Tree ρ}
    (h : t.tree = .ok x) (inlined : Bool) :
    (∃ depth, cosmos.compile t inlined = .error (.serializationLoop depth)) ∨
      (¬ x.forCosmos.IsNarrow ∧
        ∃ context n max, cosmos.compile t inlined = .error (.valueRange context n max)) ∨
      (x.forCosmos.IsNarrow ∧
        ∃ script, cosmos.compile t inlined = .ok script ∧
          groovy.compile (x.forCosmos.traversal t.environment) inlined = .ok script ∧
          script = Dialect.script ⟨inlined, t.environment.options⟩
            (x.forCosmos.normal t.environment.options.omitSingle).pieces ∧
          (x.forCosmos.normal t.environment.options.omitSingle).Every Tree.Step.IsKnown
            fun _ => True) := by
  have hsettled := Tree.isSettled_forCosmos (Tree.isSettled_of_within h)
  have hrewritten := Tree.tree_traversal t.environment _ hsettled
  have houtcome := (simulates_cosmos t.environment.options).outcome h hrewritten (by simp)
  have hready : (groovy : Dialect ρ).IsReady := isReady_plain.withStandard
  have hcosmos : (cosmos : Dialect ρ).IsReady := hready.withCosmos
  rw [compile_eq_draft hcosmos, compile_eq_draft hready, Tree.environment_traversal]
  rcases houtcome with ⟨depth, hx⟩ | ⟨hwide, context, n, max, hx⟩ | ⟨hnarrow, ps, hx, hy⟩
  · rw [hx]
    exact Or.inl ⟨depth, rfl⟩
  · rw [hx]
    exact Or.inr (Or.inl ⟨hwide, context, n, max, rfl⟩)
  · have hpieces := pieces_of_groovy_draft hrewritten hy
    rw [Tree.environment_traversal] at hpieces
    rw [hx, hy]
    refine Or.inr (Or.inr ⟨hnarrow, _, rfl, rfl, congrArg _ hpieces, ?_⟩)
    exact Tree.isKnown_normal _ (Tree.isKnown_forCosmos x)

theorem cosmos_compile_assorted :
    Traversal.assorted.tree = .ok Tree.assorted ∧ Tree.assorted.forCosmos.IsNarrow ∧
      ∃ script, cosmos.compile Traversal.assorted true = .ok script ∧
        groovy.compile (Tree.assorted.forCosmos.traversal Traversal.assorted.environment) true =
          .ok script := by
  refine ⟨rfl, ?_⟩
  rcases cosmos_compile_eq_rewritten (t := Traversal.assorted) (x := Tree.assorted) rfl true with
    ⟨_, hfailed⟩ | ⟨_, _, _, _, hfailed⟩ | ⟨hnarrow, script, hcosmos, hgroovy, _⟩
  · contradiction
  · contradiction
  · exact ⟨hnarrow, script, hcosmos, hgroovy⟩

end Dialect

end Gremlin
