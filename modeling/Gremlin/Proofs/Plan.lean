import Gremlin.Proofs.Draft
import Gremlin.Proofs.Resolution

/-!
# Plans

What a rule does may depend on the output at the time, so a compilation cannot be told from the
atom alone. Its plan can: a plan lists what is written, what fails and what is run instead, and
leaves the choices that look at the output open. A plan also says who is at work: every rule, and
the encoder, enters with the path of calls that led to it.

* `Dispatch.run_plan`: a dispatch does what its plan does when it is run;
* `Plan.Every.trace` and `Plan.Every.error`: what holds everywhere in a plan holds of those who
  come to work in a run and of the error that the run may end with.
-/

namespace Gremlin

variable {ρ : Type}

/-! ## Paths -/

/-- How an atom is handed from one who is at work to the next. -/
inductive Hop where
  /-- To the rule below. -/
  | overridden
  /-- Dispatched in place of the atom at hand. -/
  | recurse
  /-- Dispatched as a part of the atom at hand. -/
  | dispatch
deriving DecidableEq

/-- The atom is dispatched from the top. -/
def Hop.restarts (hop : Hop) : Bool := hop ≠ .overridden

/-- A rule or the encoder comes to work on an atom. -/
structure Invocation (ρ : Type) where
  /-- The calls that led here from the whole traversal, the first one first. -/
  path : List Hop
  /-- The number of substitutions that the chain at hand reports. -/
  depth : Nat
  /-- The rule at work, or none if it is the encoder. -/
  rule? : Option (Rule ρ)
  atom : Atom ρ

/-! ## Plans and their runs -/

/-- What a pass may do. -/
inductive Plan (ρ : Type) where
  | done
  | push (text : String)
  | bind (v : Value ρ)
  | literal (v : Value ρ)
  | fail (e : Error)
  | andThen (first second : Plan ρ)
  | orElse (body rescue : Plan ρ)
  /-- The output decides how to go on. -/
  | choose (holds : Output → Bool) (yes no : Plan ρ)
  /-- Someone comes to work. -/
  | enter (i : Invocation ρ) (work : Plan ρ)

namespace Plan

/-- The pass that carries a plan out. -/
def run (mode : Mode) : Plan ρ → Pass
  | done => Pass.done
  | push text => Pass.push text
  | bind v => Pass.write (·.bind v)
  | literal v => Pass.write (·.literal mode v)
  | fail e => Pass.fail e
  | andThen first second => (first.run mode).andThen (second.run mode)
  | orElse body rescue => (body.run mode).orElse (rescue.run mode)
  | choose holds yes no => fun o => if holds o then yes.run mode o else no.run mode o
  | enter _ work => work.run mode

/-- Those who come to work when the plan is carried out, in order. -/
def trace (mode : Mode) : Plan ρ → Output → List (Invocation ρ)
  | andThen first second, o =>
    first.trace mode o ++
      match first.run mode o with
      | (.ok (), o) => second.trace mode o
      | (.error _, _) => []
  | orElse body rescue, o =>
    body.trace mode o ++
      match body.run mode o with
      | (.ok (), _) => []
      | (.error _, o) => rescue.trace mode o
  | choose holds yes no, o => if holds o then yes.trace mode o else no.trace mode o
  | enter i work, o => i :: work.trace mode o
  | _, _ => []

/-! ## What holds everywhere in a plan -/

/-- Something holds of all who may come to work, and something of all errors that may arise. -/
def Every (onEnter : Invocation ρ → Prop) (onFail : Error → Prop) : Plan ρ → Prop
  | fail e => onFail e
  | andThen first second => first.Every onEnter onFail ∧ second.Every onEnter onFail
  | orElse body rescue => body.Every onEnter onFail ∧ rescue.Every onEnter onFail
  | choose _ yes no => yes.Every onEnter onFail ∧ no.Every onEnter onFail
  | enter i work => onEnter i ∧ work.Every onEnter onFail
  | _ => True

namespace Every

variable {onEnter : Invocation ρ → Prop} {onFail : Error → Prop} {mode : Mode}

/-- Whatever the output, only those come to work who may. -/
theorem trace {p : Plan ρ} (h : p.Every onEnter onFail) (o : Output) :
    ∀ i ∈ p.trace mode o, onEnter i := by
  induction p generalizing o with
  | andThen first second ihfirst ihsecond =>
    intro i hi
    simp only [Plan.trace, List.mem_append] at hi
    rcases hi with hi | hi
    · exact ihfirst h.1 o i hi
    · split at hi
      · exact ihsecond h.2 _ i hi
      · contradiction
  | orElse body rescue ihbody ihrescue =>
    intro i hi
    simp only [Plan.trace, List.mem_append] at hi
    rcases hi with hi | hi
    · exact ihbody h.1 o i hi
    · split at hi
      · contradiction
      · exact ihrescue h.2 _ i hi
  | choose holds yes no ihyes ihno =>
    intro i hi
    simp only [Plan.trace] at hi
    split at hi
    · exact ihyes h.1 o i hi
    · exact ihno h.2 o i hi
  | enter j work ih =>
    intro i hi
    rcases List.mem_cons.mp hi with rfl | hi
    · exact h.1
    · exact ih h.2 o i hi
  | _ =>
    intro i hi
    contradiction

/-- A run ends with an error only that may arise. -/
theorem error {p : Plan ρ} (h : p.Every onEnter onFail) {o : Output} {e : Error}
    (he : (p.run mode o).1 = .error e) : onFail e := by
  induction p generalizing o with
  | andThen first second ihfirst ihsecond =>
    simp only [Plan.run, Pass.andThen] at he
    split at he
    · exact ihsecond h.2 he
    · rename_i hrun
      exact ihfirst h.1 ((congrArg Prod.fst hrun).trans he)
  | orElse body rescue ihbody ihrescue =>
    simp only [Plan.run, Pass.orElse] at he
    split at he
    · contradiction
    · exact ihrescue h.2 he
  | choose holds yes no ihyes ihno =>
    simp only [Plan.run] at he
    split at he
    · exact ihyes h.1 he
    · exact ihno h.2 he
  | enter i work ih => exact ih h.2 he
  | fail e' =>
    injection he with he
    rw [← he]
    exact h
  | _ => contradiction

end Every

end Plan

/-! ## Plans of rules -/

/-- What a rule may do with an atom other than write it, as plans. -/
structure Plan.Chain (ρ : Type) where
  depth : Nat
  overridden : Atom ρ → Plan ρ
  recurse : Atom ρ → Plan ρ
  dispatch : Atom ρ → Plan ρ

/-- The chain on which the plans are carried out. -/
def Plan.Chain.run (mode : Mode) (chain : Plan.Chain ρ) : Gremlin.Chain ρ where
  depth := chain.depth
  overridden a := (chain.overridden a).run mode
  recurse a := (chain.recurse a).run mode
  dispatch a := (chain.dispatch a).run mode

namespace Action

/-- The plan for the atom of a target, if there is one. -/
def planAtom (target : Target ρ) (self : Atom ρ) (use : Atom ρ → Plan ρ) : Plan ρ :=
  match target.atom? self with
  | some atom => use atom
  | none => .done

/-- The plan for the value of a target, if it is one. -/
def planValue (target : Target ρ) (self : Atom ρ) (use : Value ρ → Plan ρ) : Plan ρ :=
  match target.atom? self with
  | some (.value v) => use v
  | _ => .done

mutual

def plan (mode : Mode) (chain : Plan.Chain ρ) (self : Atom ρ) : Action ρ → Plan ρ
  | push text => .push text
  | key name => .push (Text.quoted '"' name)
  | depth => .push (toString chain.depth)
  | tag => .push self.tag.debug
  | bind target => planValue target self .bind
  | literal target => planValue target self .literal
  | overridden target => planAtom target self chain.overridden
  | recurse target => planAtom target self chain.recurse
  | dispatch target => planAtom target self chain.dispatch
  | rangeError context value max => .fail (.valueRange context value max)
  | choose condition yes no =>
    .choose (condition.holds mode chain.depth self) (planAll mode chain self yes)
      (planAll mode chain self no)
  | attempt body rescue => .orElse (planAll mode chain self body) (planAll mode chain self rescue)

def planAll (mode : Mode) (chain : Plan.Chain ρ) (self : Atom ρ) : List (Action ρ) → Plan ρ
  | [] => .done
  | action :: rest => .andThen (plan mode chain self action) (planAll mode chain self rest)

end

section Run

variable (mode : Mode) (chain : Plan.Chain ρ) (self : Atom ρ)

theorem run_planAtom (target : Target ρ) (use : Atom ρ → Plan ρ) :
    (planAtom target self use).run mode = onTarget target self fun a => (use a).run mode := by
  unfold planAtom onTarget
  cases target.atom? self <;> rfl

theorem run_planValue (target : Target ρ) (use : Value ρ → Plan ρ)
    (write : Value ρ → Output → Output) (h : ∀ v, (use v).run mode = Pass.write (write v)) :
    (planValue target self use).run mode = onValue target self write := by
  unfold planValue onValue
  cases target.atom? self with
  | none => rfl
  | some a =>
    cases a with
    | step s => rfl
    | value v => exact h v

mutual

theorem run_plan : (action : Action ρ) →
    (plan mode chain self action).run mode = run mode (chain.run mode) self action
  | push _ | key _ | depth | tag | rangeError _ _ _ => rfl
  | bind target => run_planValue mode self target .bind _ fun _ => rfl
  | literal target => run_planValue mode self target .literal _ fun _ => rfl
  | overridden target => run_planAtom mode self target chain.overridden
  | recurse target => run_planAtom mode self target chain.recurse
  | dispatch target => run_planAtom mode self target chain.dispatch
  | choose condition yes no => by
    rw [plan, run, Plan.run, run_planAll yes, run_planAll no]
    rfl
  | attempt body rescue => by
    rw [plan, run, Plan.run, run_planAll body, run_planAll rescue]

theorem run_planAll : (actions : List (Action ρ)) →
    (planAll mode chain self actions).run mode = runAll mode (chain.run mode) self actions
  | [] => rfl
  | action :: rest => by
    rw [planAll, runAll, Plan.run, run_plan action, run_planAll rest]

end

end Run

section Every

variable {onEnter : Invocation ρ → Prop} {onFail : Error → Prop} {mode : Mode}
  {chain : Plan.Chain ρ} {self : Atom ρ}

theorem every_planAtom {use : Atom ρ → Plan ρ} (h : ∀ a, (use a).Every onEnter onFail)
    (target : Target ρ) : (planAtom target self use).Every onEnter onFail := by
  unfold planAtom
  split
  · exact h _
  · trivial

theorem every_planValue (use : Value ρ → Plan ρ) (h : ∀ v, (use v).Every onEnter onFail)
    (target : Target ρ) : (planValue target self use).Every onEnter onFail := by
  unfold planValue
  split
  · exact h _
  · trivial

end Every

end Action

/-- What holds everywhere in the plans that a chain has for atoms. -/
structure Plan.Chain.Every (onEnter : Invocation ρ → Prop) (onFail : Error → Prop)
    (chain : Plan.Chain ρ) : Prop where
  overridden : ∀ a, (chain.overridden a).Every onEnter onFail
  recurse : ∀ a, (chain.recurse a).Every onEnter onFail
  dispatch : ∀ a, (chain.dispatch a).Every onEnter onFail

namespace Action

variable {onEnter : Invocation ρ → Prop} {onFail : Error → Prop} {mode : Mode}
  {chain : Plan.Chain ρ} {self : Atom ρ}

mutual

/-- A program adds nothing to what holds in the plans of its chain but errors of its own. -/
theorem every_plan (hchain : chain.Every onEnter onFail)
    (hrange : ∀ context value max, onFail (.valueRange context value max)) : (action : Action ρ) →
    (plan mode chain self action).Every onEnter onFail
  | push _ | key _ | depth | tag => trivial
  | bind target => every_planValue .bind (fun _ => trivial) target
  | literal target => every_planValue .literal (fun _ => trivial) target
  | overridden target => every_planAtom hchain.overridden target
  | recurse target => every_planAtom hchain.recurse target
  | dispatch target => every_planAtom hchain.dispatch target
  | rangeError context value max => hrange context value max
  | choose _ yes no => ⟨every_planAll hchain hrange yes, every_planAll hchain hrange no⟩
  | attempt body rescue => ⟨every_planAll hchain hrange body, every_planAll hchain hrange rescue⟩

theorem every_planAll (hchain : chain.Every onEnter onFail)
    (hrange : ∀ context value max, onFail (.valueRange context value max)) :
    (actions : List (Action ρ)) → (planAll mode chain self actions).Every onEnter onFail
  | [] => trivial
  | action :: rest => ⟨every_plan hchain hrange action, every_planAll hchain hrange rest⟩

end

end Action

/-! ## Plans of rules -/

/-- The plan that carries out a verdict on an atom. -/
def Plan.Chain.follow (chain : Plan.Chain ρ) (atom : Atom ρ) : Verdict ρ → Plan ρ
  | .pass => chain.overridden atom
  | .substitute a => chain.recurse a
  | .reject e => .fail e

/-- Only counts above a maximum are turned down. -/
theorem StepRule.exists_of_verdict_eq_reject {options : Options} {s : Step ρ} {rule : StepRule ρ}
    {e : Error} (h : rule.verdict options s = .reject e) :
    ∃ max n, rule = .atMost max ∧ e = .valueRange s.name n max := by
  cases rule with
  | atMost max =>
    simp only [verdict] at h
    split at h
    · injection h with h
      exact ⟨max, _, rfl, h.symm⟩
    · contradiction
  | _ =>
    simp only [verdict] at h
    split at h <;> contradiction

namespace Rule

/-- The program that a rule runs on an atom, if it runs one. -/
def program? : Rule ρ → Atom ρ → Option (List (Action ρ))
  | step (.program actions), .step _ => some actions
  | value (.program actions), .value _ => some actions
  | any actions, _ => some actions
  | _, _ => none

/-- A rule runs its program, or does what its verdict says. -/
def plan (mode : Mode) (chain : Plan.Chain ρ) (rule : Rule ρ) (atom : Atom ρ) : Plan ρ :=
  match rule.program? atom with
  | some actions => Action.planAll mode chain atom actions
  | none => chain.follow atom (rule.verdict mode.options atom)

theorem program?_of_isReady {rule : Rule ρ} (h : rule.isReady = true) (atom : Atom ρ) :
    rule.program? atom = none := by
  rcases rule with rule | rule | actions
  · cases rule <;> first | contradiction | rfl
  · cases rule <;> first | contradiction | rfl
  · contradiction

theorem run_plan (mode : Mode) (chain : Plan.Chain ρ) (rule : Rule ρ) (atom : Atom ρ) :
    (rule.plan mode chain atom).run mode = rule.run mode (chain.run mode) atom := by
  unfold plan
  by_cases hready : rule.isReady = true
  · rw [program?_of_isReady hready, run_eq_follow mode _ atom hready]
    cases rule.verdict mode.options atom <;> rfl
  · -- a program runs on atoms of its sort, and the others are handed on
    have hrun := Action.run_planAll mode chain
    rcases rule with rule | rule | actions
    · cases rule with
      | program actions =>
        cases atom with
        | step s => exact hrun (.step s) actions
        | value v => rfl
      | _ => exact absurd rfl hready
    · cases rule with
      | program actions =>
        cases atom with
        | step s => rfl
        | value v => exact hrun (.value v) actions
      | _ => exact absurd rfl hready
    · exact hrun atom actions

/-- A rule turns an atom down only for a number that is out of range. -/
theorem exists_of_verdict_eq_reject {options : Options} {rule : Rule ρ} {atom : Atom ρ} {e : Error}
    (h : rule.verdict options atom = .reject e) :
    ∃ context n max, e = .valueRange context n max := by
  rcases rule with rule | rule | actions
  · cases atom with
    | value v => contradiction
    | step s =>
      rcases StepRule.exists_of_verdict_eq_reject h with ⟨max, n, _, he⟩
      exact ⟨s.name, n, max, he⟩
  · cases atom with
    | step s => contradiction
    | value v =>
      simp only [verdict, ValueRule.verdict] at h
      split at h
      · split at h
        · split at h
          · contradiction
          · injection h with h
            exact ⟨_, _, _, h.symm⟩
        · contradiction
      · contradiction
  · contradiction

/-- A rule adds nothing to what holds in the plans of its chain but numbers out of range. -/
theorem every_plan {onEnter : Invocation ρ → Prop} {onFail : Error → Prop} {mode : Mode}
    {chain : Plan.Chain ρ} (hchain : chain.Every onEnter onFail)
    (hrange : ∀ context value max, onFail (.valueRange context value max)) (rule : Rule ρ)
    (atom : Atom ρ) : (rule.plan mode chain atom).Every onEnter onFail := by
  unfold plan
  split
  · exact Action.every_planAll hchain hrange _
  · cases hverdict : rule.verdict mode.options atom with
    | pass => exact hchain.overridden atom
    | substitute a => exact hchain.recurse a
    | reject e =>
      rcases exists_of_verdict_eq_reject hverdict with ⟨context, n, max, rfl⟩
      exact hrange context n max

end Rule

/-! ## Plans of the encoder -/

namespace Encoding

section Plans

variable (plan : Atom ρ → Plan ρ)

def separatedPlan (mark : String) : (separate : Bool) → List (Atom ρ) → Plan ρ
  | _, [] => .done
  | separate, a :: rest =>
    .andThen (if separate then .push mark else .done)
      (.andThen (plan a) (separatedPlan mark true rest))

def stepPlan (s : Step ρ) : Plan ρ :=
  .andThen (.push s.name) (.andThen (.push "(")
    (.andThen (separatedPlan plan ", " false (s.parameters.map .value)) (.push ")")))

def stepsPlan (scope : Scope) : (separate : Bool) → List (Step ρ) → Plan ρ
  | _, [] => .done
  | separate, s :: rest =>
    match s.resolve scope with
    | .error e => .fail e
    | .ok resolved =>
      .andThen (separatedPlan plan "." separate (resolved.map .step))
        (stepsPlan scope (separate || !resolved.isEmpty) rest)

def traversalPlan (t : Traversal ρ) : Plan ρ :=
  .andThen (.push t.graph) (stepsPlan plan t.scope (!t.graph.isEmpty) t.steps.toList)

def valuePlan : Value ρ → Plan ρ
  | .traversal t => traversalPlan plan t
  | .key name => .push (Text.quoted '"' name)
  | .token word => .push word
  | .member m => .fail (.unknownMapping m.text)
  | .elementType t => .fail (.unknownMapping t)
  | literal => .literal literal

/-- The plan for an atom that no rule takes care of. -/
def atomPlan : Atom ρ → Plan ρ
  | .step s => stepPlan plan s
  | .value v => valuePlan plan v

end Plans

section Run

variable (mode : Mode) (plan : Atom ρ → Plan ρ)

theorem run_separatedPlan (mark : String) (separate : Bool) (atoms : List (Atom ρ)) :
    (separatedPlan plan mark separate atoms).run mode =
      separated mark (fun a => (plan a).run mode) separate atoms := by
  induction atoms generalizing separate with
  | nil => rfl
  | cons a rest ih =>
    rw [separatedPlan, separated, Plan.run, Plan.run, ih]
    cases separate <;> rfl

theorem run_stepPlan (s : Step ρ) :
    (stepPlan plan s).run mode = step (fun a => (plan a).run mode) s := by
  simp only [stepPlan, step, Plan.run, run_separatedPlan]

theorem run_stepsPlan (scope : Scope) (separate : Bool) (raw : List (Step ρ)) :
    (stepsPlan plan scope separate raw).run mode =
      steps (fun a => (plan a).run mode) scope separate raw := by
  induction raw generalizing separate with
  | nil => rfl
  | cons s rest ih =>
    rw [stepsPlan, steps]
    cases s.resolve scope with
    | error e => rfl
    | ok resolved =>
      simp only [Plan.run, run_separatedPlan, ih]

theorem run_atomPlan (a : Atom ρ) :
    (atomPlan plan a).run mode = atom mode (fun a => (plan a).run mode) a := by
  cases a with
  | step s => exact run_stepPlan mode plan s
  | value v =>
    cases v with
    | traversal t =>
      show (traversalPlan plan t).run mode = traversal _ t
      rw [traversalPlan, traversal, Plan.run, run_stepsPlan]
      rfl
    | _ => rfl

end Run

section Every

variable {onEnter : Invocation ρ → Prop} {onFail : Error → Prop} {plan : Atom ρ → Plan ρ}

theorem every_separatedPlan {atoms : List (Atom ρ)}
    (h : ∀ a ∈ atoms, (plan a).Every onEnter onFail) (mark : String) (separate : Bool) :
    (separatedPlan plan mark separate atoms).Every onEnter onFail := by
  induction atoms generalizing separate with
  | nil => trivial
  | cons a rest ih =>
    rcases List.forall_mem_cons.mp h with ⟨hfirst, hrest⟩
    refine ⟨?_, hfirst, ih hrest true⟩
    split <;> trivial

theorem every_stepPlan {s : Step ρ}
    (h : ∀ v ∈ s.parameters, (plan (.value v)).Every onEnter onFail) :
    (stepPlan plan s).Every onEnter onFail :=
  ⟨trivial, trivial, every_separatedPlan (List.forall_mem_map.mpr h) ", " false, trivial⟩

theorem every_stepsPlan {scope : Scope} {raw : List (Step ρ)}
    (h : ∀ s ∈ raw, ∀ rs, s.resolve scope = .ok rs → ∀ r ∈ rs,
      (plan (.step r)).Every onEnter onFail)
    (hfail : ∀ s ∈ raw, ∀ e, s.resolve scope = .error e → onFail e) (separate : Bool) :
    (stepsPlan plan scope separate raw).Every onEnter onFail := by
  induction raw generalizing separate with
  | nil => trivial
  | cons s rest ih =>
    rcases List.forall_mem_cons.mp h with ⟨hfirst, hrest⟩
    rcases List.forall_mem_cons.mp hfail with ⟨hfails, hothers⟩
    rw [stepsPlan]
    cases hresolve : s.resolve scope with
    | error e => exact hfails e hresolve
    | ok resolved =>
      have hresolved := hfirst resolved hresolve
      exact ⟨every_separatedPlan (List.forall_mem_map.mpr hresolved) "." separate,
        ih hrest hothers _⟩

/-- The encoder adds nothing to what holds in the plans for parts but names without meaning. -/
theorem every_atomPlan (h : ∀ a, (plan a).Every onEnter onFail)
    (hunknown : ∀ e : Error, e.IsUnknown → onFail e) (a : Atom ρ) :
    (atomPlan plan a).Every onEnter onFail := by
  cases a with
  | step s => exact every_stepPlan fun v _ => h (.value v)
  | value v =>
    cases v with
    | traversal t =>
      refine ⟨trivial, every_stepsPlan (fun _ _ _ _ r _ => h (.step r)) ?_ _⟩
      intro s _ e hresolve
      exact hunknown e (Step.isUnknown_of_resolve hresolve)
    | member m => exact hunknown _ ⟨_, rfl⟩
    | elementType name => exact hunknown _ ⟨_, rfl⟩
    | _ => trivial

end Every

end Encoding

/-! ## Plans of dispatching -/

namespace Dispatch

/-- The plan of a chain of rules for an atom, where `restart` plans for an atom that is dispatched
along a path and at a depth. -/
def proceedPlan (mode : Mode) (restart : List Hop → Nat → Atom ρ → Plan ρ) (depth : Nat) :
    (path : List Hop) → List (Rule ρ) → Atom ρ → Plan ρ
  | path, [], atom =>
    .enter ⟨path, depth, none, atom⟩
      (Encoding.atomPlan (restart (path ++ [.dispatch]) depth) atom)
  | path, rule :: below, atom =>
    let chain : Plan.Chain ρ :=
      { depth
        overridden := proceedPlan mode restart depth (path ++ [.overridden]) below
        recurse := fun a =>
          if maxDepth < depth + 1 then .fail (.serializationLoop (depth + 1))
          else restart (path ++ [.recurse]) (depth + 1) a
        dispatch := restart (path ++ [.dispatch]) depth }
    .enter ⟨path, chain.depth, some rule, atom⟩ (rule.plan mode chain atom)

/-- The plan of a dispatch with some room left for nested ones. -/
def plan (d : Dialect ρ) (mode : Mode) : (room : Nat) → (path : List Hop) → (depth : Nat) →
    Atom ρ → Plan ρ
  | 0, _, _, _ => .fail (.serializationLoop (maxNesting + 1))
  | room + 1, path, depth, atom =>
    proceedPlan mode (plan d mode room) depth path (d.chain atom.tag) atom

theorem run_proceedPlan {mode : Mode} {restart : List Hop → Nat → Atom ρ → Plan ρ}
    {pass : Nat → Atom ρ → Pass}
    (h : ∀ path depth a, (restart path depth a).run mode = pass depth a) (depth : Nat)
    (path : List Hop) (rules : List (Rule ρ)) (atom : Atom ρ) :
    (proceedPlan mode restart depth path rules atom).run mode =
      proceed mode pass depth rules atom := by
  -- for all paths, since a rule hands on along a longer one
  induction rules generalizing path atom with
  | nil =>
    rw [proceedPlan, proceed, Plan.run, Encoding.run_atomPlan]
    simp only [h]
  | cons rule below ih =>
    rw [proceedPlan, proceed, Plan.run, Rule.run_plan]
    simp only [Plan.Chain.run, ih, h]
    congr 2
    funext a
    split
    · rfl
    · exact h _ _ _

/-- A dispatch does what its plan does when it is run. -/
theorem run_plan (d : Dialect ρ) (mode : Mode) (room : Nat) (path : List Hop) (depth : Nat)
    (atom : Atom ρ) :
    (plan d mode room path depth atom).run mode = within d mode room depth atom := by
  induction room generalizing path depth atom with
  | zero => rfl
  | succ room ih => exact run_proceedPlan ih depth path (d.chain atom.tag) atom

end Dispatch

namespace Dialect

/-- The plan of compiling a traversal. -/
def plan (d : Dialect ρ) (t : Traversal ρ) (inlined : Bool) : Plan ρ :=
  Dispatch.plan d ⟨inlined, t.environment.options⟩ (Dispatch.maxNesting + 1) [] 0
    (.value (.traversal t))

/-- Those who come to work when a traversal is compiled, in order. -/
def invocations (d : Dialect ρ) (t : Traversal ρ) (inlined : Bool) : List (Invocation ρ) :=
  (d.plan t inlined).trace ⟨inlined, t.environment.options⟩ {}

end Dialect

end Gremlin
