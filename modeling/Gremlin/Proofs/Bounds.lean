import Gremlin.Proofs.Plan
import Mathlib.Logic.Function.Iterate

/-!
# The bounds on dispatching

Programs may hand on anything, the atom at hand included, as often as they like. Two bounds keep
every compilation finite all the same: a path of calls has at most `maxDepth` substitutions and at
most `maxNesting` dispatches. Each of the two is checked when a call is made, so the invariant of
a path is that it is within both, and that the depth reported at its end is the number of its
substitutions.

* `Dispatch.iterate_unroll`: dispatching unrolls to nothing but finitely many nested calls;
* `Dispatch.every_plan`: all who may come to work are within the bounds;
* `Dialect.compile_bounded`: both for whole compilations, with the errors that the bounds give.
-/

namespace Gremlin

variable {ρ : Type}

/-! ## Nothing is left of what would come after the bound -/

/-- The script that a pass on an empty output leads to. -/
def Pass.script (pass : Pass) : Except Error Script :=
  match pass {} with
  | (.ok (), o) => .ok o.script
  | (.error e, _) => .error e

namespace Dispatch

/-- One dispatch with `nesting` others under way above it, where `further` stands for those that
nest in it. -/
def unroll (d : Dialect ρ) (mode : Mode) (further : Nat → Nat → Atom ρ → Pass)
    (nesting depth : Nat) (atom : Atom ρ) : Pass :=
  if maxNesting < nesting then .fail (.serializationLoop nesting)
  else proceed mode (further (nesting + 1)) depth (d.chain atom.tag) atom

/-- Unrolled often enough, dispatching does not get to what is put in for further calls. -/
theorem iterate_unroll (d : Dialect ρ) (mode : Mode) (further : Nat → Nat → Atom ρ → Pass)
    {n nesting room : Nat} (hroom : nesting + room = maxNesting + 1) (hn : room < n)
    (depth : Nat) (atom : Atom ρ) :
    (unroll d mode)^[n] further nesting depth atom = within d mode room depth atom := by
  -- each call nests one deeper and has one room less
  induction room generalizing n nesting depth atom with
  | zero =>
    obtain ⟨n, rfl⟩ : ∃ m, n = m + 1 := ⟨n - 1, by omega⟩
    obtain rfl : nesting = maxNesting + 1 := hroom
    rw [Function.iterate_succ_apply', unroll, if_pos (Nat.lt_succ_self _), within]
  | succ room ih =>
    obtain ⟨n, rfl⟩ : ∃ m, n = m + 1 := ⟨n - 1, by omega⟩
    have hbound : ¬ maxNesting < nesting := by omega
    have hfurther : (unroll d mode)^[n] further (nesting + 1) = within d mode room := by
      funext depth atom
      exact ih (by omega) (by omega) depth atom
    rw [Function.iterate_succ_apply', unroll, if_neg hbound, within, hfurther]

end Dispatch

/-! ## Paths within the bounds -/

/-- The path is within both bounds, and the chain at hand reports its substitutions. -/
structure Invocation.IsBounded (i : Invocation ρ) : Prop where
  depth_eq : i.depth = i.path.count .recurse
  depth_le : i.depth ≤ Dispatch.maxDepth
  nesting_le : i.path.countP Hop.restarts ≤ Dispatch.maxNesting

/-- If the error reports too many calls, it reports one more than a bound allows. -/
def Error.IsBounded (e : Error) : Prop :=
  ∀ n, e = .serializationLoop n → n = Dispatch.maxDepth + 1 ∨ n = Dispatch.maxNesting + 1

theorem Error.IsUnknown.isBounded {e : Error} (h : e.IsUnknown) : e.IsBounded := by
  rcases h with ⟨identifier, rfl⟩
  intro n hn
  contradiction

theorem Error.isBounded_valueRange (context : String) (value max : Int64) :
    (Error.valueRange context value max).IsBounded := by
  intro n hn
  contradiction

namespace Dispatch

variable {mode : Mode}

/-- A chain within the bounds keeps to them if dispatching does one call further in. -/
theorem every_proceedPlan {restart : List Hop → Nat → Atom ρ → Plan ρ} {nesting : Nat}
    (hnesting : nesting ≤ maxNesting)
    (h : ∀ path depth a, depth = path.count .recurse → depth ≤ maxDepth →
      path.countP Hop.restarts = nesting + 1 →
      (restart path depth a).Every Invocation.IsBounded Error.IsBounded)
    {path : List Hop} {depth : Nat} (hdepth : depth = path.count .recurse)
    (hmax : depth ≤ maxDepth) (hpath : path.countP Hop.restarts = nesting)
    (rules : List (Rule ρ)) (atom : Atom ρ) :
    (proceedPlan mode restart depth path rules atom).Every Invocation.IsBounded
      Error.IsBounded := by
  have hdispatch : ∀ path, depth = path.count .recurse → path.countP Hop.restarts = nesting →
      ∀ a, (restart (path ++ [.dispatch]) depth a).Every Invocation.IsBounded
        Error.IsBounded := by
    intro path hdepth hpath a
    exact h _ depth a (by simp [hdepth]) hmax (by simp [hpath, Hop.restarts])
  -- for all paths, since handing on makes them longer without counting
  induction rules generalizing path atom with
  | nil =>
    refine ⟨⟨hdepth, hmax, Nat.le_trans (Nat.le_of_eq hpath) hnesting⟩, ?_⟩
    exact Encoding.every_atomPlan (hdispatch path hdepth hpath)
      (fun e he => he.isBounded) atom
  | cons rule below ih =>
    refine ⟨⟨hdepth, hmax, Nat.le_trans (Nat.le_of_eq hpath) hnesting⟩, ?_⟩
    apply Rule.every_plan _ Error.isBounded_valueRange
    constructor
    · intro a
      exact ih (by simp [hdepth]) (by simp [hpath, Hop.restarts]) a
    · intro a
      by_cases hbound : maxDepth < depth + 1
      · -- the bound is passed by one
        simp only [if_pos hbound]
        intro n hn
        injection hn with hn
        omega
      · simp only [if_neg hbound]
        exact h _ (depth + 1) a (by simp [hdepth]) (by omega) (by simp [hpath, Hop.restarts])
    · exact hdispatch path hdepth hpath

/-- All who may come to work in a dispatch are within the bounds if its path is. -/
theorem every_plan (d : Dialect ρ) {room : Nat} {path : List Hop} {depth : Nat}
    (hdepth : depth = path.count .recurse) (hmax : depth ≤ maxDepth)
    (hroom : path.countP Hop.restarts + room = maxNesting + 1) (atom : Atom ρ) :
    (plan d mode room path depth atom).Every Invocation.IsBounded Error.IsBounded := by
  induction room generalizing path depth atom with
  | zero =>
    intro n hn
    injection hn with hn
    exact Or.inr hn.symm
  | succ room ih =>
    have hnesting : path.countP Hop.restarts ≤ maxNesting := by omega
    refine every_proceedPlan hnesting ?_ hdepth hmax rfl _ atom
    intro path' depth' a hdepth' hmax' hpath'
    exact ih hdepth' hmax' (by omega) a

end Dispatch

/-! ## Whole compilations -/

namespace Dialect

variable (d : Dialect ρ) (t : Traversal ρ) (inlined : Bool)

theorem every_plan : (d.plan t inlined).Every Invocation.IsBounded Error.IsBounded :=
  Dispatch.every_plan d (by simp) (by simp) (by simp) _

theorem compile_eq_run_plan :
    d.compile t inlined =
      ((d.plan t inlined).run ⟨inlined, t.environment.options⟩).script := by
  rw [plan, Dispatch.run_plan]
  rfl

theorem run_plan_of_compile_eq_error {e : Error} (h : d.compile t inlined = .error e) :
    ((d.plan t inlined).run ⟨inlined, t.environment.options⟩ {}).1 = .error e := by
  rw [compile_eq_run_plan, Pass.script] at h
  split at h
  · contradiction
  · rename_i hrun
    injection h with h
    rw [hrun, h]

/-- No dialect makes compiling loop, whatever programs its rules are. Unrolled 258 times, a
dispatch has no calls left that go further in. Compiling carries out a plan, and whoever comes to
work in it sees as the depth the number of substitutions on the path that led there, which is 64
at most, and has at most 256 dispatches and substitutions on that path. If compiling gives up, it
reports one more than one of the two bounds. -/
theorem compile_bounded :
    (∀ further, d.compile t inlined =
      ((Dispatch.unroll d ⟨inlined, t.environment.options⟩)^[258] further 0 0
        (.value (.traversal t))).script) ∧
    d.compile t inlined =
      ((d.plan t inlined).run ⟨inlined, t.environment.options⟩).script ∧
    (∀ i ∈ d.invocations t inlined,
      i.depth = i.path.count .recurse ∧ i.depth ≤ 64 ∧ i.path.countP Hop.restarts ≤ 256) ∧
    ∀ depth, d.compile t inlined = .error (.serializationLoop depth) →
      depth = 65 ∨ depth = 257 := by
  refine ⟨?_, d.compile_eq_run_plan t inlined, ?_, ?_⟩
  · intro further
    have hroom : 0 + (Dispatch.maxNesting + 1) = Dispatch.maxNesting + 1 := Nat.zero_add _
    rw [Dispatch.iterate_unroll d _ further hroom (by decide)]
    rfl
  · intro i hi
    have hbounded := (d.every_plan t inlined).trace {} i hi
    exact ⟨hbounded.depth_eq, hbounded.depth_le, hbounded.nesting_le⟩
  · intro depth h
    have herror := d.run_plan_of_compile_eq_error t inlined h
    exact (d.every_plan t inlined).error herror depth rfl

end Dialect

/-- All vertices. -/
def Traversal.vertices : Traversal Unit := ⟨"g", .push .empty 0 (Step.v []), default, 0, ∅⟩

namespace Dialect

/-- A dialect that hands the step `V` back to itself. -/
def circling (action : Action Unit) : Dialect Unit := ⟨[(.step "V", .any [action])]⟩

/-- A step put in its own place runs into the one bound, and a step that is made a part of itself
into the other, with as many dispatches on its path as there may be. -/
theorem compile_bounded_circling :
    (∃ depth, (circling (.recurse .self)).compile .vertices true =
      .error (.serializationLoop depth) ∧ (depth = 65 ∨ depth = 257)) ∧
    (∃ depth, (circling (.dispatch .self)).compile .vertices true =
      .error (.serializationLoop depth) ∧ (depth = 65 ∨ depth = 257)) ∧
    ∃ i ∈ (circling (.dispatch .self)).invocations .vertices true, i.path.length = 256 ∧
      i.depth = i.path.count .recurse ∧ i.depth ≤ 64 ∧ i.path.countP Hop.restarts ≤ 256 := by
  have hrecurse : (circling (.recurse .self)).compile .vertices true =
      .error (.serializationLoop 65) := by decide +kernel
  have hdispatch : (circling (.dispatch .self)).compile .vertices true =
      .error (.serializationLoop 257) := by decide +kernel
  have hdeepest : ∃ i ∈ (circling (.dispatch .self)).invocations .vertices true,
      i.path.length = 256 := by decide +kernel
  rcases compile_bounded (circling (.recurse .self)) .vertices true with ⟨_, _, _, hloops⟩
  rcases compile_bounded (circling (.dispatch .self)) .vertices true with
    ⟨_, _, hbounds, hloops'⟩
  rcases hdeepest with ⟨i, hi, hlength⟩
  exact ⟨⟨65, hrecurse, hloops 65 hrecurse⟩, ⟨257, hdispatch, hloops' 257 hdispatch⟩,
    i, hi, hlength, hbounds i hi⟩

end Dialect

end Gremlin
