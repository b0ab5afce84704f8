import Gremlin.Source

/-!
# Starts

What a start operation on a source does, in equations. The strategies that are not excluded are
applied one after another, and the ledger notes their names:

* `Strategy.applyAll_eq`: applying strategies is preparing a traversal by those that are left;
* `Source.build_eq`: the start traversal is the prepared bare traversal;
* `Source.begin_of_started`, `Source.begin_of_dormant`: what a start operation gives, once the
  start traversal is there and before.
-/

namespace Gremlin

namespace Strategy

/-- Takes a traversal through strategies, the first one first. -/
def prepare (strategies : List Strategy) (t : Traversal Pipeline) :
    Building (Traversal Pipeline) :=
  strategies.foldlM (fun t strategy => strategy.effect.apply t) t

/-- The strategies that are not excluded, in order. -/
def remaining (excluded : Std.TreeSet String) (strategies : List Strategy) : List Strategy :=
  strategies.filter fun strategy => !excluded.contains strategy.name

theorem prepare_cons (strategy : Strategy) (rest : List Strategy) (t : Traversal Pipeline)
    (supply : Supply) :
    prepare (strategy :: rest) t supply =
      prepare rest (strategy.effect.apply t supply).1 (strategy.effect.apply t supply).2 := rfl

/-- Excluded strategies are passed over; the others are applied and noted. -/
theorem applyAll_eq (excluded : Std.TreeSet String) (strategies : List Strategy)
    (t : Traversal Pipeline) (ledger : Ledger) :
    applyAll excluded t strategies ledger =
      ((prepare (remaining excluded strategies) t ledger.supply).1,
        ⟨(prepare (remaining excluded strategies) t ledger.supply).2,
          ledger.applied ++ (remaining excluded strategies).map (·.name)⟩) := by
  induction strategies generalizing t ledger with
  | nil =>
    have hremaining : remaining excluded [] = [] := rfl
    rw [hremaining, List.map_nil, List.append_nil]
    rfl
  | cons strategy rest ih =>
    by_cases hexcluded : excluded.contains strategy.name = true
    · -- the strategy is passed over
      have hremaining : remaining excluded (strategy :: rest) = remaining excluded rest := by
        simp [remaining, hexcluded]
      rw [applyAll, if_pos hexcluded, hremaining]
      exact ih t ledger
    · have hremaining :
          remaining excluded (strategy :: rest) = strategy :: remaining excluded rest := by
        simp [remaining, hexcluded]
      rw [applyAll, if_neg hexcluded, hremaining]
      have happly := ih (strategy.effect.apply t ledger.supply).1
        ⟨(strategy.effect.apply t ledger.supply).2, ledger.applied ++ [strategy.name]⟩
      rw [prepare_cons, List.map_cons, List.append_cons]
      exact happly

end Strategy

namespace Source

/-- The names of excluded strategies are told to the server, if there are any. -/
theorem bare_eq (s : Source) (supply : Supply) :
    s.bare supply =
      if s.excluded.isEmpty then Traversal.create s.name s.environment supply
      else (Traversal.create s.name s.environment supply).1.addStep
        (.withoutStrategies s.excluded.toList)
        (Traversal.create s.name s.environment supply).2 := by
  unfold bare
  by_cases hempty : s.excluded.isEmpty = true
  · simp only [hempty, if_true]
    rfl
  · simp only [hempty]
    rfl

/-- The start traversal, as far as it draws on the supply. -/
def prepared (s : Source) : Building (Traversal Pipeline) := fun supply =>
  let (t, supply) := s.bare supply
  Strategy.prepare (Strategy.remaining s.excluded s.strategies) t supply

/-- Building the start traversal notes the strategies that are not excluded. -/
theorem build_eq (s : Source) (ledger : Ledger) :
    s.build ledger =
      ((s.prepared ledger.supply).1, ⟨(s.prepared ledger.supply).2,
        ledger.applied ++ (Strategy.remaining s.excluded s.strategies).map (·.name)⟩) := by
  have hbuild : s.build ledger = Strategy.applyAll s.excluded (s.bare ledger.supply).1 s.strategies
      ⟨(s.bare ledger.supply).2, ledger.applied⟩ := rfl
  rw [hbuild, Strategy.applyAll_eq]
  rfl

section Begin

variable {s : Source} {opening : Opening} (ledger : Ledger)

/-- An opening that cannot be made leaves everything as it was. -/
theorem begin_of_error {e : Error} (h : opening.steps = .error e) :
    s.begin opening ledger = (.error e, ledger) := by
  unfold begin
  rw [h]

/-- Once the start traversal is there, the steps of the opening are appended to it. -/
theorem begin_of_started {steps : List (Step Pipeline)} {t : Traversal Pipeline}
    (h : opening.steps = .ok steps) (hstarted : s.started = some t) :
    s.begin opening ledger =
      (.ok ((t.addSteps steps ledger.supply).1, s),
        ⟨(t.addSteps steps ledger.supply).2, ledger.applied⟩) := by
  have hstart : s.start ledger = ((t, s), ledger) := by
    unfold start
    rw [hstarted]
    rfl
  unfold begin
  rw [h, hstart]
  rfl

/-- The first opening that can be made builds the start traversal, and the source keeps it. -/
theorem begin_of_dormant {steps : List (Step Pipeline)} (h : opening.steps = .ok steps)
    (hdormant : s.started = none) :
    s.begin opening ledger =
      (.ok (((s.prepared ledger.supply).1.addSteps steps (s.prepared ledger.supply).2).1,
          { s with started := some (s.prepared ledger.supply).1 }),
        ⟨((s.prepared ledger.supply).1.addSteps steps (s.prepared ledger.supply).2).2,
          ledger.applied ++ (Strategy.remaining s.excluded s.strategies).map (·.name)⟩) := by
  have hstart : s.start ledger =
      (((s.build ledger).1, { s with started := some (s.build ledger).1 }),
        (s.build ledger).2) := by
    unfold start
    rw [hdormant]
    rfl
  unfold begin
  rw [h, hstart, build_eq]
  rfl

end Begin

end Source

end Gremlin
