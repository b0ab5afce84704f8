import Gremlin.Proofs.Starts

/-!
# Lines of sources

A source has a line: the changes that led to it from the source with nothing configured. Its
configuration can be read off the line alone, and so can its start traversal:

* `Source.exists_changed`, `Source.Changed.follows`: a change that is not refused leads to a source
  whose line is longer by the change;
* `Source.Follows.prepared_eq`: the start traversal of a source is the one of its line.
-/

namespace Gremlin

namespace Source.Change

/-- The name that a change sets. -/
def name? : Change → Option String
  | rename name => some name
  | configure settings => some settings.name
  | _ => none

/-- The error of a change that is refused: it would set a blank name. -/
def refusal? (c : Change) : Option Error :=
  (c.name?.filter Text.allBlank).map .invalidSourceName

/-- The model after a change. -/
def onModel (model : Model) : Change → Model
  | configureModel update => update model
  | _ => model

/-- The options after a change. -/
def onOptions (options : Options) : Change → Options
  | configureOptions update => update options
  | configure settings => settings.options
  | _ => options

/-- The pipeline after a change. -/
def onPipeline (pipeline : Pipeline) : Change → Pipeline
  | configurePipeline update => update pipeline
  | _ => pipeline

/-- The strategies that a change adds. -/
def added : Change → List Strategy
  | addStrategies strategies => strategies
  | _ => []

/-- The names of strategies that a change removes. -/
def removed : Change → List String
  | exclude names => names
  | configure settings => settings.excluded
  | _ => []

end Source.Change

/-- Changes that lead to a source, the first one first. -/
abbrev Line := List Source.Change

namespace Line

/-- The name that was set last. -/
def name (line : Line) : String := (line.filterMap Source.Change.name?).getLastD "g"

/-- The model, the options and the pipeline that were set last. -/
def environment (line : Line) : Environment Pipeline :=
  ⟨line.foldl Source.Change.onModel .dynamic, line.foldl Source.Change.onOptions {},
    line.foldl Source.Change.onPipeline .unconfigured⟩

/-- The strategies that were added, in order. -/
def strategies (line : Line) : List Strategy := line.flatMap Source.Change.added

/-- All names of strategies that were removed, as they were given. -/
def removed (line : Line) : List String := line.flatMap Source.Change.removed

/-- The strategies that were not removed, before they were added or after. -/
def remaining (line : Line) : List Strategy :=
  line.strategies.filter fun strategy => strategy.name ∉ line.removed

/-- The names are those that were removed, each once and in ascending order. -/
structure Excludes (line : Line) (names : List String) : Prop where
  ascending : names.Pairwise (· < ·)
  mem_iff : ∀ name, name ∈ names ↔ name ∈ line.removed

/-- The start traversal of a line: no steps on its name and in its environment, then the names
that were removed if there are any, then the strategies that were not. -/
def start (line : Line) (names : List String) : Building (Traversal Pipeline) := fun supply =>
  let (t, supply) := Traversal.create line.name line.environment supply
  let (t, supply) := t.addSteps (if names = [] then [] else [.withoutStrategies names]) supply
  Strategy.prepare line.remaining t supply

theorem name_append (line : Line) (c : Source.Change) :
    name (line ++ [c]) = c.name?.getD line.name := by
  unfold name
  rw [List.filterMap_append]
  cases hname : c.name? <;> simp [hname]

end Line

namespace Source

/-- The configuration of the source is the one of the line. -/
structure Follows (s : Source) (line : Line) : Prop where
  name : s.name = line.name
  environment : s.environment = line.environment
  strategies : s.strategies = line.strategies
  excluded : ∀ name, name ∈ s.excluded ↔ name ∈ line.removed

variable {s : Source} {line : Line} {c : Change}

theorem follows_nil : Follows {} [] := by
  refine ⟨rfl, rfl, rfl, ?_⟩
  intro name
  simp [Line.removed]

/-- A change that is refused gives its error. -/
theorem change_of_refusal {e : Error} (h : c.refusal? = some e) : s.change c = .error e := by
  have hname : ∀ name, c.name? = some name →
      Text.allBlank name = true ∧ e = .invalidSourceName name := by
    intro name hname
    simp only [Change.refusal?, hname, Option.filter] at h
    split at h
    · rename_i hblank
      injection h with h
      exact ⟨hblank, h.symm⟩
    · contradiction
  cases c with
  | rename name =>
    obtain ⟨hblank, he⟩ := hname name rfl
    rw [change, rename, if_pos hblank, he]
  | configure settings =>
    obtain ⟨hblank, he⟩ := hname settings.name rfl
    rw [change, rename, if_pos hblank, he]
    rfl
  | _ => contradiction

/-- What a change makes of a source; nothing is started from what it makes. -/
structure Changed (s : Source) (c : Change) (s' : Source) : Prop where
  name : s'.name = c.name?.getD s.name
  environment : s'.environment = ⟨c.onModel s.environment.model, c.onOptions s.environment.options,
    c.onPipeline s.environment.pipeline⟩
  strategies : s'.strategies = s.strategies ++ c.added
  excluded : ∀ name, name ∈ s'.excluded ↔ name ∈ s.excluded ∨ name ∈ c.removed
  started : s'.started = none

/-- A change that is not refused is made. -/
theorem exists_changed (s : Source) (h : c.refusal? = none) :
    ∃ s', s.change c = .ok s' ∧ s.Changed c s' := by
  have hname : ∀ name, c.name? = some name → ¬ Text.allBlank name = true := by
    intro name hname hblank
    simp [Change.refusal?, hname, hblank] at h
  have hinsert : ∀ (names : List String) (name : String), name ∈ s.excluded.insertMany names ↔
      name ∈ s.excluded ∨ name ∈ names := by
    intro names name
    rw [Std.TreeSet.mem_insertMany_list, List.contains_iff_mem]
  have hkeep : ∀ name, name ∈ s.excluded ↔ name ∈ s.excluded ∨ name ∈ ([] : List String) := by
    simp
  cases c with
  | rename name =>
    refine ⟨{ s.fresh with name }, ?_, rfl, rfl, (List.append_nil _).symm, hkeep, rfl⟩
    rw [change, rename, if_neg (hname name rfl)]
  | configure settings =>
    refine ⟨({ s.fresh with name := settings.name }.useOptions settings.options).exclude
      settings.excluded, ?_, rfl, rfl, (List.append_nil _).symm, hinsert settings.excluded, rfl⟩
    rw [change, rename, if_neg (hname settings.name rfl)]
    rfl
  | exclude names =>
    exact ⟨_, rfl, rfl, rfl, (List.append_nil _).symm, hinsert names, rfl⟩
  | addStrategies strategies => exact ⟨_, rfl, rfl, rfl, rfl, hkeep, rfl⟩
  | _ => exact ⟨_, rfl, rfl, rfl, (List.append_nil _).symm, hkeep, rfl⟩

theorem Changed.follows {s' : Source} (h : s.Changed c s') (hs : s.Follows line) :
    s'.Follows (line ++ [c]) := by
  refine ⟨?_, ?_, ?_, ?_⟩
  · rw [Line.name_append, ← hs.name]
    exact h.name
  · rw [h.environment, hs.environment]
    simp [Line.environment, List.foldl_append]
  · rw [h.strategies, hs.strategies]
    simp [Line.strategies]
  · intro name
    rw [h.excluded, hs.excluded]
    simp [Line.removed]

/-- The strategies that a source applies are those of its line. -/
theorem Follows.remaining_eq (hs : s.Follows line) :
    Strategy.remaining s.excluded s.strategies = line.remaining := by
  unfold Strategy.remaining Line.remaining
  rw [hs.strategies]
  apply List.filter_congr
  intro strategy _
  have hcontains : s.excluded.contains strategy.name = true ↔ strategy.name ∈ line.removed := by
    rw [← hs.excluded]
    exact Std.TreeSet.contains_iff_mem
  rw [Bool.eq_iff_iff, Bool.not_eq_true', ← Bool.not_eq_true, hcontains, decide_eq_true_iff]

/-- The start traversal of a source is the one of its line. -/
theorem Follows.prepared_eq (hs : s.Follows line) :
    line.Excludes s.excluded.toList ∧ s.prepared = line.start s.excluded.toList := by
  constructor
  · constructor
    · exact ascending_toList s.excluded
    · intro name
      rw [Std.TreeSet.mem_toList]
      exact hs.excluded name
  · funext supply
    have hbare : s.bare supply =
        (Traversal.create line.name line.environment supply).1.addSteps
          (if s.excluded.toList = [] then [] else [.withoutStrategies s.excluded.toList])
          (Traversal.create line.name line.environment supply).2 := by
      rw [bare_eq, hs.name, hs.environment]
      by_cases hempty : s.excluded.isEmpty = true
      · have hnil : s.excluded.toList = [] := by
          rwa [← Std.TreeSet.isEmpty_toList, List.isEmpty_iff] at hempty
        rw [if_pos hempty, if_pos hnil]
        rfl
      · have hnil : s.excluded.toList ≠ [] := by
          rwa [← Std.TreeSet.isEmpty_toList, List.isEmpty_iff] at hempty
        rw [if_neg hempty, if_neg hnil]
        rfl
    unfold prepared Line.start
    rw [hbare, hs.remaining_eq]
    rfl

end Source

end Gremlin
