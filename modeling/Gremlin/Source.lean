import Gremlin.Pipeline
import Gremlin.Settings
import Gremlin.Text.Blank
import Gremlin.Traversal.Program

/-!
# Query sources

A source is the configuration that traversals start from: the name of the graph, the
environment, the strategies that every start goes through, and the names of those to do without.
Configuring gives a new source.

A source builds its start traversal when it is first needed and keeps it, so that everything
started from one source shares one prefix and one family. A source made from another one, even
a plain copy, builds its own.
-/

namespace Gremlin

/-- What becomes of the traversal that a strategy is given. -/
structure Strategy.Effect where
  apply : Traversal Pipeline → Building (Traversal Pipeline)

/-- A named step of preparation that start traversals go through. -/
structure Strategy where
  name : String
  effect : Strategy.Effect

/-- The configuration that traversals start from. -/
structure Source where
  name : String := "g"
  environment : Environment Pipeline := default
  strategies : List Strategy := []
  excluded : Std.TreeSet String := ∅
  /-- The start traversal, once it is built. -/
  started : Option (Traversal Pipeline) := none
deriving Inhabited

/-- What starting from sources draws on and leaves behind. -/
structure Ledger where
  supply : Supply := {}
  /-- The names of the strategies that were applied, in order. -/
  applied : List String := []
deriving Inhabited

namespace Strategy

/-- The effect of a program. One that fails leaves the traversal as it was. Names kept by the
program are its own. -/
def Effect.ofProgram (program : List (Call Pipeline)) : Effect := ⟨fun t supply =>
  let (outcome, bench) := Call.runAll (fun _ => none) t program { supply }
  match outcome with
  | .ok t => (t, bench.supply)
  | .error _ => (t, bench.supply)⟩

instance : Coe (List (Call Pipeline)) Effect := ⟨Effect.ofProgram⟩

/-- Applies a strategy. -/
def apply (strategy : Strategy) (t : Traversal Pipeline) : StateM Ledger (Traversal Pipeline) :=
  fun ledger =>
    let (t, supply) := strategy.effect.apply t ledger.supply
    (t, ⟨supply, ledger.applied ++ [strategy.name]⟩)

/-- Applies strategies in order, except those that are excluded. -/
def applyAll (excluded : Std.TreeSet String) (t : Traversal Pipeline) :
    List Strategy → StateM Ledger (Traversal Pipeline)
  | [] => return t
  | strategy :: rest => do
    if excluded.contains strategy.name then applyAll excluded t rest
    else applyAll excluded (← strategy.apply t) rest

end Strategy

/-- A change of configuration. -/
inductive Source.Change where
  /-- Changes nothing. -/
  | copy
  | rename (name : String)
  | configureModel (configure : Model → Model)
  | configureOptions (configure : Options → Options)
  | configurePipeline (configure : Pipeline → Pipeline)
  | addStrategies (strategies : List Strategy)
  /-- Does without strategies, on the server and here. -/
  | exclude (names : List String)
  | configure (settings : Settings)

namespace Source.Change

def useModel (model : Model) : Change := configureModel fun _ => model

/-- Sets the given flags. -/
def adjustOptions (inlineParameters omitSingle : Option Bool) : Change :=
  configureOptions fun o => o.adjust inlineParameters omitSingle

/-- Replaces the given parts of a pipeline, or else of the present one. -/
def adjustPipeline (base : Option Pipeline) (serializer : Option (Serializer Pipeline))
    (executor : Option Executor) : Change :=
  configurePipeline fun p => (base.getD p).adjust serializer executor

end Source.Change

namespace Source

/-- The same configuration with nothing started. -/
def fresh (s : Source) : Source := { s with started := none }

/-- The source under another name, which must not be blank. -/
def rename (s : Source) (name : String) : Except Error Source :=
  if Text.allBlank name then .error (.invalidSourceName name)
  else .ok { s.fresh with name }

def useOptions (s : Source) (options : Options) : Source :=
  { s.fresh with environment := { s.environment with options } }

def usePipeline (s : Source) (pipeline : Pipeline) : Source :=
  { s.fresh with environment := { s.environment with pipeline } }

def useModel (s : Source) (model : Model) : Source :=
  { s.fresh with environment := { s.environment with model } }

def exclude (s : Source) (names : List String) : Source :=
  { s.fresh with excluded := s.excluded.insertMany names }

/-- The source with a change of its configuration. -/
def change (s : Source) : Change → Except Error Source
  | .copy => .ok s.fresh
  | .rename name => s.rename name
  | .configureModel configure => .ok (s.useModel (configure s.environment.model))
  | .configureOptions configure => .ok (s.useOptions (configure s.environment.options))
  | .configurePipeline configure => .ok (s.usePipeline (configure s.environment.pipeline))
  | .addStrategies strategies =>
    .ok { s.fresh with strategies := s.strategies ++ strategies }
  | .exclude names => .ok (s.exclude names)
  | .configure settings => do
    let named ← s.rename settings.name
    return (named.useOptions settings.options).exclude settings.excluded

def debug (s : Source) : String :=
  Text.debugOpenRecord "QuerySource"
    [("name", Text.debugString s.name),
     ("environment", s.environment.debug),
     ("strategies", Text.debugList (s.strategies.map fun g => Text.debugString g.name)),
     ("excluded", Text.debugSet (s.excluded.toList.map Text.debugString))]

/-! ## Starting -/

/-- The traversal that strategies are applied to: the graph alone, without the excluded strategies
on the server. -/
def bare (s : Source) : Building (Traversal Pipeline) := do
  let t ← Traversal.create s.name s.environment
  if s.excluded.isEmpty then return t
  else t.addStep (.withoutStrategies s.excluded.toList)

/-- Builds a start traversal and takes it through the strategies that are not excluded. -/
def build (s : Source) : StateM Ledger (Traversal Pipeline) := fun ledger =>
  let (t, supply) := s.bare ledger.supply
  Strategy.applyAll s.excluded t s.strategies { ledger with supply }

/-- The start traversal, built now if it is not there yet, and the source that has it. -/
def start (s : Source) : StateM Ledger (Traversal Pipeline × Source) := do
  match s.started with
  | some t => return (t, s)
  | none =>
    let t ← s.build
    return (t, { s with started := some t })

/-- How a traversal is started. -/
inductive Opening where
  /-- By one step. -/
  | step (s : Step Pipeline)
  /-- By finding the vertex of an entity and overwriting its properties. -/
  | replaceV (vertex : Entity Pipeline)
  /-- By finding the edge of an entity and overwriting its properties. -/
  | replaceE (edge : Entity Pipeline)

/-- The steps that find the element of an entity and overwrite its properties. -/
def replacement (byId : List (Value Pipeline) → Step Pipeline) (e : Entity Pipeline) :
    Except Error (List (Step Pipeline)) :=
  match e.id? with
  | some id => .ok [byId [id], .ofType e.typeName, .update e]
  | none => .error (.missingIdentifier e.typeName)

/-- The steps of an opening. -/
def Opening.steps : Opening → Except Error (List (Step Pipeline))
  | .step s => .ok [s]
  | .replaceV vertex => replacement .v vertex
  | .replaceE edge => replacement .e edge

/-- Starts a traversal. An opening that cannot be made does not build the start traversal. -/
def begin (s : Source) (opening : Opening) :
    StateM Ledger (Except Error (Traversal Pipeline × Source)) := fun ledger =>
  match opening.steps with
  | .error e => (.error e, ledger)
  | .ok steps =>
    let ((t, s), ledger) := s.start ledger
    let (t, supply) := t.addSteps steps ledger.supply
    (.ok (t, s), { ledger with supply })

end Source

end Gremlin
