import Gremlin.Bytecode
import Gremlin.Script.Stock
import Gremlin.Traversal

/-!
# Pipelines

A pipeline makes of a traversal the request to send, and has the request answered with results and
errors. What runs need of it are these two functions, and pipelines of any kind that have them will
do (`Backend`). The kind at hand pairs a serializer with an executor. A server is not modelled:
an executor is what it answers to a request.

Running a traversal hands at most one request to the executor, and none if serializing fails.
What was handed over is part of the outcome of a run.
-/

namespace Gremlin

/-! ## Serializers -/

/-- What an executor is handed. -/
inductive Request where
  | nothing
  | script (s : Script)
  | bytecode (code : Bytecode)

/-- How the pipelines at hand make traversals into requests. -/
inductive Serializer (ρ : Type) where
  /-- Refuses every traversal, until another one is configured. -/
  | unconfigured
  /-- Makes the empty request of every traversal. -/
  | unit
  | script (dialect : Dialect ρ)
  | bytecode

namespace Serializer

variable {ρ : Type}

def name : Serializer ρ → String
  | unconfigured => "invalid"
  | unit => "unit"
  | script _ => "groovy"
  | bytecode => "bytecode"

/-- The request for a traversal; the options of its environment say whether a script binds its
literals. -/
def serialize (serializer : Serializer ρ) (t : Traversal ρ) : Except Error Request :=
  match serializer with
  | unconfigured => .error .unconfiguredSerializer
  | unit => .ok .nothing
  | script dialect => (dialect.compile t t.environment.options.inlineParameters).map .script
  | bytecode => t.bytecode.map .bytecode

end Serializer

/-! ## Executors -/

/-- One item of an answer. -/
inductive Reply where
  | result (json : Json)
  | error (e : Error)

namespace Reply

/-- The transport failed while it answered. -/
def failure (detail : String) : Reply := .error (.transport detail)

end Reply

/-- What answers requests. -/
structure Executor where
  name : String
  /-- The replies to a request. -/
  execute : Request → Except Error (List Reply)
  /-- The executor keeps a record of what it is handed. -/
  keepsRecord : Bool

namespace Executor

/-- Refuses every request, until another one is configured. -/
def unconfigured : Executor := ⟨"invalid", fun _ => .error .unconfiguredExecutor, false⟩

/-- Answers nothing. -/
def empty : Executor := ⟨"empty", fun _ => .ok [], false⟩

/-- Answers every request with the same replies. -/
def replay (replies : List Reply) : Executor := ⟨"replay", fun _ => .ok replies, true⟩

/-- Has a transport that fails on every request. -/
def broken (detail : String) : Executor :=
  ⟨"replay", fun _ => .error (.transport detail), true⟩

end Executor

/-! ## Pipelines -/

/-- A serializer with the executor that takes its requests. -/
structure Pipeline where
  serializer : Serializer Pipeline
  executor : Executor

namespace Pipeline

/-- Fails at the first step of every run. -/
def unconfigured : Pipeline := ⟨.unconfigured, .unconfigured⟩

/-- Takes every traversal and answers nothing. -/
def empty : Pipeline := ⟨.unit, .empty⟩

instance : Inhabited Pipeline := ⟨unconfigured⟩

/-- The pipeline with the given parts replaced. -/
def adjust (p : Pipeline) (serializer : Option (Serializer Pipeline))
    (executor : Option Executor) : Pipeline :=
  ⟨serializer.getD p.serializer, executor.getD p.executor⟩

def debug (p : Pipeline) : String :=
  Text.debugRecord "ExecutionPipeline"
    [("serializer", Text.debugString p.serializer.name),
     ("executor", Text.debugString p.executor.name)]

end Pipeline

/-! ## Runs -/

/-- What runs need of the pipelines of a kind. -/
class Backend (ρ : Type) where
  /-- The request for a traversal. -/
  serialize : (pipeline : ρ) → Traversal ρ → Except Error Request
  /-- The replies to a request. -/
  execute : (pipeline : ρ) → Request → Except Error (List Reply)

instance : Backend Pipeline where
  serialize p t := p.serializer.serialize t
  execute p request := p.executor.execute request

/-- What became of a run, and what the executor was handed. -/
structure Run (α : Type) where
  outcome : Except Error α
  requests : List Request

/-- The same run with its answer looked at. -/
def Run.andThen {α β : Type} (run : Run α) (look : α → Except Error β) : Run β :=
  ⟨run.outcome.bind look, run.requests⟩

namespace Reply

/-- All results, or the first error. -/
def all : List Reply → Except Error (List Json)
  | [] => .ok []
  | error e :: _ => .error e
  | result json :: rest => do return json :: (← all rest)

/-- The first result or error, if there is any. -/
def first? : List Reply → Except Error (Option Json)
  | [] => .ok none
  | error e :: _ => .error e
  | result json :: _ => .ok (some json)

end Reply

variable {ρ : Type}

namespace Backend

variable [Backend ρ]

/-- Serializes a traversal and hands the request to the executor. -/
def run (pipeline : ρ) (t : Traversal ρ) : Run (List Reply) :=
  match serialize pipeline t with
  | .error e => ⟨.error e, []⟩
  | .ok request => ⟨execute pipeline request, [request]⟩

end Backend

namespace Traversal

/-- The traversal cut off after one result. -/
def limitedToOne (t : Traversal ρ) : Building (Traversal ρ) := t.addStep (.limit 1)

variable [Backend ρ]

/-- Runs the traversal through the pipeline of its environment. -/
def execute (t : Traversal ρ) : Run (List Reply) := Backend.run t.environment.pipeline t

/-- All results. -/
def toList (t : Traversal ρ) : Run (List Json) := t.execute.andThen Reply.all

/-- The first result, if there is one. -/
def first? (t : Traversal ρ) : Building (Run (Option Json)) := do
  return (← t.limitedToOne).execute.andThen Reply.first?

/-- The first result; an empty answer is an error. -/
def first (t : Traversal ρ) : Building (Run Json) := do
  return (← t.first?).andThen fun
    | some json => .ok json
    | none => .error .emptyResult

end Traversal

end Gremlin
