import Gremlin.Source

/-!
# Sessions

A session keeps sources, traversals, labels and dialects under names, each sort apart from the
others, and carries out commands on them one after another. What is kept under a name never
changes; a command that succeeds may keep its result under a name, and one that fails keeps
nothing. Labels that were drawn before a failure stay drawn.
-/

namespace Gremlin

/-- What is kept under names, and what happened so far. -/
structure Session where
  ledger : Ledger := {}
  sources : Std.TreeMap String Source := ∅
  traversals : Std.TreeMap String (Traversal Pipeline) := ∅
  labels : Std.TreeMap String String := ∅
  dialects : Std.TreeMap String (Dialect Pipeline) := ∅
  /-- The requests that executors have a record of, in order. -/
  sent : List Request := []
deriving Inhabited

/-- Something that a command was to be given, unless it could not be made. -/
abbrev Made := Except Fault

namespace Session

/-- What is asked of a traversal that is run. -/
inductive Question where
  | all | first | first?

/-- One command. The name to keep a result under comes last and may be left out. -/
inductive Command where
  /-- Makes a source with nothing configured. -/
  | source (keepAs : Option String)
  | change (source : String) (change : Made Source.Change) (keepAs : Option String)
  | start (source : String) (opening : Made Source.Opening) (keepAs : Option String)
  /-- Makes a traversal without steps. -/
  | create (graph : String) (environment : Made (Environment Pipeline)) (keepAs : Option String)
  /-- Runs a program on a traversal. -/
  | call (traversal : String) (program : List (Call Pipeline)) (keepAs : Option String)
  | keep (dialect : Made (Dialect Pipeline)) (keepAs : Option String)
  /-- Draws a label from the family of a traversal. -/
  | draw (traversal : String)
  | ask (traversal : String) (question : Question)

/-- The answer to a command that succeeds. -/
inductive Answer where
  | done
  | source (s : Source)
  | traversal (t : Traversal Pipeline)
  | label (text : String)
  | results (items : List Json)
  | result (item : Json)
  | result? (item : Option Json)

/-- A computation on a session that may fail; what it did to the session stays. -/
abbrev Acting := ExceptT Fault (StateM Session)

/-- What is kept under a name. -/
def find {α : Type} (kept : Std.TreeMap String α) (name : String) : Made α :=
  match kept[name]? with
  | some a => .ok a
  | none => .error (.unset name)

/-- Keeps something under a name if there is one. -/
def keepAs {α : Type} (kept : Std.TreeMap String α) (name : Option String) (a : α) :
    Std.TreeMap String α :=
  match name with
  | some name => kept.insert name a
  | none => kept

/-- An error as a fault. -/
def checked {α : Type} : Except Error α → Made α
  | .ok a => .ok a
  | .error e => .error (.error e)

/-- Computes with the sources of a session. -/
def withLedger {α : Type} (x : StateM Ledger α) : Acting α := fun s =>
  let (a, ledger) := x s.ledger
  (.ok a, { s with ledger })

/-- Computes with the supply of a session. -/
def withSupply {α : Type} (x : Building α) : Acting α := fun s =>
  let (a, supply) := x s.ledger.supply
  (.ok a, { s with ledger := { s.ledger with supply } })

/-- Computes with the supply and the labels of a session. -/
def withBench {α : Type} (x : Working α) : Acting α := fun s =>
  let (a, bench) := x ⟨s.ledger.supply, s.labels⟩
  (a, { s with ledger := { s.ledger with supply := bench.supply }, labels := bench.labels })

/-- Notes the requests of a run, if the executor keeps a record, and gives the answer. -/
def noted {α : Type} (t : Traversal Pipeline) (run : Run α) : Acting α := fun s =>
  (checked run.outcome,
   if t.environment.pipeline.executor.keepsRecord then { s with sent := s.sent ++ run.requests }
   else s)

/-- Keeps a source and shows it. -/
def answerSource (name : Option String) (source : Source) : Acting Answer := do
  modify fun s => { s with sources := keepAs s.sources name source }
  return .source source

/-- Keeps a traversal and shows it. -/
def answerTraversal (name : Option String) (t : Traversal Pipeline) : Acting Answer := do
  modify fun s => { s with traversals := keepAs s.traversals name t }
  return .traversal t

/-- Carries out a command. What it needs is looked up before what it was given is looked at. -/
def perform : Command → Acting Answer
  | .source name => answerSource name {}
  | .change source change name => do
    let source ← find (← get).sources source
    let change ← change
    let source ← checked (source.change change)
    answerSource name source
  | .start source opening name => do
    let before ← find (← get).sources source
    let opening ← opening
    let (t, after) ← checked (← withLedger (before.begin opening))
    modify fun s => { s with sources := s.sources.insert source after }
    answerTraversal name t
  | .create graph environment name => do
    let environment ← environment
    let t ← withSupply (Traversal.create graph environment)
    answerTraversal name t
  | .call traversal program name => do
    let kept := (← get).traversals
    let t ← find kept traversal
    let t ← withBench (Call.runAll (fun name => kept[name]?) t program)
    answerTraversal name t
  | .keep dialect name => do
    let dialect ← dialect
    modify fun s => { s with dialects := keepAs s.dialects name dialect }
    return .done
  | .draw traversal => do
    let t ← find (← get).traversals traversal
    return .label (← withSupply (Supply.drawLabel t.family))
  | .ask traversal question => do
    let t ← find (← get).traversals traversal
    match question with
    | .all => return .results (← noted t t.toList)
    | .first => return .result (← noted t (← withSupply t.first))
    | .first? => return .result? (← noted t (← withSupply t.first?))

end Session

end Gremlin
