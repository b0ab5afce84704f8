import Gremlin.Step
import Gremlin.Traversal

/-!
# Traversal programs

A program is a list of calls, each of which makes a traversal of the one before. Calls may
leave step labels and pick up traversals under names; the names of labels are shared with the
programs of nested traversals. A program that fails keeps the labels it has drawn and named.
-/

namespace Gremlin

variable {ρ : Type}

/-- What stops a program: a name that nothing was kept under, or an error. -/
inductive Fault where
  | unset (name : String)
  | error (e : Error)
deriving DecidableEq, Inhabited

/-- One call of a program. -/
inductive Call (ρ : Type) where
  /-- Appends a step. -/
  | append (step : Step ρ)
  /-- Runs a program on the anonymous traversal and appends a step with the result. -/
  | nest (step : String) (body : List (Call ρ))
  /-- Puts a new label on the current step and keeps the label under a name. -/
  | mark (name : String)
  /-- Goes back to the label kept under a name. -/
  | select (name : String)
  /-- Goes on with the anonymous traversal. -/
  | anonymous
  /-- Goes on with the anonymous traversal and appends a step with the traversal so far. -/
  | wrap (step : String)
  | mapMember (expression : Expression ρ) (name : String)
  | replaceEnvironment (environment : Environment ρ)
  /-- Goes on with the traversal kept under a name. -/
  | resume (name : String)
  /-- Fails, since what the call was to be given could not be made. -/
  | refused (fault : Fault)

/-- What calls draw on and leave behind. -/
structure Bench where
  supply : Supply := {}
  /-- Labels by the names they are kept under. -/
  labels : Std.TreeMap String String := ∅
deriving Inhabited

/-- A computation on a bench that may fail; what it did to the bench stays. -/
abbrev Working := ExceptT Fault (StateM Bench)

/-- Draws on the supply of the bench. -/
def Building.onBench {α : Type} (x : Building α) : Working α := fun bench =>
  let (a, supply) := x bench.supply
  (.ok a, { bench with supply })

namespace Call

mutual

/-- The traversal that a call makes, given the traversals kept under names. -/
def run (kept : String → Option (Traversal ρ)) (t : Traversal ρ) : Call ρ → Working (Traversal ρ)
  | append step => (t.addStep step).onBench
  | nest step body => do
    let inner ← runAll kept t.toAnonymous body
    (t.addStep ⟨step, [.traversal inner]⟩).onBench
  | mark name => do
    let label ← (Supply.drawLabel t.family).onBench
    modify fun bench => { bench with labels := bench.labels.insert name label }
    (t.addStep (.mark label)).onBench
  | select name => do
    match (← get).labels[name]? with
    | some label => (t.addStep (.select label)).onBench
    | none => throw (.unset name)
  | anonymous => return t.toAnonymous
  | wrap step => (t.toAnonymous.addStep ⟨step, [.traversal t]⟩).onBench
  | mapMember expression name =>
    match t.mapMember expression name with
    | .ok t => return t
    | .error e => throw (.error e)
  | replaceEnvironment environment => return t.replaceEnvironment environment
  | resume name =>
    match kept name with
    | some t => return t
    | none => throw (.unset name)
  | refused fault => throw fault

/-- Makes calls one after another. -/
def runAll (kept : String → Option (Traversal ρ)) (t : Traversal ρ) :
    List (Call ρ) → Working (Traversal ρ)
  | [] => return t
  | call :: rest => do runAll kept (← run kept t call) rest

end

end Call

end Gremlin
