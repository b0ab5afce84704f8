import Gremlin.Proofs.Results
import Gremlin.Traversal.Program

/-!
# Calls

What a call of a program makes of a traversal and a bench, one equation for each call. A program
makes its calls in order up to the first failure, and keeps the bench that the failure left:

* `Call.run_nest`, `Call.run_mark`, …: single calls;
* `Call.runAll_cons`: one call more;
* `Call.runAll_append`: one program after another.
-/

namespace Gremlin

variable {ρ : Type}

namespace Call

variable (kept : String → Option (Traversal ρ)) (t : Traversal ρ) (bench : Bench)

theorem run_append (step : Step ρ) :
    run kept t (.append step) bench =
      (.ok (t.addStep step bench.supply).1,
        { bench with supply := (t.addStep step bench.supply).2 }) := rfl

theorem run_nest (name : String) (body : List (Call ρ)) :
    run kept t (.nest name body) bench =
      match runAll kept t.toAnonymous body bench with
      | (.ok inner, after) => run kept t (.append ⟨name, [.traversal inner]⟩) after
      | (.error fault, after) => (.error fault, after) := by
  rw [run, bind_apply]
  rcases runAll kept t.toAnonymous body bench with ⟨_ | _, _⟩ <;> rfl

/-- The label is put on the traversal and kept under the name. -/
theorem run_mark (name : String) :
    run kept t (.mark name) bench =
      let label := (Supply.drawLabel t.family bench.supply).1
      run kept t (.append (.mark label))
        ⟨(Supply.drawLabel t.family bench.supply).2, bench.labels.insert name label⟩ := rfl

theorem run_select (name : String) :
    run kept t (.select name) bench =
      match bench.labels[name]? with
      | some label => run kept t (.append (.select label)) bench
      | none => (.error (.unset name), bench) := by
  have hget : run kept t (.select name) bench =
      (match bench.labels[name]? with
        | some label => (t.addStep (.select label)).onBench
        | none => throw (.unset name) : Working (Traversal ρ)) bench := by
    rw [run]
    rfl
  rw [hget]
  cases bench.labels[name]? <;> rfl

theorem run_anonymous : run kept t .anonymous bench = (.ok t.toAnonymous, bench) := rfl

theorem run_wrap (name : String) :
    run kept t (.wrap name) bench =
      run kept t.toAnonymous (.append ⟨name, [.traversal t]⟩) bench := rfl

theorem run_mapMember (expression : Expression ρ) (name : String) :
    run kept t (.mapMember expression name) bench =
      match t.mapMember expression name with
      | .ok t => (.ok t, bench)
      | .error e => (.error (.error e), bench) := by
  rw [run]
  cases t.mapMember expression name <;> rfl

theorem run_replaceEnvironment (environment : Environment ρ) :
    run kept t (.replaceEnvironment environment) bench =
      (.ok (t.replaceEnvironment environment), bench) := rfl

theorem run_resume (name : String) :
    run kept t (.resume name) bench =
      match kept name with
      | some t => (.ok t, bench)
      | none => (.error (.unset name), bench) := by
  rw [run]
  cases kept name <;> rfl

theorem run_refused (fault : Fault) :
    run kept t (.refused fault) bench = (.error fault, bench) := rfl

theorem runAll_nil : runAll kept t [] bench = (.ok t, bench) := rfl

theorem runAll_cons (call : Call ρ) (rest : List (Call ρ)) :
    runAll kept t (call :: rest) bench =
      match run kept t call bench with
      | (.ok t, after) => runAll kept t rest after
      | (.error fault, after) => (.error fault, after) := by
  rw [runAll, bind_apply]
  rcases run kept t call bench with ⟨_ | _, _⟩ <;> rfl

theorem runAll_append (first rest : List (Call ρ)) :
    runAll kept t (first ++ rest) bench =
      match runAll kept t first bench with
      | (.ok t, after) => runAll kept t rest after
      | (.error fault, after) => (.error fault, after) := by
  induction first generalizing t bench with
  | nil => rfl
  | cons call first ih =>
    rw [List.cons_append, runAll_cons, runAll_cons]
    rcases run kept t call bench with ⟨fault | t, after⟩
    · rfl
    · exact ih t after

end Call

end Gremlin
