import Gremlin.Proofs.Completeness
import Gremlin.Session

/-!
# Running traversals

A run makes a request of a traversal and hands it to the executor, or it ends before that because
there is no request to make. What is asked of a traversal is told from the replies. All of this
holds for pipelines of any kind, whatever their serializers and executors are and whatever errors
these end with.

1. `Reply.all_collects`, `Reply.first?_begins`: what the replies say;
2. `Traversal.sends_execute`: what a run sends and gives;
3. `Backend.ReportsOwnErrors`: the contract of a pipeline, by which nothing but an empty answer is
   reported as one (`Traversal.first_outcome_eq_emptyResult_iff`);
4. `Pipeline.reportsOwnErrors`: serializers keep to it, since compiling ends with errors of three
   kinds only (`Dialect.arises_of_compile`);
5. `Session.perform_ask`: a question leaves a session as it is, but for what was sent;
6. `Traversal.runs_send_once`: what all of this means for the three questions.
-/

namespace Gremlin

/-! ## Errors of serializers -/

/-- The errors that compiling may end with. -/
inductive Error.ArisesCompiling : Error → Prop
  | unknown {e : Error} (h : e.IsUnknown) : e.ArisesCompiling
  | range (context : String) (value max : Int64) : (valueRange context value max).ArisesCompiling
  | loop (depth : Nat) : (serializationLoop depth).ArisesCompiling

/-- The errors that serializers end with: none is configured, or a traversal does not compile. -/
inductive Error.ArisesSerializing : Error → Prop
  | unconfigured : unconfiguredSerializer.ArisesSerializing
  | compiling {e : Error} (h : e.ArisesCompiling) : e.ArisesSerializing

/-- The errors that executors end with: none is configured, or the transport defines the error. -/
inductive Error.ArisesExecuting : Error → Prop
  | unconfigured : unconfiguredExecutor.ArisesExecuting
  | transport (detail : String) : (transport detail).ArisesExecuting

theorem Error.ArisesSerializing.ne_emptyResult {e : Error} (h : e.ArisesSerializing) :
    e ≠ .emptyResult := by
  rintro rfl
  cases h with
  | compiling h =>
    cases h with
    | unknown h =>
      obtain ⟨identifier, h⟩ := h
      contradiction

theorem Error.ArisesExecuting.ne_emptyResult {e : Error} (h : e.ArisesExecuting) :
    e ≠ .emptyResult := by
  rintro rfl
  contradiction

section Plans

variable {ρ : Type} {mode : Mode}

/-- No rule and no part of the encoder ends with another error. -/
theorem Dispatch.every_proceedPlan_arises {restart : List Hop → Nat → Atom ρ → Plan ρ}
    (h : ∀ path depth a, (restart path depth a).Every (fun _ => True) Error.ArisesCompiling)
    (depth : Nat) (path : List Hop) (rules : List (Rule ρ)) (atom : Atom ρ) :
    (proceedPlan mode restart depth path rules atom).Every (fun _ => True)
      Error.ArisesCompiling := by
  induction rules generalizing path atom with
  | nil => exact ⟨trivial, Encoding.every_atomPlan (h _ depth) (fun e he => .unknown he) atom⟩
  | cons rule below ih =>
    refine ⟨trivial, Rule.every_plan ?_ .range rule atom⟩
    constructor
    · exact ih (path ++ [.overridden])
    · -- a restart is one level deeper, where there may be no room
      intro a
      show Plan.Every _ _ (if _ then _ else _)
      split
      · exact .loop (depth + 1)
      · exact h _ (depth + 1) a
    · exact h _ depth

theorem Dispatch.every_plan_arises (d : Dialect ρ) (room : Nat) (path : List Hop) (depth : Nat)
    (atom : Atom ρ) :
    (plan d mode room path depth atom).Every (fun _ => True) Error.ArisesCompiling := by
  induction room generalizing path depth atom with
  | zero => exact .loop (maxNesting + 1)
  | succ room ih => exact every_proceedPlan_arises ih depth path _ atom

/-- Compiling fails with a name without meaning, a number out of range, or for lack of room. -/
theorem Dialect.arises_of_compile {d : Dialect ρ} {t : Traversal ρ} {inlined : Bool} {e : Error}
    (h : d.compile t inlined = .error e) : e.ArisesCompiling :=
  (Dispatch.every_plan_arises d _ [] 0 _).error (d.run_plan_of_compile_eq_error t inlined h)

end Plans

theorem Serializer.arises_of_serialize {serializer : Serializer Pipeline}
    {t : Traversal Pipeline} {e : Error} (h : serializer.serialize t = .error e) :
    e.ArisesSerializing := by
  cases serializer with
  | unconfigured =>
    injection h with h
    rw [← h]
    exact .unconfigured
  | unit => contradiction
  | script dialect => exact .compiling (Dialect.arises_of_compile (map_eq_error_iff.mp h))
  | bytecode =>
    obtain ⟨u, -, hraises⟩ := Bytecode.raises_of_bytecode (map_eq_error_iff.mp h)
    exact .compiling (.unknown hraises.isUnknown)

/-! ## Contracts -/

/-- The contract of what answers requests: where it fails, at once or in a reply, it is for want
of an executor or with an error that the transport defines. -/
structure FailsInTransport (execute : Request → Except Error (List Reply)) : Prop where
  atOnce : ∀ {request : Request} {e : Error}, execute request = .error e → e.ArisesExecuting
  inReply : ∀ {request : Request} {replies : List Reply} {e : Error},
    execute request = .ok replies → .error e ∈ replies → e.ArisesExecuting

/-- The contract of a pipeline: serializing ends with errors of serializers, and executing with
errors of executors. -/
structure Backend.ReportsOwnErrors {ρ : Type} [Backend ρ] (pipeline : ρ) : Prop where
  serializing : ∀ {t : Traversal ρ} {e : Error}, serialize pipeline t = .error e →
    e.ArisesSerializing
  executing : FailsInTransport (execute pipeline)

/-- Serializers keep to the contract, so it is for the executor to do so. -/
theorem Pipeline.reportsOwnErrors {p : Pipeline} (h : FailsInTransport p.executor.execute) :
    Backend.ReportsOwnErrors p := by
  constructor
  · intro t e hserialize
    exact Serializer.arises_of_serialize hserialize
  · exact h

/-! ## Replies -/

namespace Reply

/-- All results in order if none of the replies is an error, and else the first error. -/
inductive Collects : List Reply → Except Error (List Json) → Prop
  | results (items : List Json) : Collects (items.map .result) (.ok items)
  | error (items : List Json) (e : Error) (rest : List Reply) :
    Collects (items.map .result ++ .error e :: rest) (.error e)

/-- The first reply, whatever follows it. -/
inductive Begins : List Reply → Except Error (Option Json) → Prop
  | none : Begins [] (.ok none)
  | result (item : Json) (rest : List Reply) : Begins (.result item :: rest) (.ok (some item))
  | error (e : Error) (rest : List Reply) : Begins (.error e :: rest) (.error e)

theorem all_collects (replies : List Reply) : Collects replies (all replies) := by
  induction replies with
  | nil => exact .results []
  | cons reply rest ih =>
    cases reply with
    | error e => exact .error [] e rest
    | result item =>
      rw [all]
      generalize all rest = outcome at ih ⊢
      cases ih with
      | results items => exact .results (item :: items)
      | error items e rest => exact .error (item :: items) e rest

theorem first?_begins (replies : List Reply) : Begins replies (first? replies) := by
  rcases replies with _ | ⟨item | e, rest⟩
  · exact .none
  · exact .result item rest
  · exact .error e rest

end Reply

/-! ## Runs -/

namespace Traversal

section Runs

variable {ρ : Type} [Backend ρ]

/-- What a run of a traversal gives and what it sends. If there is no request to make, nothing is
sent; and else the request for the traversal is sent once, and the run gives what the executor
fails with or what is read off the replies. -/
inductive Sends {α : Type} (t : Traversal ρ) (reads : List Reply → Except Error α → Prop) :
    Run α → Prop
  | unmade {e : Error} (h : Backend.serialize t.environment.pipeline t = .error e) :
    Sends t reads ⟨.error e, []⟩
  | refused {request : Request} {e : Error}
    (h : Backend.serialize t.environment.pipeline t = .ok request)
    (hrefused : Backend.execute t.environment.pipeline request = .error e) :
    Sends t reads ⟨.error e, [request]⟩
  | answered {request : Request} {replies : List Reply} {outcome : Except Error α}
    (h : Backend.serialize t.environment.pipeline t = .ok request)
    (hanswered : Backend.execute t.environment.pipeline request = .ok replies)
    (hreads : reads replies outcome) : Sends t reads ⟨outcome, [request]⟩

/-- There is a request, and its answer is empty. -/
def IsUnanswered (t : Traversal ρ) : Prop :=
  ∃ request, Backend.serialize t.environment.pipeline t = .ok request ∧
    Backend.execute t.environment.pipeline request = .ok []

theorem sends_execute {α : Type} {reads : List Reply → Except Error α → Prop}
    {look : List Reply → Except Error α} (h : ∀ replies, reads replies (look replies))
    (t : Traversal ρ) : t.Sends reads (t.execute.andThen look) := by
  unfold execute Backend.run Run.andThen
  cases hserialize : Backend.serialize t.environment.pipeline t with
  | error e => exact .unmade hserialize
  | ok request =>
    simp only
    cases hexecute : Backend.execute t.environment.pipeline request with
    | error e => exact .refused hserialize hexecute
    | ok replies => exact .answered hserialize hexecute (h replies)

theorem Sends.length_requests_le {α : Type} {t : Traversal ρ}
    {reads : List Reply → Except Error α → Prop} {run : Run α} (h : t.Sends reads run) :
    run.requests.length ≤ 1 := by
  cases h <;> simp

variable (t : Traversal ρ) (supply : Supply)

theorem first?_eq :
    t.first? supply = ((t.limitedToOne supply).1.execute.andThen Reply.first?,
      (t.limitedToOne supply).2) := rfl

theorem sends_first? : (t.limitedToOne supply).1.Sends Reply.Begins (t.first? supply).1 :=
  sends_execute Reply.first?_begins _

theorem first_outcome_eq_ok_iff {item : Json} :
    (t.first supply).1.outcome = .ok item ↔ (t.first? supply).1.outcome = .ok (some item) := by
  show ((t.first? supply).1.outcome.bind _) = _ ↔ _
  rcases (t.first? supply).1.outcome with e | _ | found <;> simp [Except.bind]

theorem first_outcome_eq_error_iff {e : Error} :
    (t.first supply).1.outcome = .error e ↔
      (t.first? supply).1.outcome = .error e ∨
        (t.first? supply).1.outcome = .ok none ∧ e = .emptyResult := by
  show ((t.first? supply).1.outcome.bind _) = _ ↔ _
  rcases (t.first? supply).1.outcome with e | _ | found <;> simp [Except.bind, eq_comm]

variable {t supply}

/-- There is neither a result nor an error just where the request is answered by nothing. -/
theorem first?_outcome_eq_none_iff :
    (t.first? supply).1.outcome = .ok none ↔ (t.limitedToOne supply).1.IsUnanswered := by
  constructor
  · intro h
    have hsends := t.sends_first? supply
    generalize (t.first? supply).1 = run at h hsends
    cases hsends with
    | unmade hserialize => contradiction
    | refused hserialize hrefused => contradiction
    | answered hserialize hanswered hbegins =>
      cases hbegins with
      | none => exact ⟨_, hserialize, hanswered⟩
      | result item rest => simp at h
      | error e rest => contradiction
  · rintro ⟨request, hserialize, hanswered⟩
    simp only [first?_eq, execute, Backend.run, hserialize, Run.andThen, hanswered]
    rfl

/-- What a pipeline reports that keeps to the contract, is never that an answer was empty. -/
theorem first?_outcome_ne_emptyResult (h : Backend.ReportsOwnErrors t.environment.pipeline) :
    (t.first? supply).1.outcome ≠ .error .emptyResult := by
  intro houtcome
  have hsends := t.sends_first? supply
  generalize (t.first? supply).1 = run at houtcome hsends
  cases hsends with
  | unmade hserialize =>
    injection houtcome with he
    exact (h.serializing hserialize).ne_emptyResult he
  | refused hserialize hrefused =>
    injection houtcome with he
    exact (h.executing.atOnce hrefused).ne_emptyResult he
  | answered hserialize hanswered hbegins =>
    cases hbegins with
    | none => contradiction
    | result item rest => contradiction
    | error e rest =>
      injection houtcome with he
      exact (h.executing.inReply hanswered List.mem_cons_self).ne_emptyResult he

/-- Nothing but an empty answer is reported as one. -/
theorem first_outcome_eq_emptyResult_iff
    (h : Backend.ReportsOwnErrors t.environment.pipeline) :
    (t.first supply).1.outcome = .error .emptyResult ↔
      (t.limitedToOne supply).1.IsUnanswered := by
  rw [first_outcome_eq_error_iff, first?_outcome_eq_none_iff]
  constructor
  · rintro (hreported | ⟨hempty, -⟩)
    · exact absurd hreported (first?_outcome_ne_emptyResult h)
    · exact hempty
  · intro hempty
    exact Or.inr ⟨hempty, rfl⟩

end Runs

end Traversal

/-! ## Questions in a session -/

namespace Session

namespace Question

/-- The requests of the run that answers a question. -/
def requests (t : Traversal Pipeline) (supply : Supply) : Question → List Request
  | all => t.toList.requests
  | first => (t.first supply).1.requests
  | first? => (t.first? supply).1.requests

/-- What a question leaves of a supply: the limit is a node of its own. -/
def after (t : Traversal Pipeline) (supply : Supply) : Question → Supply
  | all => supply
  | first | first? => (t.limitedToOne supply).2

theorem drawn_after (t : Traversal Pipeline) (supply : Supply) (question : Question) :
    (question.after t supply).drawn = supply.drawn := by
  cases question <;> rfl

theorem length_requests_le (t : Traversal Pipeline) (supply : Supply) (question : Question) :
    (question.requests t supply).length ≤ 1 := by
  have hfirst : (t.first? supply).1.requests.length ≤ 1 :=
    (t.sends_first? supply).length_requests_le
  cases question with
  | all => exact (Traversal.sends_execute Reply.all_collects t).length_requests_le
  | first => exact hfirst
  | first? => exact hfirst

end Question

/-- Answering notes what was sent and changes nothing else. -/
theorem noted_snd {α : Type} (t : Traversal Pipeline) (run : Run α) (answer : α → Answer)
    (session : Session) :
    ((noted t run >>= fun a => pure (answer a) : Acting Answer) session).2 =
      { session with sent := session.sent ++
          if t.environment.pipeline.executor.keepsRecord then run.requests else [] } := by
  have hnoted : (noted t run session).2 = { session with sent := session.sent ++
      if t.environment.pipeline.executor.keepsRecord then run.requests else [] } := by
    rw [noted]
    cases t.environment.pipeline.executor.keepsRecord <;> simp
  rw [bind_apply, ← hnoted]
  rcases noted t run session with ⟨fault | a, after⟩ <;> rfl

/-- A question leaves everything that is kept as it is. -/
theorem perform_ask {session : Session} {name : String} {t : Traversal Pipeline}
    (h : session.traversals[name]? = some t) (question : Question) :
    (perform (.ask name question) session).2 =
      { session with
        ledger := { session.ledger with supply := question.after t session.ledger.supply }
        sent := session.sent ++
          if t.environment.pipeline.executor.keepsRecord then
            question.requests t session.ledger.supply
          else [] } := by
  have hget : (get : Acting Session) session = (.ok session, session) := rfl
  have hfind : (liftM (find session.traversals name) : Acting (Traversal Pipeline)) session =
      (.ok t, session) := by
    rw [find, h]
    rfl
  simp only [perform]
  rw [bind_apply, hget]
  simp only
  rw [bind_apply, hfind]
  -- for one result a node is drawn before anything is sent
  let drawn : Session := { session with
    ledger := { session.ledger with supply := (t.limitedToOne session.ledger.supply).2 } }
  cases question with
  | all => exact noted_snd t t.toList .results session
  | first => exact noted_snd t (t.first session.ledger.supply).1 .result drawn
  | first? => exact noted_snd t (t.first? session.ledger.supply).1 .result? drawn

end Session

namespace Traversal

/-- A run hands the executor one request at most, and none if the traversal cannot be serialized,
whatever serializer and executor its pipeline has. For all results the traversal itself is sent, and
for one result the traversal with a limit of one appended. All results are given in order, or the
first error; one result is the first reply, whatever follows it; and errors of the serializer, of
the executor and in replies are passed on untouched. Where one result has to be there, an empty
answer is an error; and with a pipeline that keeps to its contract that error says so and nothing
else. In a session such a question leaves every traversal as it was and changes nothing but the
record of what was sent, by at most one request, and which node comes next. -/
theorem runs_send_once {ρ : Type} [Backend ρ] (t : Traversal ρ) (supply : Supply) :
    t.Sends Reply.Collects t.toList ∧
    (t.limitedToOne supply).1.Sends Reply.Begins (t.first? supply).1 ∧
    (∃ steps, (t.limitedToOne supply).1 = { t with steps } ∧
      steps.toList = t.steps.toList ++ [.limit 1]) ∧
    (t.first supply).1.requests = (t.first? supply).1.requests ∧
    (∀ item, (t.first supply).1.outcome = .ok item ↔
      (t.first? supply).1.outcome = .ok (some item)) ∧
    (∀ e, (t.first supply).1.outcome = .error e ↔
      (t.first? supply).1.outcome = .error e ∨
        (t.first? supply).1.outcome = .ok none ∧ e = .emptyResult) ∧
    ((t.first? supply).1.outcome = .ok none ↔ (t.limitedToOne supply).1.IsUnanswered) ∧
    (Backend.ReportsOwnErrors t.environment.pipeline →
      ((t.first supply).1.outcome = .error .emptyResult ↔
        (t.limitedToOne supply).1.IsUnanswered)) ∧
    ∀ (session : Session) (name : String) (question : Session.Question)
      (kept : Traversal Pipeline), session.traversals[name]? = some kept →
      ∃ supply requests, (Session.perform (.ask name question) session).2 =
          { session with
            ledger := { session.ledger with supply }, sent := session.sent ++ requests } ∧
        supply.drawn = session.ledger.supply.drawn ∧ requests.length ≤ 1 := by
  refine ⟨sends_execute Reply.all_collects t, t.sends_first? supply,
    ⟨_, rfl, StepList.toList_push _ _ _⟩, rfl, ?_, ?_, first?_outcome_eq_none_iff,
    first_outcome_eq_emptyResult_iff, ?_⟩
  · intro item
    exact t.first_outcome_eq_ok_iff supply
  · intro e
    exact t.first_outcome_eq_error_iff supply
  · intro session name question kept hkept
    refine ⟨_, _, Session.perform_ask hkept question, question.drawn_after _ _, ?_⟩
    split
    · exact question.length_requests_le _ _
    · exact Nat.zero_le 1

/-- The contract is needed: an executor that itself reports an empty answer is believed. -/
example : ((⟨"g", .empty, { pipeline := ⟨.unit, .replay [.error .emptyResult]⟩ }, 0, ∅⟩ :
    Traversal Pipeline).first {}).1.outcome = .error .emptyResult := rfl

/-- The traversal of a vertex, whose executor replays a result and then a failure. -/
def replayed : Traversal Pipeline :=
  ⟨"g", .push .empty 0 (.v [.long 1]),
    { pipeline := ⟨.script .groovy, .replay [.result (.text "marko"), .failure "closed"]⟩ }, 0, ∅⟩

/-- The executor of it fails as its transport does. -/
theorem failsInTransport_replayed :
    FailsInTransport replayed.environment.pipeline.executor.execute := by
  constructor
  · intro request e h
    contradiction
  · intro request replies e h he
    injection h with h
    rw [← h] at he
    obtain rfl : e = .transport "closed" := by simpa [Reply.failure] using he
    exact .transport "closed"

/-- All results of it are a failure, and the first result is there. -/
theorem runs_send_once_replayed :
    Backend.ReportsOwnErrors replayed.environment.pipeline ∧
    replayed.toList.outcome = .error (.transport "closed") ∧
    (replayed.first? {}).1.outcome = .ok (some (.text "marko")) ∧
    (replayed.first {}).1.outcome = .ok (.text "marko") ∧
    ¬ (replayed.limitedToOne {}).1.IsUnanswered ∧
    ∃ supply requests, (Session.perform (.ask "q" .first)
          { traversals := (∅ : Std.TreeMap _ _).insert "q" replayed }).2 =
        { ledger := { supply }
          traversals := (∅ : Std.TreeMap _ _).insert "q" replayed, sent := requests } ∧
      supply.drawn = #[] ∧ requests.length ≤ 1 := by
  obtain ⟨-, -, -, -, hfirst, -, -, hempty, hasked⟩ := runs_send_once replayed {}
  have hreports := Pipeline.reportsOwnErrors failsInTransport_replayed
  have hall : replayed.toList.outcome = .error (.transport "closed") := by decide +kernel
  have hitem : (replayed.first? {}).1.outcome = .ok (some (.text "marko")) := by decide +kernel
  have hgiven : (replayed.first {}).1.outcome = .ok (.text "marko") := (hfirst _).mpr hitem
  have hkept : ((∅ : Std.TreeMap String (Traversal Pipeline)).insert "q" replayed)["q"]? =
      some replayed := Std.TreeMap.getElem?_insert_self
  refine ⟨hreports, hall, hitem, hgiven, ?_, hasked _ "q" .first replayed hkept⟩
  rw [← hempty hreports, hgiven]
  intro h
  contradiction

end Traversal

end Gremlin
