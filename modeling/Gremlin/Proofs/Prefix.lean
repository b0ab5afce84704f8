import Gremlin.Proofs.Log

/-!
# Prefixes of traversals

The steps of a traversal are written one after another and nothing is taken back. So a script
begins with the script of the traversal without its last steps, whatever the rules for steps and
values are and however they look at the text so far; and a traversal that does not compile does
not compile with more steps either. Rules for traversals as values are left out, since they see
all steps before they write any.

* `Encoding.steps_append`: more steps are more work to do, once the others are done;
* `Pass.exists_begins_of_andThen`: what only adds to an output adds to its script;
* `Dialect.LeavesTraversals.compile_addSteps`: a traversal with more steps does the work of the one
  without them first;
* `Dialect.compile_prefix_stable`: what that means for scripts.
-/

namespace Gremlin

variable {ρ : Type}

/-! ## Traversals with more steps -/

/-- Appending steps draws on the supply, and leaves everything but the steps as it was. -/
theorem Traversal.exists_addSteps_eq (t : Traversal ρ) (more : List (Step ρ)) (supply : Supply) :
    ∃ steps : StepList ρ, steps.toList = t.steps.toList ++ more ∧
      (t.addSteps more supply).1 = { t with steps } := by
  induction more generalizing t supply with
  | nil =>
    refine ⟨t.steps, ?_, ?_⟩
    · rw [List.append_nil]
    · cases t
      rfl
  | cons s rest ih =>
    obtain ⟨steps, hsteps, hadd⟩ :=
      ih { t with steps := t.steps.push supply.nextNode s } (Supply.freshNode supply).2
    refine ⟨steps, ?_, ?_⟩
    · rw [hsteps, StepList.toList_push, List.append_assoc]
      rfl
    · rw [addSteps]
      exact hadd

namespace Encoding

variable (dispatch : Atom ρ → Pass) (scope : Scope)

/-- Whether a point stands before the later steps is up to the earlier ones; nothing else is. -/
theorem steps_append (separate : Bool) (raw more : List (Step ρ)) :
    ∃ separate', steps dispatch scope separate (raw ++ more) =
      (steps dispatch scope separate raw).andThen (steps dispatch scope separate' more) := by
  induction raw generalizing separate with
  | nil => exact ⟨separate, rfl⟩
  | cons s rest ih =>
    rw [List.cons_append, steps, steps]
    cases s.resolve scope with
    | error e => exact ⟨separate, rfl⟩
    | ok resolved =>
      obtain ⟨separate', hrest⟩ := ih (separate || !resolved.isEmpty)
      refine ⟨separate', ?_⟩
      simp only [hrest, Pass.andThen_assoc]

/-- Whatever steps write, the output so far stays. -/
theorem extends_steps (d : Dialect ρ) (mode : Mode) (room depth : Nat) (separate : Bool)
    (raw : List (Step ρ)) (o : Output) :
    o.Extends (steps (Dispatch.within d mode room depth) scope separate raw o).2 := by
  have hrun := run_stepsPlan mode (Dispatch.plan d mode room [] depth) scope separate raw
  simp only [Dispatch.run_plan] at hrun
  rw [← hrun]
  exact (Plan.leads_log mode _ o).extends

end Encoding

/-! ## Scripts that begin alike -/

/-- The text begins with the text of the shorter script, and the parameters with its parameters. -/
structure Script.Begins (short long : Script) : Prop where
  text : ∃ rest, long.text = short.text ++ rest
  parameters : short.parameters <+: long.parameters

/-- A parameter has the value that it has in the shorter script. -/
theorem Script.Begins.lookup {short long : Script} (h : short.Begins long) {name : String}
    {json : Json} (hshort : short.parameters.lookup name = some json) :
    long.parameters.lookup name = some json := by
  obtain ⟨rest, hrest⟩ := h.parameters
  rw [← hrest, List.lookup_append, hshort]
  rfl

/-- What is bound already keeps its number. -/
theorem Parameters.Within.rows {p q : Parameters} (h : p.Within q) : p.rows <+: q.rows := by
  obtain ⟨more, hmore⟩ := h
  unfold Parameters.rows
  rw [← hmore, List.mapIdx_append]
  exact List.prefix_append _ _

theorem Output.Extends.begins {o o' : Output} (h : o.Extends o') : o.script.Begins o'.script :=
  ⟨h.text, h.parameters.rows⟩

namespace Pass

variable {first second : Pass}

/-- A failure is not made up for by what would have come next. -/
theorem script_andThen_of_error {e : Error} (h : first.script = .error e) :
    (first.andThen second).script = .error e := by
  simp only [script, andThen] at h ⊢
  rcases hrun : first {} with ⟨_ | _, o⟩
  · simpa [hrun] using h
  · simp [hrun] at h

/-- The script of two passes begins with that of the first, if the second one only adds. -/
theorem exists_begins_of_andThen (hgrows : ∀ o : Output, o.Extends (second o).2) {long : Script}
    (h : (first.andThen second).script = .ok long) :
    ∃ short, first.script = .ok short ∧ short.Begins long := by
  simp only [script, andThen] at h ⊢
  rcases hrun : first {} with ⟨_ | _, o⟩
  · simp [hrun] at h
  · refine ⟨o.script, rfl, ?_⟩
    have hextends := hgrows o
    simp only [hrun] at h
    split at h
    · rename_i o' hsecond
      injection h with h
      rw [hsecond] at hextends
      rw [← h]
      exact hextends.begins
    · contradiction

end Pass

/-! ## Whole compilations -/

namespace Dialect

/-- No rule sees traversals as values. -/
def LeavesTraversals (d : Dialect ρ) : Prop :=
  ∀ layer ∈ d.layers, layer.1 ≠ .value .traversal

theorem LeavesTraversals.chain {d : Dialect ρ} (hd : d.LeavesTraversals) :
    d.chain (.value .traversal) = [] := by
  rw [List.eq_nil_iff_forall_not_mem]
  intro rule hrule
  exact hd (.value .traversal, rule) (mem_chain.mp hrule) rfl

/-- A traversal is left to the encoder. -/
theorem LeavesTraversals.compile {d : Dialect ρ} (hd : d.LeavesTraversals) (t : Traversal ρ)
    (inlined : Bool) :
    d.compile t inlined =
      (Encoding.traversal
        (Dispatch.within d ⟨inlined, t.environment.options⟩ Dispatch.maxNesting 0) t).script := by
  have hwithin : ∀ mode, Dispatch.within d mode (Dispatch.maxNesting + 1) 0
      (.value (.traversal t)) =
      Encoding.traversal (Dispatch.within d mode Dispatch.maxNesting 0) t := by
    intro mode
    rw [Dispatch.within, Atom.tag, Value.kind, hd.chain]
    rfl
  rw [← hwithin]
  rfl

/-- A traversal with more steps does all the work of the one without them, and then only adds to
the output. -/
theorem LeavesTraversals.compile_addSteps {d : Dialect ρ} (hd : d.LeavesTraversals)
    (t : Traversal ρ) (more : List (Step ρ)) (supply : Supply) (inlined : Bool) :
    ∃ first second : Pass, (∀ o : Output, o.Extends (second o).2) ∧
      d.compile t inlined = first.script ∧
      d.compile (t.addSteps more supply).1 inlined = (first.andThen second).script := by
  obtain ⟨steps, hsteps, hadd⟩ := t.exists_addSteps_eq more supply
  let dispatch := Dispatch.within d ⟨inlined, t.environment.options⟩ Dispatch.maxNesting 0
  obtain ⟨separate', happend⟩ :=
    Encoding.steps_append dispatch t.scope (!t.graph.isEmpty) t.steps.toList more
  refine ⟨Encoding.traversal dispatch t, Encoding.steps dispatch t.scope separate' more, ?_,
    hd.compile t inlined, ?_⟩
  · exact Encoding.extends_steps t.scope d _ _ _ separate' more
  · -- the environment is the same, and so are the options and what names mean
    rw [hadd, hd.compile]
    unfold Encoding.traversal
    rw [hsteps, Pass.andThen_assoc, ← happend]
    rfl

/-- Compiling is stable under more steps, for all rules but those that see traversals as values.
If a traversal compiles with some steps appended, then it compiles without them; the longer script
begins with the text of the shorter one, and the parameters of the shorter one are the first of
the longer one, under the same names and with the same values. If it fails without the steps, it
fails in the same way with them. -/
theorem compile_prefix_stable {d : Dialect ρ}
    (hd : ∀ layer ∈ d.layers, layer.1 ≠ .value .traversal) (t : Traversal ρ)
    (more : List (Step ρ)) (supply : Supply) (inlined : Bool) :
    (∀ long, d.compile (t.addSteps more supply).1 inlined = .ok long →
      ∃ short, d.compile t inlined = .ok short ∧
        (∃ rest, long.text = short.text ++ rest) ∧
        short.parameters <+: long.parameters ∧
        ∀ name json, short.parameters.lookup name = some json →
          long.parameters.lookup name = some json) ∧
    ∀ e, d.compile t inlined = .error e →
      d.compile (t.addSteps more supply).1 inlined = .error e := by
  obtain ⟨first, second, hgrows, hshort, hlong⟩ :=
    LeavesTraversals.compile_addSteps hd t more supply inlined
  rw [hshort, hlong]
  constructor
  · intro long h
    obtain ⟨short, hfirst, hbegins⟩ := Pass.exists_begins_of_andThen hgrows h
    exact ⟨short, hfirst, hbegins.text, hbegins.parameters, fun _ _ => hbegins.lookup⟩
  · intro e h
    exact Pass.script_andThen_of_error h

/-- A dialect that lets `V` be the first step only, which it sees from the text so far. -/
def expectant : Dialect Unit :=
  ⟨[(.step "V", .any
    [.choose (.textEnds "g.") [.push "V(", .literal (.value (.int 5)), .push ")"]
      [.rangeError "V" 2 1]])]⟩

/-- One step more keeps the text and the parameter. Another `V` fails, and with one step more it
fails still. -/
theorem compile_prefix_stable_expectant :
    (∃ long short,
      expectant.compile (Traversal.vertices.addSteps [Step.limit 3] default).1 false = .ok long ∧
      expectant.compile .vertices false = .ok short ∧
      long.text = "g.V(P0).limit(P1)" ∧ (∃ rest, long.text = short.text ++ rest) ∧
      short.parameters <+: long.parameters) ∧
    ∃ twice e, twice = (Traversal.vertices.addSteps [Step.v []] default).1 ∧
      expectant.compile twice false = .error e ∧
      expectant.compile (twice.addSteps [Step.fold] default).1 false = .error e := by
  have hlayers : ∀ layer ∈ expectant.layers, layer.1 ≠ .value .traversal := by
    intro layer hlayer
    rw [List.mem_singleton.mp hlayer]
    decide
  have hlong : expectant.compile (Traversal.vertices.addSteps [Step.limit 3] default).1 false =
      .ok ⟨"g.V(P0).limit(P1)", [("P0", (Value.int 5 : Value Unit).toJson),
        ("P1", (Value.long 3 : Value Unit).toJson)]⟩ := by
    decide +kernel
  have htwice : expectant.compile (Traversal.vertices.addSteps [Step.v []] default).1 false =
      .error (.valueRange "V" 2 1) := by
    decide +kernel
  obtain ⟨hstable, _⟩ :=
    compile_prefix_stable hlayers .vertices [Step.limit 3] default false
  obtain ⟨short, hshort, htext, hparameters, _⟩ := hstable _ hlong
  obtain ⟨_, hfails⟩ := compile_prefix_stable hlayers
    (Traversal.vertices.addSteps [Step.v []] default).1 [Step.fold] default false
  exact ⟨⟨_, short, hlong, hshort, rfl, htext, hparameters⟩, _, _, rfl, htwice, hfails _ htwice⟩

end Dialect

end Gremlin
