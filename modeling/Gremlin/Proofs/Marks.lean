import Gremlin.Proofs.Calls

/-!
# Marks

A mark is a step that puts a label on the step before it, and whoever made it keeps the label under
a name. Marks stand at every level of a traversal: those of a nested traversal were made before the
step that holds it.

* `Traversal.marks`: the labels of all marks of a traversal, at every level, in the order in which
  the marks were made;
* `Call.minted`: the labels that a call mints, its own or those of a nested program;
* `Call.marksAfter`: the labels of all marks of what a call makes, told from the labels that it
  mints;
* `Call.run_records`, `Call.runAll_records`: the labels that a program mints are those that it keeps
  and those of the marks that it makes, at whatever level it makes them.
-/

namespace Gremlin

variable {ρ : Type}

/-! ## Marks at every level -/

mutual

/-- The labels of the marks in a value. -/
def Value.marks : Value ρ → List String
  | .entity e => e.marks
  | .traversal t => t.marks
  | _ => []

def Entity.marks : Entity ρ → List String
  | ⟨_, members⟩ => memberMarks members

def memberMarks : List (String × Value ρ) → List String
  | [] => []
  | (_, value) :: rest => value.marks ++ memberMarks rest

/-- The labels of the marks below a step, and then its own ones if it is a mark. -/
def Step.marks : Step ρ → List String
  | ⟨name, parameters⟩ =>
    valueMarks parameters ++ if name = "as" then parameters.filterMap Value.text? else []

def valueMarks : List (Value ρ) → List String
  | [] => []
  | value :: rest => value.marks ++ valueMarks rest

/-- The newest node comes first, and its marks last. -/
def nodeMarks : List (Node ρ) → List String
  | [] => []
  | ⟨_, step⟩ :: older => nodeMarks older ++ step.marks

/-- The labels of the marks of a traversal at every level, in the order of its steps. -/
def Traversal.marks : Traversal ρ → List String
  | ⟨_, ⟨nodes⟩, _, _, _⟩ => nodeMarks nodes

end

@[simp] theorem Step.marks_mark (label : String) : (mark label : Step ρ).marks = [label] := by
  simp [mark, Step.marks, valueMarks, Value.marks, Value.text?]

@[simp] theorem Step.marks_select (label : String) : (select label : Step ρ).marks = [] := by
  simp [select, Step.marks, valueMarks, Value.marks]

/-- A nested traversal is no label, whatever the step is called. -/
@[simp] theorem Step.marks_traversal (name : String) (inner : Traversal ρ) :
    (⟨name, [.traversal inner]⟩ : Step ρ).marks = inner.marks := by
  simp [Step.marks, valueMarks, Value.marks, Value.text?]

namespace Traversal

/-- Only steps have marks. -/
theorem marks_eq (t : Traversal ρ) : t.marks = nodeMarks t.steps.newestFirst := by
  rcases t with ⟨graph, ⟨nodes⟩, environment, family, mappings⟩
  rw [marks]

@[simp] theorem marks_addStep (t : Traversal ρ) (step : Step ρ) (supply : Supply) :
    (t.addStep step supply).1.marks = t.marks ++ step.marks := by
  rw [marks_eq, marks_eq]
  show nodeMarks (_ :: t.steps.newestFirst) = _
  rw [nodeMarks]

@[simp] theorem marks_toAnonymous (t : Traversal ρ) : t.toAnonymous.marks = [] := by
  rw [marks_eq]
  show nodeMarks [] = []
  rw [nodeMarks]

theorem marks_mapMember {t mapped : Traversal ρ} {expression : Expression ρ} {name : String}
    (h : t.mapMember expression name = .ok mapped) : mapped.marks = t.marks := by
  unfold mapMember at h
  split at h
  · injection h with h
    rw [← h, marks_eq, marks_eq]
  · contradiction

@[simp] theorem marks_replaceEnvironment (t : Traversal ρ) (environment : Environment ρ) :
    (t.replaceEnvironment environment).marks = t.marks := by
  rw [marks_eq, marks_eq, replaceEnvironment]

end Traversal

/-- What goes beyond the second list is left out. -/
theorem zip_append_of_length_le {α β : Type} {as : List α} {bs : List β}
    (h : bs.length ≤ as.length) (more : List α) : (as ++ more).zip bs = as.zip bs := by
  induction as generalizing bs with
  | nil =>
    rw [List.length_eq_zero_iff.mp (Nat.le_zero.mp h), List.zip_nil_right, List.zip_nil_right]
  | cons a as ih =>
    cases bs with
    | nil => rfl
    | cons b bs =>
      rw [List.cons_append, List.zip_cons_cons, List.zip_cons_cons,
        ih (Nat.le_of_succ_le_succ h)]

namespace Call

/-! ## Labels that calls mint -/

mutual

/-- The labels that a call mints, in order: its own, or those of a nested program. -/
def minted (kept : String → Option (Traversal ρ)) (t : Traversal ρ) (bench : Bench) :
    Call ρ → List String
  | mark _ => [(Supply.drawLabel t.family bench.supply).1]
  | nest _ body => mintedAll kept t.toAnonymous bench body
  | _ => []

/-- The labels that a program mints, up to its first failure. -/
def mintedAll (kept : String → Option (Traversal ρ)) (t : Traversal ρ) (bench : Bench) :
    List (Call ρ) → List String
  | [] => []
  | call :: rest =>
    minted kept t bench call ++
      match run kept t call bench with
      | (.ok t, after) => mintedAll kept t after rest
      | (.error _, _) => []

end

mutual

/-- The names that a call keeps labels under, in order: its own, or those of a nested program. -/
def names : Call ρ → List String
  | mark name => [name]
  | nest _ body => namesAll body
  | _ => []

def namesAll : List (Call ρ) → List String
  | [] => []
  | call :: rest => call.names ++ namesAll rest

end

/-- The labels kept after some more were kept under names, one after another. -/
def keepAll (labels : Std.TreeMap String String) (mints : List (String × String)) :
    Std.TreeMap String String :=
  mints.foldl (fun labels mint => labels.insert mint.1 mint.2) labels

/-! ## Marks that calls make -/

section Marks

variable (kept : String → Option (Traversal ρ))

mutual

/-- The labels of the marks at every level of what a call makes that mints `labels`, where
`before` are those of the traversal that it is made on. -/
def marksAfter (before labels : List String) : Call ρ → List String
  | append step => before ++ step.marks
  | nest _ body => before ++ marksAfterAll [] labels body
  | mark _ => before ++ labels
  | anonymous => []
  | resume name => (kept name).elim [] Traversal.marks
  | select _ | wrap _ | mapMember _ _ | replaceEnvironment _ | refused _ => before

/-- The same for calls one after another, each of which takes as many of the labels as it has
names to keep them under. -/
def marksAfterAll (before labels : List String) : List (Call ρ) → List String
  | [] => before
  | call :: rest =>
    marksAfterAll (marksAfter before (labels.take call.names.length) call)
      (labels.drop call.names.length) rest

end

end Marks

/-- Labels that were minted are recorded: they are kept under the names in order, up to the first
failure; and if there is a result, no name goes without a label, and the marks of the result are
told from the labels. -/
structure Records (names : List String) (marks : List String → List String) (bench : Bench)
    (labels : List String) (result : Except Fault (Traversal ρ) × Bench) : Prop where
  length_le : labels.length ≤ names.length
  labels_eq : result.2.labels = keepAll bench.labels (names.zip labels)
  made : ∀ t, result.1 = .ok t → labels.length = names.length ∧ t.marks = marks labels

section Records

variable {kept : String → Option (Traversal ρ)} {t : Traversal ρ} {bench : Bench}

/-- Nothing is minted, and there is a result. -/
theorem Records.of_ok {marks : List String → List String} (h : t.marks = marks []) :
    Records [] marks bench [] ((.ok t, bench) : Except Fault (Traversal ρ) × Bench) := by
  refine ⟨Nat.le_refl 0, rfl, ?_⟩
  intro t' ht'
  injection ht' with ht'
  rw [← ht']
  exact ⟨rfl, h⟩

/-- Nothing was minted before the failure. -/
theorem Records.of_error {names : List String} {marks : List String → List String}
    (fault : Fault) :
    Records names marks bench [] ((.error fault, bench) : Except Fault (Traversal ρ) × Bench) := by
  refine ⟨Nat.zero_le _, ?_, ?_⟩
  · rw [List.zip_nil_right]
    rfl
  · intro t' ht'
    contradiction

/-- A step is appended after labels were recorded. -/
theorem Records.append {names labels : List String} {marks : List String → List String}
    {after : Bench} {step : Step ρ} (hlength : labels.length = names.length)
    (hlabels : after.labels = keepAll bench.labels (names.zip labels))
    (hmarks : t.marks ++ step.marks = marks labels) :
    Records names marks bench labels (run kept t (.append step) after) := by
  refine ⟨Nat.le_of_eq hlength, hlabels, ?_⟩
  intro t' ht'
  rw [run_append] at ht'
  injection ht' with ht'
  rw [← ht', Traversal.marks_addStep]
  exact ⟨hlength, hmarks⟩

/-- A call that records its labels, and then a program that does. -/
theorem Records.cons {call : Call ρ} {rest : List (Call ρ)} {t' : Traversal ρ} {after : Bench}
    {labels more : List String} {result : Except Fault (Traversal ρ) × Bench}
    (hcall : Records call.names (marksAfter kept t.marks · call) bench labels (.ok t', after))
    (hrest : Records (namesAll rest) (marksAfterAll kept t'.marks · rest) after more result) :
    Records (namesAll (call :: rest)) (marksAfterAll kept t.marks · (call :: rest)) bench
      (labels ++ more) result := by
  obtain ⟨hlength, hmarks⟩ := hcall.made t' rfl
  refine ⟨?_, ?_, ?_⟩
  · rw [namesAll, List.length_append, List.length_append, hlength]
    exact Nat.add_le_add_left hrest.length_le _
  · rw [namesAll, List.zip_append hlength.symm, hrest.labels_eq, hcall.labels_eq, keepAll, keepAll,
      keepAll, List.foldl_append]
  · intro made hmade
    obtain ⟨hmore, hmarks'⟩ := hrest.made made hmade
    constructor
    · rw [namesAll, List.length_append, List.length_append, hlength, hmore]
    · -- the labels of the call are told from the others by their number
      rw [hmarks', hmarks, marksAfterAll, ← hlength, List.take_left, List.drop_left]

/-- The rest of a program is not reached after a failure. -/
theorem Records.stop {call : Call ρ} {rest : List (Call ρ)} {fault : Fault} {after : Bench}
    {labels : List String}
    (hcall : Records call.names (marksAfter kept t.marks · call) bench labels
      ((.error fault, after) : Except Fault (Traversal ρ) × Bench)) :
    Records (namesAll (call :: rest)) (marksAfterAll kept t.marks · (call :: rest)) bench labels
      ((.error fault, after) : Except Fault (Traversal ρ) × Bench) := by
  refine ⟨?_, ?_, ?_⟩
  · rw [namesAll, List.length_append]
    exact Nat.le_trans hcall.length_le (Nat.le_add_right _ _)
  · -- there are no labels for the names of the rest
    rw [namesAll, zip_append_of_length_le hcall.length_le]
    exact hcall.labels_eq
  · intro t' ht'
    contradiction

mutual

theorem run_records (t : Traversal ρ) (bench : Bench) (call : Call ρ) :
    Records call.names (marksAfter kept t.marks · call) bench (minted kept t bench call)
      (run kept t call bench) := by
  cases call with
  | append step => exact .append rfl rfl rfl
  | nest step body =>
    have hbody := runAll_records t.toAnonymous bench body
    rw [run_nest, minted, names]
    rcases hrun : runAll kept t.toAnonymous body bench with ⟨fault | inner, after⟩
    · rw [hrun] at hbody
      exact ⟨hbody.length_le, hbody.labels_eq, by simp⟩
    · rw [hrun] at hbody
      -- the marks of the nested traversal come to stand below the step that holds it
      obtain ⟨hlength, hmarks⟩ := hbody.made inner rfl
      refine .append hlength hbody.labels_eq ?_
      rw [Step.marks_traversal, hmarks, Traversal.marks_toAnonymous, marksAfter]
  | mark name =>
    rw [run_mark]
    refine .append rfl rfl ?_
    rw [Step.marks_mark]
    rfl
  | select name =>
    rw [run_select]
    cases bench.labels[name]? with
    | none => exact .of_error _
    | some label =>
      refine .append rfl rfl ?_
      rw [Step.marks_select, List.append_nil, marksAfter]
  | anonymous =>
    rw [run_anonymous]
    exact .of_ok t.marks_toAnonymous
  | wrap step =>
    rw [run_wrap]
    refine .append rfl rfl ?_
    rw [Traversal.marks_toAnonymous, Step.marks_traversal, List.nil_append, marksAfter]
  | mapMember expression name =>
    rw [run_mapMember]
    cases hmapped : t.mapMember expression name with
    | error e => exact .of_error _
    | ok mapped => exact .of_ok (Traversal.marks_mapMember hmapped)
  | replaceEnvironment environment =>
    rw [run_replaceEnvironment]
    exact .of_ok (t.marks_replaceEnvironment environment)
  | resume name =>
    rw [run_resume]
    cases hname : kept name with
    | none => exact .of_error _
    | some other =>
      refine .of_ok ?_
      rw [marksAfter, hname]
      rfl
  | refused fault =>
    rw [run_refused]
    exact .of_error fault

theorem runAll_records (t : Traversal ρ) (bench : Bench) (calls : List (Call ρ)) :
    Records (namesAll calls) (marksAfterAll kept t.marks · calls) bench
      (mintedAll kept t bench calls) (runAll kept t calls bench) := by
  cases calls with
  | nil =>
    rw [runAll_nil, mintedAll]
    exact .of_ok rfl
  | cons call rest =>
    have hcall := run_records t bench call
    rw [runAll_cons, mintedAll]
    rcases hrun : run kept t call bench with ⟨fault | t', after⟩
    · rw [hrun] at hcall
      rw [List.append_nil]
      exact hcall.stop
    · rw [hrun] at hcall
      exact hcall.cons (runAll_records t' after rest)

end

/-- Where nothing is written by hand or taken over, the marks are the labels in order, on whichever
level they were made. -/
example : marksAfterAll (ρ := ρ) kept ["_a"] ["_b", "_c", "_d"]
    [.nest "not" [.mark "x", .nest "where" [.mark "y"]], .mark "z"] = ["_a", "_b", "_c", "_d"] :=
  rfl

end Records

end Call

end Gremlin
