import Gremlin.Proofs.Calls
import Gremlin.Resolution
import Mathlib.Data.List.Induction

/-!
# Fluent building

Who writes a traversal makes one call after another, each on what the one before returned. Most
builders append a step. A filter by a nested traversal opens the anonymous traversal, has calls
made on it, and appends a step with the result. A name for a member is accepted or turned down,
and whoever is turned down goes on with the traversal as it was.

Nothing but the names that were accepted decides what a traversal calls its members:
`Mappings.getElem?_ofGiven` reads a table of names as the list of them, the last one first, and
`Fluent.Position` is what the calls made so far have left.

Programs stop where a name is turned down. Without such a name they make the same traversals
(`Fluent.runAll_programAll`).
-/

namespace Gremlin

variable {ρ : Type}

/-! ## Names given to members -/

/-- The table of names given one after another. -/
def Mappings.ofGiven (given : List (Member × String)) : Mappings :=
  given.foldl (fun mappings naming => mappings.insert naming.1 naming.2) ∅

/-- What the names in a traversal mean after some members were given names. -/
def Scope.ofGiven (model : Model) (given : List (Member × String)) : Scope :=
  ⟨model, .ofGiven given⟩

theorem Mappings.ofGiven_concat (given : List (Member × String)) (m : Member) (name : String) :
    ofGiven (given ++ [(m, name)]) = (ofGiven given).insert m name := by
  simp [ofGiven]

/-- The traversal with a name for a member, or as it was if the name is turned down. -/
def Traversal.tryMapMember (t : Traversal ρ) (expression : Expression ρ) (name : String) :
    Traversal ρ :=
  match t.mapMember expression name with
  | .ok mapped => mapped
  | .error _ => t

/-- Trying to give a name changes nothing but the table of names. -/
theorem Traversal.tryMapMember_eq (t : Traversal ρ) (expression : Expression ρ) (name : String) :
    ∃ mappings : Mappings, t.tryMapMember expression name = { t with mappings } := by
  rcases t with ⟨graph, steps, environment, family, mappings⟩
  unfold tryMapMember mapMember
  cases expression.member? with
  | none => exact ⟨mappings, rfl⟩
  | some m => exact ⟨mappings.insert m name, rfl⟩

/-! ## Calls -/

/-- A call that is made on a traversal under construction. -/
inductive Fluent (ρ : Type) where
  /-- Appends a step. -/
  | append (step : Step ρ)
  /-- Puts a new label on the current step. -/
  | mark
  /-- Appends a step with what the calls make of the anonymous traversal. -/
  | nest (step : String) (body : List (Fluent ρ))
  /-- Names a member, or leaves things as they are if the name is turned down. -/
  | mapMember (expression : Expression ρ) (name : String)
  /-- Declares what the traversal yields, which leaves no trace. -/
  | cast

namespace Fluent

section Building

variable (opened : Traversal ρ → Traversal ρ)

mutual

/-- What a call makes of a traversal, where `opened` is what nested calls are made on. -/
def apply (t : Traversal ρ) : Fluent ρ → Building (Traversal ρ)
  | append step => t.addStep step
  | mark => do t.addStep (.mark (← Supply.drawLabel t.family))
  | nest step body => do t.addStep ⟨step, [.traversal (← applyAll (opened t) body)]⟩
  | mapMember expression name => return t.tryMapMember expression name
  | cast => return t

/-- Makes calls one after another. -/
def applyAll (t : Traversal ρ) : List (Fluent ρ) → Building (Traversal ρ)
  | [] => return t
  | call :: rest => do applyAll (← apply t call) rest

end

variable (t : Traversal ρ) (supply : Supply)

theorem apply_append (step : Step ρ) :
    apply opened t (.append step) supply = t.addStep step supply := rfl

theorem apply_mark :
    apply opened t .mark supply =
      t.addStep (.mark (Supply.drawLabel t.family supply).1)
        (Supply.drawLabel t.family supply).2 := rfl

theorem apply_nest (step : String) (body : List (Fluent ρ)) :
    apply opened t (.nest step body) supply =
      t.addStep ⟨step, [.traversal (applyAll opened (opened t) body supply).1]⟩
        (applyAll opened (opened t) body supply).2 := by
  rw [apply]
  rfl

theorem apply_mapMember (expression : Expression ρ) (name : String) :
    apply opened t (.mapMember expression name) supply =
      (t.tryMapMember expression name, supply) := rfl

theorem apply_cast : apply opened t .cast supply = (t, supply) := rfl

theorem applyAll_nil : applyAll opened t [] supply = (t, supply) := rfl

theorem applyAll_cons (call : Fluent ρ) (rest : List (Fluent ρ)) :
    applyAll opened t (call :: rest) supply =
      applyAll opened (apply opened t call supply).1 rest (apply opened t call supply).2 := by
  rw [applyAll]
  rfl

/-- A call changes nothing but the steps and the names of members. -/
theorem exists_apply_eq (call : Fluent ρ) : ∃ (steps : StepList ρ) (mappings : Mappings),
    (apply opened t call supply).1 = { t with steps, mappings } := by
  cases call with
  | append step => exact ⟨_, t.mappings, rfl⟩
  | mark => exact ⟨_, t.mappings, rfl⟩
  | nest step body =>
    rw [apply_nest]
    exact ⟨_, t.mappings, rfl⟩
  | mapMember expression name =>
    obtain ⟨mappings, hmapped⟩ := t.tryMapMember_eq expression name
    exact ⟨t.steps, mappings, hmapped⟩
  | cast =>
    cases t
    exact ⟨_, _, rfl⟩

theorem exists_applyAll_eq (calls : List (Fluent ρ)) :
    ∃ (steps : StepList ρ) (mappings : Mappings),
      (applyAll opened t calls supply).1 = { t with steps, mappings } := by
  induction calls generalizing t supply with
  | nil =>
    cases t
    exact ⟨_, _, rfl⟩
  | cons call rest ih =>
    obtain ⟨_, _, hfirst⟩ := exists_apply_eq opened t supply call
    obtain ⟨steps, mappings, hrest⟩ :=
      ih (apply opened t call supply).1 (apply opened t call supply).2
    refine ⟨steps, mappings, ?_⟩
    rw [applyAll_cons, hrest, hfirst]

theorem graph_applyAll (calls : List (Fluent ρ)) :
    (applyAll opened t calls supply).1.graph = t.graph := by
  obtain ⟨_, _, h⟩ := exists_applyAll_eq opened t supply calls
  rw [h]

end Building

/-- The traversal that calls make from one without steps, each nested one made from the anonymous
traversal of the one around it. -/
def built (graph : String) (environment : Environment ρ) (calls : List (Fluent ρ)) :
    Building (Traversal ρ) := do
  applyAll Traversal.toAnonymous (← Traversal.create graph environment) calls

/-! ## Names and labels -/

/-- The name that a call gives to a member of its own traversal. -/
def given : Fluent ρ → List (Member × String)
  | mapMember expression name => (expression.member?.map (·, name)).toList
  | _ => []

/-- The names that calls give to members of their own traversal, in order. -/
def givenAll (calls : List (Fluent ρ)) : List (Member × String) := calls.flatMap given

mutual

/-- The number of labels that a call draws, in 64 bits. -/
def labels : Fluent ρ → UInt64
  | mark => 1
  | nest _ body => labelsAll body
  | _ => 0

def labelsAll : List (Fluent ρ) → UInt64
  | [] => 0
  | call :: rest => call.labels + labelsAll rest

end

@[simp] theorem givenAll_nil : givenAll ([] : List (Fluent ρ)) = [] := rfl

@[simp] theorem givenAll_cons (call : Fluent ρ) (rest : List (Fluent ρ)) :
    givenAll (call :: rest) = call.given ++ givenAll rest := rfl

/-- The traversal is where calls have led it that gave names and drew labels. -/
structure Position (environment : Environment ρ) (family : Nat) (given : List (Member × String))
    (drawn : UInt64) (t : Traversal ρ) (supply : Supply) : Prop where
  environment_eq : t.environment = environment
  family_eq : t.family = family
  mappings_eq : t.mappings = .ofGiven given
  drawn_eq : supply.drawn[family]? = some drawn

variable {environment : Environment ρ} {family : Nat} {given : List (Member × String)}
  {drawn : UInt64} {t : Traversal ρ} {supply : Supply}

theorem position_create (graph : String) (environment : Environment ρ) (supply : Supply) :
    Position environment supply.drawn.size [] 0 (Traversal.create graph environment supply).1
      (Traversal.create graph environment supply).2 := by
  refine ⟨rfl, rfl, rfl, ?_⟩
  show (supply.drawn.push 0)[supply.drawn.size]? = some 0
  simp

namespace Position

theorem scope_eq (h : Position environment family given drawn t supply) :
    t.scope = .ofGiven environment.model given := by
  rw [Traversal.scope, h.environment_eq, h.mappings_eq, Scope.ofGiven]

theorem toAnonymous (h : Position environment family given drawn t supply) :
    Position environment family given drawn t.toAnonymous supply :=
  ⟨h.environment_eq, h.family_eq, h.mappings_eq, h.drawn_eq⟩

theorem addStep (h : Position environment family given drawn t supply) (step : Step ρ) :
    Position environment family given drawn (t.addStep step supply).1 (t.addStep step supply).2 :=
  ⟨h.environment_eq, h.family_eq, h.mappings_eq, h.drawn_eq⟩

/-- The label that is drawn is the one with the number of labels drawn before. -/
theorem label_eq (h : Position environment family given drawn t supply) :
    (Supply.drawLabel t.family supply).1 = Supply.identifier drawn.toNat := by
  simp [Supply.drawLabel, h.family_eq, h.drawn_eq]

theorem drawLabel (h : Position environment family given drawn t supply) :
    Position environment family given (drawn + 1) t (Supply.drawLabel t.family supply).2 := by
  refine ⟨h.environment_eq, h.family_eq, h.mappings_eq, ?_⟩
  simp [Supply.drawLabel, h.family_eq, Array.getElem?_modify, h.drawn_eq]

theorem tryMapMember (h : Position environment family given drawn t supply)
    (expression : Expression ρ) (name : String) :
    Position environment family (given ++ Fluent.given (.mapMember expression name)) drawn
      (t.tryMapMember expression name) supply := by
  cases hmember : expression.member? with
  | none =>
    simpa [Traversal.tryMapMember, Traversal.mapMember, Fluent.given, hmember] using h
  | some m =>
    have hmappings : t.mappings.insert m name = Mappings.ofGiven (given ++ [(m, name)]) := by
      rw [h.mappings_eq, Mappings.ofGiven_concat]
    simp only [Traversal.tryMapMember, Traversal.mapMember, Fluent.given, hmember]
    exact ⟨h.environment_eq, h.family_eq, hmappings, h.drawn_eq⟩

end Position

mutual

/-- A call adds the names that it gives and the labels that it draws. -/
theorem Position.after_apply : {given : List (Member × String)} → {drawn : UInt64} →
    {t : Traversal ρ} → {supply : Supply} → Position environment family given drawn t supply →
    (call : Fluent ρ) →
    Position environment family (given ++ call.given) (drawn + call.labels)
      (apply Traversal.toAnonymous t call supply).1 (apply Traversal.toAnonymous t call supply).2
  | _, _, _, _, h, .append step => by
    simpa only [Fluent.given, labels, List.append_nil, UInt64.add_zero, apply_append] using
      h.addStep step
  | _, _, _, _, h, .mark => by
    simpa only [Fluent.given, labels, List.append_nil, apply_mark] using h.drawLabel.addStep _
  | _, _, _, _, h, .nest step body => by
    -- the body gives names to the nested traversal only, but draws labels of the family
    have hbody := h.toAnonymous.after_applyAll body
    have hafter : Position environment family _ _ _ _ :=
      ⟨h.environment_eq, h.family_eq, h.mappings_eq, hbody.drawn_eq⟩
    simpa only [Fluent.given, labels, List.append_nil, apply_nest] using hafter.addStep _
  | _, _, _, _, h, .mapMember expression name => by
    simpa only [labels, UInt64.add_zero, apply_mapMember] using h.tryMapMember expression name
  | _, _, _, _, h, .cast => by
    simpa only [Fluent.given, labels, List.append_nil, UInt64.add_zero, apply_cast] using h

/-- Calls add the names that they give and the labels that they draw. -/
theorem Position.after_applyAll : {given : List (Member × String)} → {drawn : UInt64} →
    {t : Traversal ρ} → {supply : Supply} → Position environment family given drawn t supply →
    (calls : List (Fluent ρ)) →
    Position environment family (given ++ givenAll calls) (drawn + labelsAll calls)
      (applyAll Traversal.toAnonymous t calls supply).1
      (applyAll Traversal.toAnonymous t calls supply).2
  | _, _, _, _, h, [] => by
    simpa [labelsAll, applyAll_nil] using h
  | _, _, _, _, h, call :: rest => by
    have hrest := (h.after_apply call).after_applyAll rest
    rw [applyAll_cons]
    simpa [labelsAll, UInt64.add_assoc] using hrest

end

theorem built_eq (graph : String) (environment : Environment ρ) (calls : List (Fluent ρ))
    (supply : Supply) :
    built graph environment calls supply =
      applyAll Traversal.toAnonymous (Traversal.create graph environment supply).1 calls
        (Traversal.create graph environment supply).2 := rfl

theorem position_built (graph : String) (environment : Environment ρ) (calls : List (Fluent ρ))
    (supply : Supply) :
    Position environment supply.drawn.size (givenAll calls) (labelsAll calls)
      (built graph environment calls supply).1 (built graph environment calls supply).2 := by
  have h := (position_create graph environment supply).after_applyAll calls
  rwa [List.nil_append, UInt64.zero_add] at h

/-! ## Programs -/

mutual

/-- The calls of a program that do the same. -/
def program : Fluent ρ → List (Call ρ)
  | append step => [.append step]
  | mark => [.mark ""]
  | nest step body => [.nest step (programAll body)]
  | mapMember expression name => [.mapMember expression name]
  | cast => []

def programAll : List (Fluent ρ) → List (Call ρ)
  | [] => []
  | call :: rest => call.program ++ programAll rest

end

mutual

/-- No name is turned down. -/
def IsAccepted : Fluent ρ → Prop
  | nest _ body => AreAccepted body
  | mapMember expression _ => expression.member?.isSome
  | append _ | mark | cast => True

def AreAccepted : List (Fluent ρ) → Prop
  | [] => True
  | call :: rest => call.IsAccepted ∧ AreAccepted rest

end

mutual

theorem runAll_program (kept : String → Option (Traversal ρ)) (t : Traversal ρ) (bench : Bench) :
    (call : Fluent ρ) → call.IsAccepted → ∃ labels,
      Call.runAll kept t call.program bench =
        (.ok (apply Traversal.toAnonymous t call bench.supply).1,
          ⟨(apply Traversal.toAnonymous t call bench.supply).2, labels⟩)
  | .append step, _ => ⟨_, rfl⟩
  | .mark, _ => ⟨_, rfl⟩
  | .nest step body, h => by
    rcases runAll_programAll kept t.toAnonymous bench body h with ⟨labels, hbody⟩
    refine ⟨labels, ?_⟩
    rw [program, Call.runAll_cons, Call.run_nest, hbody, apply_nest]
    rfl
  | .mapMember expression name, h => by
    rcases Option.isSome_iff_exists.mp h with ⟨m, hmember⟩
    refine ⟨bench.labels, ?_⟩
    rw [program, Call.runAll_cons, Call.run_mapMember, apply_mapMember]
    simp [Traversal.tryMapMember, Traversal.mapMember, hmember, Call.runAll_nil]
  | .cast, _ => ⟨bench.labels, rfl⟩

/-- A program makes the same traversal, unless a name is turned down. -/
theorem runAll_programAll (kept : String → Option (Traversal ρ)) (t : Traversal ρ)
    (bench : Bench) : (calls : List (Fluent ρ)) → AreAccepted calls → ∃ labels,
      Call.runAll kept t (programAll calls) bench =
        (.ok (applyAll Traversal.toAnonymous t calls bench.supply).1,
          ⟨(applyAll Traversal.toAnonymous t calls bench.supply).2, labels⟩)
  | [], _ => ⟨bench.labels, rfl⟩
  | call :: rest, h => by
    rcases runAll_program kept t bench call h.1 with ⟨labels, hcall⟩
    rw [programAll, Call.runAll_append, hcall, applyAll_cons]
    exact runAll_programAll kept _ ⟨_, labels⟩ rest h.2

end

end Fluent

end Gremlin
