import Gremlin.Bytecode
import Gremlin.Proofs.Draft

/-!
# Resolved trees

Resolving a traversal with all traversals nested in it leaves a tree: a graph with resolved
steps, whose parameters are values to be written, keys, words, and trees again. What scripts and
bytecode say about a traversal they say about its tree.

`Traversal.tree` resolves step by step, what is nested in a step before the next step, so of
several names that have no meaning it reports the one that is met first.
-/

namespace Gremlin

mutual

/-- A parameter of a resolved step. -/
inductive Tree.Part (ρ : Type) where
  | value (b : Bindable ρ)
  | key (name : String)
  | token (word : String)
  | nested (tree : Tree ρ)

/-- A resolved step. -/
structure Tree.Step (ρ : Type) where
  name : String
  parts : List (Tree.Part ρ)

/-- A resolved traversal. -/
structure Tree (ρ : Type) where
  graph : String
  steps : List (Tree.Step ρ)

end

variable {ρ : Type}

namespace Tree.Part

/-- The parameter that is a 32-bit integer. -/
def int (n : Int32) : Tree.Part ρ := .value (.int n)

/-- The parameter that is a 64-bit integer. -/
def long (n : Int64) : Tree.Part ρ := .value (.long n)

/-- The integer that a parameter is, of either width. -/
def integer? : Tree.Part ρ → Option Int64
  | .value b => b.val.integer?
  | _ => none

end Tree.Part

/-! ## Resolving whole traversals -/

/-- A resolved parameter, given what nested traversals resolve to. -/
def Value.part (nested : Traversal ρ → Except Error (Tree ρ)) :
    Value ρ → Except Error (Tree.Part ρ)
  | .traversal t => (nested t).map .nested
  | .key name => .ok (.key name)
  | .token word => .ok (.token word)
  | .member m => .error (.unknownMapping m.text)
  | .elementType t => .error (.unknownMapping t)
  | .null => .ok (.value .null)
  | .bool b => .ok (.value (.bool b))
  | .int n => .ok (.value (.int n))
  | .long n => .ok (.value (.long n))
  | .float x => .ok (.value (.float x))
  | .text s => .ok (.value (.text s))
  | .entity e => .ok (.value (.entity e))

namespace Tree

section Resolving

variable (nested : Traversal ρ → Except Error (Tree ρ))

/-- A step that is resolved itself, given what nested traversals resolve to. -/
def ofStep (s : Gremlin.Step ρ) : Except Error (Tree.Step ρ) :=
  (s.parameters.mapM (Value.part nested)).map (⟨s.name, ·⟩)

/-- The steps that a step resolves to. -/
def expanded (scope : Scope) (s : Gremlin.Step ρ) : Except Error (List (Tree.Step ρ)) := do
  (← s.resolve scope).mapM (ofStep nested)

/-- Steps, each resolved when its turn comes. -/
def resolved (scope : Scope) (raw : List (Gremlin.Step ρ)) : Except Error (List (Tree.Step ρ)) :=
  (raw.mapM (expanded nested scope)).map List.flatten

end Resolving

/-- The tree of a traversal with fewer than `levels` levels below it. -/
def within : (levels : Nat) → Traversal ρ → Except Error (Tree ρ)
  | 0, t => .ok ⟨t.graph, []⟩
  | levels + 1, t => (resolved (within levels) t.scope t.steps.toList).map (⟨t.graph, ·⟩)

end Tree

/-- The tree of resolved steps of a traversal, or the error of the first name without meaning. -/
def Traversal.tree (t : Traversal ρ) : Except Error (Tree ρ) := Tree.within (t.nesting + 1) t

/-! ## What is written for a tree -/

namespace Tree

mutual

/-- The graph and the steps, separated by points. -/
def pieces : Tree ρ → List (Piece ρ)
  | ⟨graph, steps⟩ => .fixed graph :: Piece.separated "." (!graph.isEmpty) (stepGroups steps)

def stepGroups : List (Tree.Step ρ) → List (List (Piece ρ))
  | [] => []
  | s :: rest => s.pieces :: stepGroups rest

/-- The name and the parameters in parentheses. -/
def Step.pieces : Tree.Step ρ → List (Piece ρ)
  | ⟨name, parts⟩ =>
    .fixed name :: .fixed "(" :: (Piece.separated ", " false (partGroups parts) ++ [.fixed ")"])

def partGroups : List (Tree.Part ρ) → List (List (Piece ρ))
  | [] => []
  | p :: rest => p.pieces :: partGroups rest

def Part.pieces : Tree.Part ρ → List (Piece ρ)
  | .value b => [.value b]
  | .key name => [.fixed (Text.quoted '"' name)]
  | .token word => [.fixed word]
  | .nested tree => tree.pieces

end

/-! ## Properties of all levels -/

section Every

variable (onStep : Tree.Step ρ → Prop) (onValue : Bindable ρ → Prop)

mutual

/-- Something holds of every step and something of every value, at every level. -/
def Every : Tree ρ → Prop
  | ⟨_, steps⟩ => everyStep steps

def everyStep : List (Tree.Step ρ) → Prop
  | [] => True
  | s :: rest => s.Every ∧ everyStep rest

def Step.Every : Tree.Step ρ → Prop
  | ⟨name, parts⟩ => onStep ⟨name, parts⟩ ∧ everyPart parts

def everyPart : List (Tree.Part ρ) → Prop
  | [] => True
  | p :: rest => p.Every ∧ everyPart rest

def Part.Every : Tree.Part ρ → Prop
  | .value b => onValue b
  | .key _ | .token _ => True
  | .nested tree => tree.Every

end

theorem everyStep_iff (steps : List (Tree.Step ρ)) :
    everyStep onStep onValue steps ↔ ∀ s ∈ steps, s.Every onStep onValue := by
  induction steps with
  | nil => simp [everyStep]
  | cons s rest ih => simp [everyStep, ih]

theorem everyPart_iff (parts : List (Tree.Part ρ)) :
    everyPart onStep onValue parts ↔ ∀ p ∈ parts, p.Every onStep onValue := by
  induction parts with
  | nil => simp [everyPart]
  | cons p rest ih => simp [everyPart, ih]

section Always

variable {onStep : Tree.Step ρ → Prop} {onValue : Bindable ρ → Prop}

mutual

/-- What holds of all steps and values there may be holds at every level. -/
theorem every_of_forall (hstep : ∀ s, onStep s) (hvalue : ∀ b, onValue b) :
    (x : Tree ρ) → x.Every onStep onValue
  | ⟨_, steps⟩ => everyStep_of_forall hstep hvalue steps

theorem everyStep_of_forall (hstep : ∀ s, onStep s) (hvalue : ∀ b, onValue b) :
    (steps : List (Tree.Step ρ)) → everyStep onStep onValue steps
  | [] => trivial
  | ⟨_, parts⟩ :: rest =>
    ⟨⟨hstep _, everyPart_of_forall hstep hvalue parts⟩, everyStep_of_forall hstep hvalue rest⟩

theorem everyPart_of_forall (hstep : ∀ s, onStep s) (hvalue : ∀ b, onValue b) :
    (parts : List (Tree.Part ρ)) → everyPart onStep onValue parts
  | [] => trivial
  | .value b :: rest => ⟨hvalue b, everyPart_of_forall hstep hvalue rest⟩
  | .key _ :: rest => ⟨trivial, everyPart_of_forall hstep hvalue rest⟩
  | .token _ :: rest => ⟨trivial, everyPart_of_forall hstep hvalue rest⟩
  | .nested x :: rest =>
    ⟨every_of_forall hstep hvalue x, everyPart_of_forall hstep hvalue rest⟩

end

end Always

end Every

/-! ## Rewriting all levels -/

section Rewrite

variable (onStep : Tree.Step ρ → Tree.Step ρ) (onValue : Bindable ρ → Bindable ρ)

mutual

/-- Rewrites every value and every step, a step after what is in it, at every level. -/
def rewrite : Tree ρ → Tree ρ
  | ⟨graph, steps⟩ => ⟨graph, rewriteSteps steps⟩

def rewriteSteps : List (Tree.Step ρ) → List (Tree.Step ρ)
  | [] => []
  | s :: rest => s.rewrite :: rewriteSteps rest

def Step.rewrite : Tree.Step ρ → Tree.Step ρ
  | ⟨name, parts⟩ => onStep ⟨name, rewriteParts parts⟩

def rewriteParts : List (Tree.Part ρ) → List (Tree.Part ρ)
  | [] => []
  | p :: rest => p.rewrite :: rewriteParts rest

def Part.rewrite : Tree.Part ρ → Tree.Part ρ
  | .value b => .value (onValue b)
  | .key name => .key name
  | .token word => .token word
  | .nested tree => .nested tree.rewrite

end

theorem rewriteSteps_eq (steps : List (Tree.Step ρ)) :
    rewriteSteps onStep onValue steps = steps.map (Step.rewrite onStep onValue) := by
  induction steps with
  | nil => rfl
  | cons s rest ih => simp [rewriteSteps, ih]

theorem rewriteParts_eq (parts : List (Tree.Part ρ)) :
    rewriteParts onStep onValue parts = parts.map (Part.rewrite onStep onValue) := by
  induction parts with
  | nil => rfl
  | cons p rest ih => simp [rewriteParts, ih]

/-- The step with its parameters rewritten. -/
def Step.rewriteBelow (s : Tree.Step ρ) : Tree.Step ρ :=
  ⟨s.name, s.parts.map (Part.rewrite onStep onValue)⟩

theorem Step.rewrite_eq_below (s : Tree.Step ρ) :
    s.rewrite onStep onValue = onStep (s.rewriteBelow onStep onValue) := by
  rcases s with ⟨name, parts⟩
  rw [Step.rewrite, rewriteParts_eq, Step.rewriteBelow]

end Rewrite

section EveryRewrite

variable {onStep : Tree.Step ρ → Tree.Step ρ} {onValue : Bindable ρ → Bindable ρ}
  {before after : Tree.Step ρ → Prop} {beforeValue afterValue : Bindable ρ → Prop}

mutual

/-- What rewriting a step makes hold, given that it holds in the rewritten parameters, it makes
hold at every level. -/
theorem every_rewrite
    (hstep : ∀ s, before s →
      everyPart after afterValue (s.rewriteBelow onStep onValue).parts →
      (onStep (s.rewriteBelow onStep onValue)).Every after afterValue)
    (hvalue : ∀ b, beforeValue b → afterValue (onValue b)) :
    (x : Tree ρ) → x.Every before beforeValue → (x.rewrite onStep onValue).Every after afterValue
  | ⟨_, steps⟩, h => everyStep_rewriteSteps hstep hvalue steps h

theorem everyStep_rewriteSteps
    (hstep : ∀ s, before s →
      everyPart after afterValue (s.rewriteBelow onStep onValue).parts →
      (onStep (s.rewriteBelow onStep onValue)).Every after afterValue)
    (hvalue : ∀ b, beforeValue b → afterValue (onValue b)) :
    (steps : List (Tree.Step ρ)) → everyStep before beforeValue steps →
      everyStep after afterValue (rewriteSteps onStep onValue steps)
  | [], _ => trivial
  | ⟨name, parts⟩ :: rest, ⟨⟨hbefore, hparts⟩, hrest⟩ => by
    have hbelow := everyPart_rewriteParts hstep hvalue parts hparts
    rw [rewriteParts_eq] at hbelow
    refine ⟨?_, everyStep_rewriteSteps hstep hvalue rest hrest⟩
    rw [Step.rewrite_eq_below]
    exact hstep ⟨name, parts⟩ hbefore hbelow

theorem everyPart_rewriteParts
    (hstep : ∀ s, before s →
      everyPart after afterValue (s.rewriteBelow onStep onValue).parts →
      (onStep (s.rewriteBelow onStep onValue)).Every after afterValue)
    (hvalue : ∀ b, beforeValue b → afterValue (onValue b)) :
    (parts : List (Tree.Part ρ)) → everyPart before beforeValue parts →
      everyPart after afterValue (rewriteParts onStep onValue parts)
  | [], _ => trivial
  | .value b :: rest, ⟨hb, hrest⟩ =>
    ⟨hvalue b hb, everyPart_rewriteParts hstep hvalue rest hrest⟩
  | .key _ :: rest, ⟨_, hrest⟩ => ⟨trivial, everyPart_rewriteParts hstep hvalue rest hrest⟩
  | .token _ :: rest, ⟨_, hrest⟩ => ⟨trivial, everyPart_rewriteParts hstep hvalue rest hrest⟩
  | .nested x :: rest, ⟨hx, hrest⟩ =>
    ⟨every_rewrite hstep hvalue x hx, everyPart_rewriteParts hstep hvalue rest hrest⟩

end

end EveryRewrite

end Tree

/-! ## Trees as traversals -/

/-- A step list of steps that were appended in order. -/
def StepList.ofList (steps : List (Step ρ)) : StepList ρ := ⟨(steps.mapIdx Node.mk).reverse⟩

@[simp] theorem StepList.toList_ofList (steps : List (Step ρ)) : (ofList steps).toList = steps := by
  simp [ofList, toList, List.mapIdx_eq_zipIdx_map, Function.comp_def]

namespace Tree

section AsTraversal

variable (environment : Environment ρ)

mutual

/-- The traversal that says what a tree says, in one environment on all levels. -/
def traversal : Tree ρ → Traversal ρ
  | ⟨graph, steps⟩ => ⟨graph, .ofList (rawSteps steps), environment, 0, ∅⟩

def rawSteps : List (Tree.Step ρ) → List (Gremlin.Step ρ)
  | [] => []
  | s :: rest => s.raw :: rawSteps rest

def Step.raw : Tree.Step ρ → Gremlin.Step ρ
  | ⟨name, parts⟩ => ⟨name, rawParts parts⟩

def rawParts : List (Tree.Part ρ) → List (Value ρ)
  | [] => []
  | p :: rest => p.raw :: rawParts rest

def Part.raw : Tree.Part ρ → Value ρ
  | .value b => b.val
  | .key name => .key name
  | .token word => .token word
  | .nested tree => .traversal tree.traversal

end

@[simp] theorem environment_traversal (x : Tree ρ) : (x.traversal environment).environment =
    environment := by
  cases x
  rfl

end AsTraversal

end Tree

/-! ## An example -/

/-- A traversal with work for most of the ready-made rules. -/
def Traversal.assorted : Traversal Unit :=
  ⟨"g", .ofList
    [⟨"has", [.key "name", .null]⟩,
     ⟨"property", [.token "single", .token "single", .key "age", .long 3]⟩,
     ⟨"where", [.traversal ⟨"__", .ofList [⟨"hasLabel", []⟩, ⟨"skip", [.long 2]⟩], default, 0, ∅⟩]⟩,
     ⟨"limit", [.long 10]⟩],
    { options := { omitSingle := true }, pipeline := () }, 0, ∅⟩

/-- The tree of the traversal. -/
def Tree.assorted : Tree Unit :=
  ⟨"g",
    [⟨"has", [.key "name", .value .null]⟩,
     ⟨"property", [.token "single", .token "single", .key "age", .long 3]⟩,
     ⟨"where", [.nested ⟨"__", [⟨"hasLabel", []⟩, ⟨"skip", [.long 2]⟩]⟩]⟩,
     ⟨"limit", [.long 10]⟩]⟩

end Gremlin
