import Gremlin.Resolution
import Gremlin.Script.Output

/-!
# Dialect rules

A dialect of the script language is made of rules, each registered for the steps of one name or
the values of one kind. A rule sees the step or value at hand, the output, and a chain, and may
write, hand something on to the rule below it, or have something dispatched from the top again,
either in place of what it was given or as a part of it. A rule for steps that is handed a
value, or the other way round, hands it on.

Rules are data: besides the ready-made ones there are programs of actions. A pass keeps what
was written even where a part of it failed, since a program may catch the failure.
-/

namespace Gremlin

variable {ρ : Type}

/-! ## What is dispatched -/

/-- A step or a value. -/
inductive Atom (ρ : Type) where
  | step (s : Step ρ)
  | value (v : Value ρ)

/-- What rules are registered for. -/
inductive Tag where
  | step (name : String)
  | value (kind : Kind)
deriving DecidableEq

def Tag.debug : Tag → String
  | step name => Text.debugCall "Step" (Text.debugString name)
  | value kind => Text.debugCall "Value" kind.name

namespace Atom

def tag : Atom ρ → Tag
  | step s => .step s.name
  | value v => .value v.kind

/-- Equality of steps with steps and of values with values. -/
def same : Atom ρ → Atom ρ → Bool
  | step s, step t => s == t
  | value v, value w => v == w
  | _, _ => false

end Atom

/-! ## Passes -/

/-- A part of a compilation: it adds to the output and may fail, which does not undo what it
wrote. -/
abbrev Pass := Output → Except Error Unit × Output

namespace Pass

/-- Does nothing. -/
def done : Pass := fun o => (.ok (), o)

/-- Changes the output. -/
def write (change : Output → Output) : Pass := fun o => (.ok (), change o)

def push (s : String) : Pass := write (·.push s)

def fail (e : Error) : Pass := fun o => (.error e, o)

/-- Runs one pass after another unless the first fails. -/
def andThen (first second : Pass) : Pass := fun o =>
  match first o with
  | (.ok (), o) => second o
  | (.error e, o) => (.error e, o)

/-- Runs the second pass on the output of the first if that fails. -/
def orElse (first second : Pass) : Pass := fun o =>
  match first o with
  | (.ok (), o) => (.ok (), o)
  | (.error _, o) => second o

theorem andThen_assoc (a b c : Pass) : (a.andThen b).andThen c = a.andThen (b.andThen c) := by
  funext o
  simp only [andThen]
  rcases a o with ⟨_ | _, _⟩ <;> rfl

@[simp] theorem done_andThen (a : Pass) : done.andThen a = a := rfl

@[simp] theorem andThen_done (a : Pass) : a.andThen done = a := by
  funext o
  simp only [andThen, done]
  rcases a o with ⟨_ | _, _⟩ <;> rfl

end Pass

/-- What a rule may do with an atom other than write it. -/
structure Chain (ρ : Type) where
  /-- The number of substitutions that led here. -/
  depth : Nat
  /-- Hands an atom to the rule below. -/
  overridden : Atom ρ → Pass
  /-- Dispatches an atom in place of the one at hand. -/
  recurse : Atom ρ → Pass
  /-- Dispatches an atom as a part of the one at hand. -/
  dispatch : Atom ρ → Pass

/-! ## Programs of actions -/

/-- What an action is about. -/
inductive Target (ρ : Type) where
  /-- The atom at hand. -/
  | self
  | step (s : Step ρ)
  | value (v : Value ρ)
  /-- The step at hand under another name. -/
  | renamed (name : String)
  /-- A parameter of the step at hand. -/
  | parameter (index : Nat)

/-- The atom that a target stands for, if there is one. -/
def Target.atom? (target : Target ρ) (self : Atom ρ) : Option (Atom ρ) :=
  match target, self with
  | .self, _ => some self
  | .step s, _ => some (.step s)
  | .value v, _ => some (.value v)
  | .renamed name, .step s => some (.step { s with name })
  | .parameter index, .step s => s.parameters[index]?.map .value
  | _, _ => none

/-- What a program may ask. -/
inductive Condition (ρ : Type) where
  /-- Literals are written into the text. -/
  | inlined
  /-- `single` is left out. -/
  | omitSingle
  | depthBelow (bound : Nat)
  /-- The target is the same as the atom at hand. -/
  | equals (target : Target ρ)
  /-- The atom at hand is a step with so many parameters. -/
  | arity (count : Nat)
  /-- The text written so far ends so. -/
  | textEnds (ending : String)

/-- Whether a condition holds. -/
def Condition.holds (condition : Condition ρ) (mode : Mode) (depth : Nat) (self : Atom ρ)
    (o : Output) : Bool :=
  match condition with
  | .inlined => mode.inlined
  | .omitSingle => mode.options.omitSingle
  | .depthBelow bound => depth < bound
  | .equals target => (target.atom? self).any (·.same self)
  | .arity count =>
    match self with
    | .step s => s.parameters.length == count
    | .value _ => false
  | .textEnds ending => ending.toList.isSuffixOf o.text.toList

/-- One action of a program. -/
inductive Action (ρ : Type) where
  | push (text : String)
  | key (name : String)
  /-- Writes the number of substitutions that led here. -/
  | depth
  /-- Writes what rules for the atom at hand are registered for. -/
  | tag
  | bind (target : Target ρ)
  | literal (target : Target ρ)
  | overridden (target : Target ρ)
  | recurse (target : Target ρ)
  | dispatch (target : Target ρ)
  | rangeError (context : String) (value max : Int64)
  | choose (condition : Condition ρ) (yes no : List (Action ρ))
  /-- Runs the rescue if the body fails; what the body wrote stays. -/
  | attempt (body rescue : List (Action ρ))

namespace Action

/-- Hands the atom of a target on, if there is one. -/
def onTarget (target : Target ρ) (self : Atom ρ) (use : Atom ρ → Pass) : Pass :=
  match target.atom? self with
  | some atom => use atom
  | none => Pass.done

/-- Hands the value of a target on, if it is one. -/
def onValue (target : Target ρ) (self : Atom ρ) (use : Value ρ → Output → Output) : Pass :=
  match target.atom? self with
  | some (.value v) => Pass.write (use v)
  | _ => Pass.done

mutual

def run (mode : Mode) (chain : Chain ρ) (self : Atom ρ) : Action ρ → Pass
  | push text => Pass.push text
  | key name => Pass.write (·.key name)
  | depth => Pass.push (toString chain.depth)
  | tag => Pass.push self.tag.debug
  | bind target => onValue target self fun v o => o.bind v
  | literal target => onValue target self fun v o => o.literal mode v
  | overridden target => onTarget target self chain.overridden
  | recurse target => onTarget target self chain.recurse
  | dispatch target => onTarget target self chain.dispatch
  | rangeError context value max => Pass.fail (.valueRange context value max)
  | choose condition yes no => fun o =>
    if condition.holds mode chain.depth self o then runAll mode chain self yes o
    else runAll mode chain self no o
  | attempt body rescue =>
    (runAll mode chain self body).orElse (runAll mode chain self rescue)

/-- Runs actions in order up to the first failure. -/
def runAll (mode : Mode) (chain : Chain ρ) (self : Atom ρ) : List (Action ρ) → Pass
  | [] => Pass.done
  | action :: rest => (run mode chain self action).andThen (runAll mode chain self rest)

end

end Action

/-! ## Rules -/

/-- A rule for steps. -/
inductive StepRule (ρ : Type) where
  /-- A filter for the value null asks for the absence of the key. -/
  | absentForNull
  /-- A label filter without labels keeps nothing. -/
  | nothingForNoLabel
  /-- A leading `single` is dropped where the options ask for it. -/
  | dropSingle
  /-- Skipping is written as a range without end. -/
  | rangeForSkip
  /-- Another step is written instead. -/
  | replaced (step : Step ρ)
  /-- No integer parameter may be above the maximum. -/
  | atMost (max : Int64)
  | program (actions : List (Action ρ))

/-- A rule for values. -/
inductive ValueRule (ρ : Type) where
  /-- A 64-bit integer is written as a 32-bit one, which it has to fit. -/
  | narrowed
  | program (actions : List (Action ρ))

/-- A rule for whatever it is handed, or for steps or values only. -/
inductive Rule (ρ : Type) where
  | step (rule : StepRule ρ)
  | value (rule : ValueRule ρ)
  | any (actions : List (Action ρ))

/-- The first integer parameter above a maximum. -/
def Step.excess? (s : Step ρ) (max : Int64) : Option Int64 :=
  (s.parameters.filterMap Value.integer?).find? (max < ·)

namespace StepRule

/-- What is dispatched in place of the step, if anything is. -/
def substitute? (mode : Mode) (s : Step ρ) : StepRule ρ → Option (Step ρ)
  | absentForNull =>
    match s.parameters with
    | [key, .null] => some ⟨"hasNot", [key]⟩
    | _ => none
  | nothingForNoLabel => if s.parameters.isEmpty then some Step.nothing else none
  | dropSingle =>
    match s.parameters with
    | .token word :: rest =>
      if word = "single" ∧ mode.options.omitSingle then some ⟨"property", rest⟩ else none
    | _ => none
  | rangeForSkip => (s.integerAt 0).map fun n => Step.range n (-1)
  | replaced step => some step
  | atMost _ | program _ => none

def run (mode : Mode) (chain : Chain ρ) (s : Step ρ) (rule : StepRule ρ) : Pass :=
  match rule with
  | program actions => Action.runAll mode chain (.step s) actions
  | atMost max =>
    match s.excess? max with
    | some n => Pass.fail (.valueRange s.name n max)
    | none => chain.overridden (.step s)
  | rule =>
    match rule.substitute? mode s with
    | some t => chain.recurse (.step t)
    | none => chain.overridden (.step s)

end StepRule

/-- The largest 32-bit integer. -/
def maxInt32 : Int64 := Int32.maxValue.toInt64

namespace ValueRule

def run (mode : Mode) (chain : Chain ρ) (v : Value ρ) : ValueRule ρ → Pass
  | narrowed =>
    match v with
    | .long n =>
      if Int32.minValue.toInt64 ≤ n ∧ n ≤ maxInt32 then chain.recurse (.value (.int n.toInt32))
      else Pass.fail (.valueRange "Long" n maxInt32)
    | v => chain.overridden (.value v)
  | program actions => Action.runAll mode chain (.value v) actions

end ValueRule

namespace Rule

/-- Handles an atom; one of the other sort goes to the rule below. -/
def run (mode : Mode) (chain : Chain ρ) (rule : Rule ρ) (atom : Atom ρ) : Pass :=
  match rule, atom with
  | step rule, .step s => rule.run mode chain s
  | value rule, .value v => rule.run mode chain v
  | any actions, atom => Action.runAll mode chain atom actions
  | _, atom => chain.overridden atom

end Rule

end Gremlin
