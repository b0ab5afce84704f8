import Gremlin.Proofs.BytecodeScript
import Gremlin.Proofs.Erasure
import Gremlin.Pipeline

/-!
# What compiling depends on

Compiling a traversal reads what it says, that is, what is left when options, pipelines, families
and identities are erased at all levels, and besides one flag: whether the environment of the whole
traversal leaves out `single`. Rules may be handed anything, compare it, write it and dispatch it,
but they see no more than that either.

* `Action.run_erased`, `Rule.run_erased`: rules do the same with what is erased and what is not;
* `Dispatch.within_erased`: and so does a whole pass;
* `Traversal.bytecode_erased`: bytecode does not even depend on the flag;
* `Dialect.compile_independent`: two traversals that say the same compile to the same.
-/

namespace Gremlin

variable {ρ : Type}

/-! ## Output -/

/-- Whether literals are inlined, and the one flag that is read. -/
def Mode.erased (mode : Mode) : Mode :=
  ⟨mode.inlined, { omitSingle := mode.options.omitSingle }⟩

theorem Parameters.keyOf_erased (v : Value ρ) : keyOf v.erased = keyOf v := by
  cases v with
  | entity e =>
    show (⟨.entity, (Value.entity e).erased.toJson⟩ : Key) = _
    rw [Value.toJson_erased]
    rfl
  | traversal t =>
    show (⟨.traversal, (Value.traversal t).erased.toJson⟩ : Key) = _
    rw [Value.toJson_erased]
    rfl
  | _ => rfl

namespace Output

theorem bind_erased (o : Output) (v : Value ρ) : o.bind v.erased = o.bind v := by
  simp only [bind, Parameters.bind, Parameters.keyOf_erased, Value.toJson_erased]

theorem inlineText_erased (v : Value ρ) : inlineText v.erased = inlineText v := by
  cases v with
  | entity e => exact congrArg Json.compact (Value.toJson_erased (.entity e))
  | traversal t => exact congrArg Json.compact (Value.toJson_erased (.traversal t))
  | _ => rfl

theorem literal_erased (mode : Mode) (o : Output) (v : Value ρ) :
    o.literal mode.erased v.erased = o.literal mode v := by
  rw [literal, literal, inlineText_erased, bind_erased]
  rfl

end Output

/-! ## Programs -/

namespace Atom

def erased : Atom ρ → Atom Unit
  | step s => .step s.erased
  | value v => .value v.erased

theorem tag_erased (a : Atom ρ) : a.erased.tag = a.tag := by
  cases a with
  | step s => exact congrArg Tag.step s.name_erased
  | value v => exact congrArg Tag.value v.kind_erased

theorem same_erased (a b : Atom ρ) : a.erased.same b.erased = a.same b := by
  cases a with
  | step s =>
    cases b with
    | step t => exact s.same_erased t
    | value v => rfl
  | value v =>
    cases b with
    | step t => rfl
    | value w => exact v.same_erased w

end Atom

namespace Target

def erased : Target ρ → Target Unit
  | self => .self
  | step s => .step s.erased
  | value v => .value v.erased
  | renamed name => .renamed name
  | parameter index => .parameter index

theorem atom?_erased (target : Target ρ) (self : Atom ρ) :
    target.erased.atom? self.erased = (target.atom? self).map Atom.erased := by
  cases target with
  | renamed name =>
    cases self with
    | step s =>
      show some (Atom.step ⟨name, s.erased.parameters⟩) = some (.step (Step.erased ⟨name, _⟩))
      rw [Step.erased_mk, s.parameters_erased]
    | value v => rfl
  | parameter index =>
    cases self with
    | step s =>
      show (s.erased.parameters[index]?).map Atom.value = ((s.parameters[index]?).map _).map _
      rw [s.parameters_erased, List.getElem?_map]
      cases s.parameters[index]? <;> rfl
    | value v => rfl
  | _ => cases self <;> rfl

end Target

namespace Condition

def erased : Condition ρ → Condition Unit
  | inlined => .inlined
  | omitSingle => .omitSingle
  | depthBelow bound => .depthBelow bound
  | equals target => .equals target.erased
  | arity count => .arity count
  | textEnds ending => .textEnds ending

theorem holds_erased (condition : Condition ρ) (mode : Mode) (depth : Nat) (self : Atom ρ)
    (o : Output) :
    condition.erased.holds mode.erased depth self.erased o = condition.holds mode depth self o := by
  cases condition with
  | equals target =>
    show (target.erased.atom? self.erased).any (·.same self.erased) = (target.atom? self).any _
    rw [target.atom?_erased]
    cases target.atom? self with
    | none => rfl
    | some a => exact a.same_erased self
  | arity count =>
    cases self with
    | step s => simp [holds, erased, Atom.erased]
    | value v => rfl
  | _ => rfl

end Condition

namespace Action

mutual

/-- The action with what its targets carry erased. -/
def erased : Action ρ → Action Unit
  | push text => .push text
  | key name => .key name
  | depth => .depth
  | tag => .tag
  | bind target => .bind target.erased
  | literal target => .literal target.erased
  | overridden target => .overridden target.erased
  | recurse target => .recurse target.erased
  | dispatch target => .dispatch target.erased
  | rangeError context value max => .rangeError context value max
  | choose condition yes no => .choose condition.erased (erasedAll yes) (erasedAll no)
  | attempt body rescue => .attempt (erasedAll body) (erasedAll rescue)

def erasedAll : List (Action ρ) → List (Action Unit)
  | [] => []
  | action :: rest => action.erased :: erasedAll rest

end

end Action

/-- The second chain does with erased atoms what the first one does with atoms. -/
structure Chain.IsErased (chain : Chain ρ) (chain' : Chain Unit) : Prop where
  depth_eq : chain'.depth = chain.depth
  overridden_eq : ∀ a, chain'.overridden a.erased = chain.overridden a
  recurse_eq : ∀ a, chain'.recurse a.erased = chain.recurse a
  dispatch_eq : ∀ a, chain'.dispatch a.erased = chain.dispatch a

namespace Action

variable {chain : Chain ρ} {chain' : Chain Unit}

theorem onTarget_erased (target : Target ρ) (self : Atom ρ) {use : Atom ρ → Pass}
    {use' : Atom Unit → Pass} (h : ∀ a, use' a.erased = use a) :
    onTarget target.erased self.erased use' = onTarget target self use := by
  rw [onTarget, onTarget, target.atom?_erased]
  cases target.atom? self with
  | none => rfl
  | some a => exact h a

theorem onValue_erased (target : Target ρ) (self : Atom ρ) {use : Value ρ → Output → Output}
    {use' : Value Unit → Output → Output} (h : ∀ v, use' v.erased = use v) :
    onValue target.erased self.erased use' = onValue target self use := by
  rw [onValue, onValue, target.atom?_erased]
  cases target.atom? self with
  | none => rfl
  | some a =>
    cases a with
    | step s => rfl
    | value v => exact congrArg Pass.write (h v)

mutual

theorem run_erased (h : chain.IsErased chain') (mode : Mode) (self : Atom ρ) :
    (action : Action ρ) →
    action.erased.run mode.erased chain' self.erased = action.run mode chain self
  | push _ | key _ | rangeError _ _ _ => rfl
  | depth => congrArg (fun depth : Nat => Pass.push (toString depth)) h.depth_eq
  | tag => congrArg (fun tag : Tag => Pass.push tag.debug) self.tag_erased
  | bind target => onValue_erased target self fun v => funext fun o => o.bind_erased v
  | literal target => onValue_erased target self fun v => funext fun o => o.literal_erased mode v
  | overridden target => onTarget_erased target self h.overridden_eq
  | recurse target => onTarget_erased target self h.recurse_eq
  | dispatch target => onTarget_erased target self h.dispatch_eq
  | choose condition yes no => by
    have hyes := runAll_erased h mode self yes
    have hno := runAll_erased h mode self no
    funext o
    simp only [erased, run, h.depth_eq, condition.holds_erased, hyes, hno]
  | attempt body rescue => by
    rw [erased, run, run, runAll_erased h mode self body, runAll_erased h mode self rescue]

/-- A program does the same with what is erased and what is not. -/
theorem runAll_erased (h : chain.IsErased chain') (mode : Mode) (self : Atom ρ) :
    (actions : List (Action ρ)) →
    runAll mode.erased chain' self.erased (erasedAll actions) = runAll mode chain self actions
  | [] => rfl
  | action :: rest => by
    rw [erasedAll, runAll, runAll, run_erased h mode self action, runAll_erased h mode self rest]

end

end Action

/-! ## Rules -/

namespace Step

theorem integerAt_erased (s : Step ρ) (index : Nat) :
    s.erased.integerAt index = s.integerAt index := by
  rw [integerAt, integerAt, s.parameters_erased, List.getElem?_map]
  cases s.parameters[index]? with
  | none => rfl
  | some v => exact v.integer?_erased

theorem excess?_erased (s : Step ρ) (max : Int64) : s.erased.excess? max = s.excess? max := by
  have hintegers : Value.integer? ∘ Value.erased = (Value.integer? : Value ρ → Option Int64) :=
    funext Value.integer?_erased
  rw [excess?, excess?, s.parameters_erased, List.filterMap_map, hintegers]

end Step

namespace StepRule

def erased : StepRule ρ → StepRule Unit
  | absentForNull => .absentForNull
  | nothingForNoLabel => .nothingForNoLabel
  | dropSingle => .dropSingle
  | rangeForSkip => .rangeForSkip
  | replaced step => .replaced step.erased
  | atMost max => .atMost max
  | program actions => .program (Action.erasedAll actions)

/-- Nothing that is erased decides about a substitute. -/
theorem substitute?_erased (mode : Mode) (s : Step ρ) (rule : StepRule ρ) :
    rule.erased.substitute? mode.erased s.erased = (rule.substitute? mode s).map Step.erased := by
  obtain ⟨name, parameters⟩ := s
  rw [Step.erased_mk]
  -- what a rule looks at is the number of parameters, a kind, a token or an integer
  cases rule with
  | absentForNull =>
    match parameters with
    | [] | [_] => rfl
    | [_, w] => cases w <;> rfl
    | _ :: w :: _ :: _ => cases w <;> rfl
  | nothingForNoLabel => cases parameters <;> rfl
  | dropSingle =>
    cases parameters with
    | nil => rfl
    | cons v rest =>
      cases v with
      | token word =>
        have hflag : mode.erased.options.omitSingle = mode.options.omitSingle := rfl
        simp only [erased, substitute?, List.map_cons, Value.erased, hflag]
        split
        · rw [Option.map_some, Step.erased_mk]
        · rfl
      | _ => rfl
  | rangeForSkip =>
    simp only [erased, substitute?]
    rw [← Step.erased_mk, Step.integerAt_erased]
    cases Step.integerAt ⟨name, parameters⟩ 0 <;> rfl
  | _ => rfl

end StepRule

variable {chain : Chain ρ} {chain' : Chain Unit}

theorem StepRule.run_erased (h : chain.IsErased chain') (mode : Mode) (s : Step ρ)
    (rule : StepRule ρ) :
    rule.erased.run mode.erased chain' s.erased = rule.run mode chain s := by
  have hsubstitute := substitute?_erased mode s rule
  have hpass : chain'.overridden (.step s.erased) = chain.overridden (.step s) :=
    h.overridden_eq (.step s)
  cases rule with
  | program actions => exact Action.runAll_erased h mode (.step s) actions
  | atMost max =>
    simp only [erased, run, s.excess?_erased, s.name_erased, hpass]
  | _ =>
    simp only [erased] at hsubstitute
    simp only [erased, run, hsubstitute]
    cases substitute? mode s _ with
    | none => exact hpass
    | some t => exact h.recurse_eq (.step t)

namespace ValueRule

def erased : ValueRule ρ → ValueRule Unit
  | narrowed => .narrowed
  | program actions => .program (Action.erasedAll actions)

theorem run_erased (h : chain.IsErased chain') (mode : Mode) (v : Value ρ) (rule : ValueRule ρ) :
    rule.erased.run mode.erased chain' v.erased = rule.run mode chain v := by
  cases rule with
  | program actions => exact Action.runAll_erased h mode (.value v) actions
  | narrowed =>
    cases v with
    | long n =>
      simp only [erased, run, Value.erased]
      split
      · exact h.recurse_eq (.value (.int n.toInt32))
      · rfl
    | _ => exact h.overridden_eq (.value _)

end ValueRule

namespace Rule

def erased : Rule ρ → Rule Unit
  | step rule => .step rule.erased
  | value rule => .value rule.erased
  | any actions => .any (Action.erasedAll actions)

/-- A rule does the same with what is erased and what is not. -/
theorem run_erased (h : chain.IsErased chain') (mode : Mode) (rule : Rule ρ) (a : Atom ρ) :
    rule.erased.run mode.erased chain' a.erased = rule.run mode chain a := by
  cases rule with
  | step rule =>
    cases a with
    | step s => exact rule.run_erased h mode s
    | value v => exact h.overridden_eq (.value v)
  | value rule =>
    cases a with
    | step s => exact h.overridden_eq (.step s)
    | value v => exact rule.run_erased h mode v
  | any actions =>
    cases a with
    | step s => exact Action.runAll_erased h mode (.step s) actions
    | value v => exact Action.runAll_erased h mode (.value v) actions

end Rule

/-! ## Encoding -/

namespace Encoding

variable {dispatch : Atom ρ → Pass} {dispatch' : Atom Unit → Pass}

theorem separated_erased (h : ∀ a, dispatch' a.erased = dispatch a) (mark : String)
    (separate : Bool) (atoms : List (Atom ρ)) :
    separated mark dispatch' separate (atoms.map Atom.erased) =
      separated mark dispatch separate atoms := by
  induction atoms generalizing separate with
  | nil => rfl
  | cons a rest ih => rw [List.map_cons, separated, separated, h, ih]

theorem step_erased (h : ∀ a, dispatch' a.erased = dispatch a) (s : Step ρ) :
    step dispatch' s.erased = step dispatch s := by
  have hparameters : s.erased.parameters.map Atom.value =
      (s.parameters.map Atom.value).map Atom.erased := by
    rw [s.parameters_erased, List.map_map, List.map_map]
    rfl
  rw [step, step, hparameters, separated_erased h, s.name_erased]

theorem steps_erased (h : ∀ a, dispatch' a.erased = dispatch a) (scope : Scope) (separate : Bool)
    (raw : List (Step ρ)) :
    steps dispatch' scope separate (raw.map Step.erased) = steps dispatch scope separate raw := by
  induction raw generalizing separate with
  | nil => rfl
  | cons s rest ih =>
    rw [List.map_cons, steps, steps, s.resolve_erased]
    cases s.resolve scope with
    | error e => rfl
    | ok resolved =>
      have hatoms : (resolved.map Step.erased).map Atom.step =
          (resolved.map Atom.step).map Atom.erased := by
        rw [List.map_map, List.map_map]
        rfl
      simp only [Except.map, hatoms, separated_erased h, ih, List.isEmpty_map]

theorem traversal_erased (h : ∀ a, dispatch' a.erased = dispatch a) (t : Traversal ρ) :
    traversal dispatch' t.erased = traversal dispatch t := by
  rw [traversal, traversal, t.graph_erased, t.scope_erased, t.toList_erased, steps_erased h]

theorem atom_erased (h : ∀ a, dispatch' a.erased = dispatch a) (mode : Mode) (a : Atom ρ) :
    atom mode.erased dispatch' a.erased = atom mode dispatch a := by
  cases a with
  | step s => exact step_erased h s
  | value v =>
    have hliteral : Pass.write (·.literal mode.erased v.erased) = .write (·.literal mode v) :=
      congrArg Pass.write (funext fun o => o.literal_erased mode v)
    cases v with
    | traversal t => exact traversal_erased h t
    | key _ | token _ | member _ | elementType _ => rfl
    | _ => exact hliteral

end Encoding

/-! ## Dispatching -/

/-- The dialect with what its rules carry erased. -/
def Dialect.erased (d : Dialect ρ) : Dialect Unit :=
  ⟨d.layers.map fun layer => (layer.1, layer.2.erased)⟩

theorem Dialect.chain_erased (d : Dialect ρ) (tag : Tag) :
    d.erased.chain tag = (d.chain tag).map Rule.erased := by
  rw [chain, chain, erased, List.filterMap_map, List.map_reverse, List.map_filterMap]
  -- tags are compared, and rules are erased one by one
  congr 2
  funext layer
  by_cases htag : layer.1 = tag
  · simp [htag]
  · simp [htag]

namespace Dispatch

theorem proceed_erased (mode : Mode) {restart : Nat → Atom ρ → Pass}
    {restart' : Nat → Atom Unit → Pass} (h : ∀ depth a, restart' depth a.erased = restart depth a)
    (depth : Nat) (rules : List (Rule ρ)) (a : Atom ρ) :
    proceed mode.erased restart' depth (rules.map Rule.erased) a.erased =
      proceed mode restart depth rules a := by
  induction rules generalizing a with
  | nil => exact Encoding.atom_erased (h depth) mode a
  | cons rule below ih =>
    -- a rule reaches the rules below by the induction, and a new start by what is assumed
    rw [List.map_cons, proceed, proceed]
    refine Rule.run_erased ?_ mode rule a
    constructor
    case depth_eq => rfl
    case overridden_eq => exact ih
    case recurse_eq =>
      intro b
      show (if maxDepth < depth + 1 then _ else restart' (depth + 1) b.erased) = _
      rw [h]
    case dispatch_eq => exact h depth

/-- A pass does the same with what is erased and what is not, however rules and encoder call one
another. -/
theorem within_erased (d : Dialect ρ) (mode : Mode) (room depth : Nat) (a : Atom ρ) :
    within d.erased mode.erased room depth a.erased = within d mode room depth a := by
  induction room generalizing depth a with
  | zero => rfl
  | succ room ih =>
    rw [within, within, a.tag_erased, d.chain_erased]
    exact proceed_erased mode ih depth _ a

end Dispatch

/-- Of all that is erased, compiling reads one flag. -/
theorem Dialect.compile_erased (d : Dialect ρ) (t : Traversal ρ) (inlined : Bool) :
    d.compile t inlined =
      match Dispatch.within d.erased ⟨inlined, { omitSingle := t.environment.options.omitSingle }⟩
        (Dispatch.maxNesting + 1) 0 (.value (.traversal t.erased)) {} with
      | (.ok (), o) => .ok o.script
      | (.error e, _) => .error e := by
  have hpass := Dispatch.within_erased d ⟨inlined, t.environment.options⟩ (Dispatch.maxNesting + 1)
    0 (.value (.traversal t))
  rw [compile, ← hpass]
  rfl

/-! ## Bytecode -/

namespace Bytecode

variable {nested : Traversal ρ → Except Error Bytecode}
  {nested' : Traversal Unit → Except Error Bytecode}

theorem argument_erased (h : ∀ t, nested' t.erased = nested t) (v : Value ρ) :
    argument nested' v.erased = argument nested v := by
  cases v with
  | traversal t => exact congrArg (Except.map Argument.traversal) (h t)
  | entity e => exact congrArg (fun json => Except.ok (Argument.value json)) e.toJson_erased
  | _ => rfl

theorem instruction_erased (h : ∀ t, nested' t.erased = nested t) (s : Step ρ) :
    instruction nested' s.erased = instruction nested s := by
  rw [instruction, instruction, s.name_erased, s.parameters_erased, arguments_eq_mapM,
    arguments_eq_mapM, mapM_map_eq (argument_erased h)]

theorem expanded_erased (h : ∀ t, nested' t.erased = nested t) (scope : Scope) (s : Step ρ) :
    expanded nested' scope s.erased = expanded nested scope s := by
  rw [expanded, expanded, s.resolve_erased]
  cases s.resolve scope with
  | error e => rfl
  | ok resolved =>
    exact mapM_map_eq (instruction_erased h) resolved

theorem within_erased (levels : Nat) (t : Traversal ρ) :
    within levels t.erased = within levels t := by
  induction levels generalizing t with
  | zero => rfl
  | succ levels ih =>
    rw [within, within, resolved_eq_mapM, resolved_eq_mapM, t.scope_erased, t.toList_erased,
      mapM_map_eq (expanded_erased ih t.scope)]

end Bytecode

/-- Bytecode is made of what a traversal says. -/
theorem Traversal.bytecode_erased (t : Traversal ρ) : t.erased.bytecode = t.bytecode := by
  rw [bytecode, bytecode, t.nesting_erased, Bytecode.within_erased]

/-! ## Two traversals that say the same -/

namespace Dialect

/-- Traversals that say the same, at all levels, become the same bytecode, and the same script or
error if one flag of the outermost environments agrees. All other options, all options of nested
traversals, pipelines, families and identities may be different wherever there are any, also in
what the rules carry; and of the labels that a family has drawn nothing is known to a traversal. -/
theorem compile_independent {σ : Type} {t : Traversal ρ} {t' : Traversal σ}
    (h : t.erased = t'.erased) :
    t.bytecode = t'.bytecode ∧
      (t.environment.options.omitSingle = t'.environment.options.omitSingle →
        ∀ (d : Dialect ρ) (d' : Dialect σ), d.erased = d'.erased →
          ∀ inlined, d.compile t inlined = d'.compile t' inlined) := by
  constructor
  · rw [← t.bytecode_erased, ← t'.bytecode_erased, h]
  · intro hflag d d' hdialect inlined
    rw [compile_erased, compile_erased, h, hflag, hdialect]

/-- A traversal with one nested in a step and in an entity, made in two environments. -/
def nestedTwice (outer inner : Environment Pipeline) (family : Nat) : Traversal Pipeline :=
  let nested : Traversal Pipeline := ⟨"__", ⟨[⟨family, .out ["knows"]⟩]⟩, inner, family + 1, ∅⟩
  let liked : Entity Pipeline := ⟨"P", [("likes", .traversal nested)]⟩
  ⟨"g", ⟨[⟨family + 2, .lacking nested⟩, ⟨family + 1, .inject [.entity liked]⟩]⟩, outer, family, ∅⟩

/-- Other pipelines, other families and other options but for the one flag, and a rule that binds
and dispatches what is nested. -/
theorem compile_independent_nestedTwice :
    let inlining : Environment Pipeline := { options := ⟨true, false⟩, pipeline := .empty }
    let omitting : Environment Pipeline := { options := ⟨true, true⟩, pipeline := .empty }
    let t := nestedTwice default default 0
    let t' := nestedTwice inlining omitting 7
    let d := cosmos.withRule (.step "not") (.any [.bind (.parameter 0), .dispatch (.parameter 0)])
    t.erased = t'.erased ∧ t.environment.options.omitSingle = t'.environment.options.omitSingle ∧
      t.bytecode = t'.bytecode ∧ ∀ inlined, d.compile t inlined = d.compile t' inlined := by
  intro inlining omitting t t' d
  have herased : t.erased = t'.erased := rfl
  obtain ⟨hbytecode, hcompile⟩ := compile_independent herased
  exact ⟨herased, rfl, hbytecode, hcompile rfl d d rfl⟩

end Dialect

end Gremlin
