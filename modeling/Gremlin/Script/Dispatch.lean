import Gremlin.Script.Rule

/-!
# Dispatch

Compiling dispatches the traversal as a value. An atom goes through the rules of its tag, the
latest first, and what no rule takes care of is encoded: a step as its name and its parameters,
a traversal as its graph and its resolved steps, a literal as itself. Parts and substitutes are
dispatched from the top again.

Rules may hand on anything, the atom at hand included, so dispatching is bounded twice: at most
`maxDepth` substitutions may lead to an atom, and at most `maxNesting` dispatches of any sort
may be under way above one. The second bound is the argument `room` that the recursion runs on:
the room that is left, one more than the dispatches that may still nest.
-/

namespace Gremlin

variable {ρ : Type}

/-- Registered rules, earlier ones first. -/
structure Dialect (ρ : Type) where
  layers : List (Tag × Rule ρ)

instance : Inhabited (Dialect ρ) := ⟨⟨[]⟩⟩

namespace Dialect

/-- The dialect without rules. -/
def plain : Dialect ρ := ⟨[]⟩

/-- Puts a rule on top of those registered for its tag. -/
def withRule (d : Dialect ρ) (tag : Tag) (rule : Rule ρ) : Dialect ρ :=
  ⟨d.layers ++ [(tag, rule)]⟩

/-- Puts rules on top, in order. -/
def withRules (d : Dialect ρ) (rules : List (Tag × Rule ρ)) : Dialect ρ := ⟨d.layers ++ rules⟩

/-- The rules registered for a tag, the latest first. -/
def chain (d : Dialect ρ) (tag : Tag) : List (Rule ρ) :=
  (d.layers.filterMap fun layer => if layer.1 = tag then some layer.2 else none).reverse

end Dialect

/-! ## Encoding -/

namespace Encoding

/-- Dispatches atoms with a mark in front of each, the first excepted if there is nothing to
separate it from. -/
def separated (mark : String) (dispatch : Atom ρ → Pass) : (separate : Bool) → List (Atom ρ) → Pass
  | _, [] => .done
  | separate, a :: rest =>
    (if separate then Pass.push mark else .done).andThen
      ((dispatch a).andThen (separated mark dispatch true rest))

/-- The name and the parameters in parentheses. -/
def step (dispatch : Atom ρ → Pass) (s : Step ρ) : Pass :=
  (Pass.push s.name).andThen ((Pass.push "(").andThen
    ((separated ", " dispatch false (s.parameters.map .value)).andThen (Pass.push ")")))

/-- Resolves and dispatches steps one by one. -/
def steps (dispatch : Atom ρ → Pass) (scope : Scope) : (separate : Bool) → List (Step ρ) → Pass
  | _, [] => .done
  | separate, s :: rest =>
    match s.resolve scope with
    | .error e => .fail e
    | .ok resolved =>
      (separated "." dispatch separate (resolved.map .step)).andThen
        (steps dispatch scope (separate || !resolved.isEmpty) rest)

/-- The graph and the resolved steps, separated by points. -/
def traversal (dispatch : Atom ρ → Pass) (t : Traversal ρ) : Pass :=
  (Pass.push t.graph).andThen (steps dispatch t.scope (!t.graph.isEmpty) t.steps.toList)

/-- A value. Once a step is resolved there are no logical names among its values. -/
def value (mode : Mode) (dispatch : Atom ρ → Pass) : Value ρ → Pass
  | .traversal t => traversal dispatch t
  | .key name => Pass.write (·.key name)
  | .token word => Pass.push word
  | .member m => .fail (.unknownMapping m.text)
  | .elementType t => .fail (.unknownMapping t)
  | literal => Pass.write (·.literal mode literal)

/-- What is written for an atom that no rule takes care of. -/
def atom (mode : Mode) (dispatch : Atom ρ → Pass) : Atom ρ → Pass
  | .step s => step dispatch s
  | .value v => value mode dispatch v

end Encoding

/-! ## Dispatching -/

namespace Dispatch

/-- The largest number of substitutions that may lead to an atom. -/
def maxDepth : Nat := 64

/-- The largest number of dispatches that may be under way above an atom. -/
def maxNesting : Nat := 256

/-- Hands an atom to the topmost of the rules, where `restart` dispatches an atom at a given
depth. -/
def proceed (mode : Mode) (restart : Nat → Atom ρ → Pass) (depth : Nat) :
    List (Rule ρ) → Atom ρ → Pass
  | [], atom => Encoding.atom mode (restart depth) atom
  | rule :: below, atom =>
    let chain : Chain ρ :=
      { depth
        overridden := proceed mode restart depth below
        recurse := fun a =>
          if maxDepth < depth + 1 then .fail (.serializationLoop (depth + 1))
          else restart (depth + 1) a
        dispatch := restart depth }
    rule.run mode chain atom

/-- Dispatches an atom with some room left for nested dispatches. -/
def within (dialect : Dialect ρ) (mode : Mode) : (room : Nat) → (depth : Nat) → Atom ρ → Pass
  | 0, _, _ => .fail (.serializationLoop (maxNesting + 1))
  | room + 1, depth, atom =>
    proceed mode (within dialect mode room) depth (dialect.chain atom.tag) atom

end Dispatch

namespace Dialect

/-- The script of a traversal, with literals inlined or bound. -/
def compile (d : Dialect ρ) (t : Traversal ρ) (inlined : Bool) : Except Error Script :=
  let mode : Mode := ⟨inlined, t.environment.options⟩
  match Dispatch.within d mode (Dispatch.maxNesting + 1) 0 (.value (.traversal t)) {} with
  | (.ok (), o) => .ok o.script
  | (.error e, _) => .error e

end Dialect

end Gremlin
