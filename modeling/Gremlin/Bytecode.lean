import Gremlin.Resolution
import Gremlin.Value.Json
import Gremlin.Value.Nesting

/-!
# Bytecode

Bytecode lists the resolved steps of a traversal as instructions. Steps that configure the
source of the traversal are listed apart from the others; both lists keep their order. A nested
traversal becomes nested bytecode, and some tokens have a typed form of their own.

Resolution hands nested traversals on but never makes new ones, so bytecode nests no deeper than
the traversal it is made from, and that is the bound its making runs on.
-/

namespace Gremlin

variable {ρ : Type}

mutual

/-- A traversal as lists of instructions. -/
structure Bytecode where
  /-- Instructions for the source of the traversal. -/
  source : List Instruction
  steps : List Instruction

/-- An operator with its arguments. -/
structure Instruction where
  operator : String
  arguments : List Argument

/-- A plain value or a nested traversal. -/
inductive Argument where
  | value (json : Json)
  | traversal (code : Bytecode)

end

namespace Bytecode

/-- The steps that configure the source of a traversal. -/
def isSourceStep (name : String) : Bool :=
  name == "withoutStrategies" || name == "withStrategies" || name == "withSideEffect"

/-- The bytecode of instructions, each in its list. -/
def ofInstructions (instructions : List Instruction) : Bytecode :=
  ⟨instructions.filter fun i => isSourceStep i.operator,
   instructions.filter fun i => !isSourceStep i.operator⟩

/-- A typed value. -/
def typed (type : String) (value : Json) : Json :=
  Json.ofFields [("@type", .text type), ("@value", value)]

/-- Cardinalities and members of `T` are typed, other tokens are plain text. -/
def ofToken (word : String) : Json :=
  if word = "single" ∨ word = "list" ∨ word = "set" then typed "g:Cardinality" (.text word)
  else
    match word.toList with
    | 'T' :: '.' :: name => typed "g:T" (.text (String.ofList name))
    | _ => .text word

/-- The argument for a parameter, given the bytecode of nested traversals. -/
def argument (nested : Traversal ρ → Except Error Bytecode) : Value ρ → Except Error Argument
  | .traversal t => (nested t).map .traversal
  | .token word => .ok (.value (ofToken word))
  | .member m => .error (.unknownMapping m.text)
  | .elementType t => .error (.unknownMapping t)
  | v => .ok (.value v.toJson)

def arguments (nested : Traversal ρ → Except Error Bytecode) :
    List (Value ρ) → Except Error (List Argument)
  | [] => .ok []
  | v :: rest => do
    let first ← argument nested v
    return first :: (← arguments nested rest)

/-- The instructions for resolved steps. -/
def instructions (nested : Traversal ρ → Except Error Bytecode) :
    List (Step ρ) → Except Error (List Instruction)
  | [] => .ok []
  | s :: rest => do
    let first ← arguments nested s.parameters
    return ⟨s.name, first⟩ :: (← instructions nested rest)

/-- The instructions for steps, each resolved when its turn comes. -/
def resolved (nested : Traversal ρ → Except Error Bytecode) (scope : Scope) :
    List (Step ρ) → Except Error (List Instruction)
  | [] => .ok []
  | s :: rest => do
    let first ← instructions nested (← s.resolve scope)
    return first ++ (← resolved nested scope rest)

/-- The bytecode of a traversal with fewer than `levels` levels below it. -/
def within : (levels : Nat) → Traversal ρ → Except Error Bytecode
  | 0, _ => .ok ⟨[], []⟩
  | levels + 1, t => (resolved (within levels) t.scope t.steps.toList).map ofInstructions

end Bytecode

/-- The bytecode of a traversal. -/
def Traversal.bytecode (t : Traversal ρ) : Except Error Bytecode :=
  Bytecode.within (t.nesting + 1) t

/-! ## JSON form -/

mutual

/-- The typed form in which bytecode is sent; the list for the source is left out if empty. -/
def Bytecode.toJson : Bytecode → Json
  | ⟨source, steps⟩ =>
    let listed := [("step", Json.array (instructionRows steps))]
    Bytecode.typed "g:Bytecode"
      (Json.ofFields (match source with
        | [] => listed
        | _ :: _ => ("source", .array (instructionRows source)) :: listed))

/-- The operator and the arguments of each instruction in a row. -/
def instructionRows : List Instruction → List Json
  | [] => []
  | ⟨operator, arguments⟩ :: rest =>
    .array (.text operator :: argumentItems arguments) :: instructionRows rest

def argumentItems : List Argument → List Json
  | [] => []
  | argument :: rest => argument.toJson :: argumentItems rest

def Argument.toJson : Argument → Json
  | .value json => json
  | .traversal code => code.toJson

end

end Gremlin
