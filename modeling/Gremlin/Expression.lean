import Gremlin.Value.Debug

/-!
# Member expressions

An expression says which member a name is meant for. Only a member itself, or a member under
one conversion, names a member.
-/

namespace Gremlin

/-- An expression handed over by whoever writes queries. -/
inductive Expression (ρ : Type) where
  | member (m : Member)
  | convert (inner : Expression ρ)
  | constant (value : Value ρ)
  | call (method : String) (arguments : List (Expression ρ))

namespace Expression

variable {ρ : Type}

/-- The member that the expression names. -/
def member? : Expression ρ → Option Member
  | member m => some m
  | convert (member m) => some m
  | _ => none

mutual

def debug : Expression ρ → String
  | member m => Text.debugCall "Member" m.debug
  | convert inner => Text.debugCall "Convert" inner.debug
  | constant value => Text.debugCall "Constant" value.debug
  | call method arguments =>
    Text.debugRecord "Call"
      [("method", Text.debugString method), ("args", Text.debugList (debugAll arguments))]

def debugAll : List (Expression ρ) → List String
  | [] => []
  | x :: rest => x.debug :: debugAll rest

end

end Expression

end Gremlin
