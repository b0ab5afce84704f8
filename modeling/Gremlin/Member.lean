import Gremlin.Text.Debug
import Std.Data.TreeMap

/-!
# Members

A member is named together with the logical type that declares it. Members are ordered by type
and then by name.
-/

namespace Gremlin

/-- A member of a logical element type. -/
structure Member where
  owner : String
  name : String
deriving DecidableEq, Inhabited

namespace Member

instance : Ord Member := ⟨compareLex (compareOn owner) (compareOn name)⟩

instance : Std.TransOrd Member :=
  inferInstanceAs (Std.TransCmp (compareLex (compareOn owner) (compareOn name)))

instance : Std.LawfulEqOrd Member where
  eq_of_compare {a b} h := by
    obtain ⟨ho, hn⟩ := Ordering.then_eq_eq.1 (h : (compare a.owner b.owner).then _ = .eq)
    cases a; cases b
    simp_all [compareOn]

/-- The type and the name with a point between them. -/
def text (m : Member) : String := m.owner ++ "." ++ m.name

def debug (m : Member) : String :=
  Text.debugRecord "MemberRef"
    [("owner", Text.debugString m.owner), ("member", Text.debugString m.name)]

end Member

/-- Names given to members in place of the model's. -/
abbrev Mappings := Std.TreeMap Member String

end Gremlin
