/-!
# Supplies

Building a traversal draws on a supply: every appended step takes a new node identity, every
traversal started from nothing opens a family, and every family hands out step labels in one
sequence `_a`, …, `_z`, `_ba`, … that its branches share. A family counts its labels in 64 bits, so
after the last number the sequence starts over.
-/

namespace Gremlin

/-- What has been handed out so far. -/
structure Supply where
  /-- The next node identity. -/
  nextNode : Nat := 0
  /-- How many labels each family has drawn, modulo `2 ^ 64`. -/
  drawn : Array UInt64 := #[]
deriving Inhabited

/-- A computation that draws on a supply. -/
abbrev Building := StateM Supply

namespace Supply

/-- The letter for a digit in base 26. -/
def letter (digit : Nat) : Char := Char.ofNat ('a'.toNat + digit)

/-- The digits of a number in base 26 as letters, first digit first. -/
def letters (n : Nat) : List Char :=
  if n < 26 then [letter n] else letters (n / 26) ++ [letter (n % 26)]
termination_by n

/-- The label with number `n` of every family. -/
def identifier (n : Nat) : String := String.ofList ('_' :: letters n)

/-- A new node identity. -/
def freshNode : Building Nat := fun s => (s.nextNode, { s with nextNode := s.nextNode + 1 })

/-- A new family that has drawn nothing. -/
def newFamily : Building Nat := fun s => (s.drawn.size, { s with drawn := s.drawn.push 0 })

/-- The next label of a family. -/
def drawLabel (family : Nat) : Building String := fun s =>
  (identifier (s.drawn.getD family 0).toNat, { s with drawn := s.drawn.modify family (· + 1) })

end Supply

end Gremlin
