/-!
# Positions at the end of messages

A message may end in the position that it is about, ` at line 3 column 7`. Such a position is
told apart from the message: its numbers are written plainly, and one on line 0 is no position
and is dropped. Numbers of more than 64 bits make no position, and the message is left as it is.
-/

namespace Gremlin.Text

/-- What is in front of an ending. -/
def beforeEnding? (ending text : List Char) : Option (List Char) :=
  if ending.isSuffixOf text then some (text.take (text.length - ending.length)) else none

/-- Splits the digits off the end of a text, which must have some, as a number. -/
def splitNumber? (text : List Char) : Option (List Char × Nat) :=
  let digits := (text.reverse.takeWhile Char.isDigit).reverse
  let n := Nat.ofDigitChars 10 digits 0
  if digits.isEmpty ∨ Nat.pow 2 64 ≤ n then none
  else some (text.take (text.length - digits.length), n)

/-- Splits the position off the end of a message: the message, the line and the column. -/
def splitPosition? (text : List Char) : Option (List Char × Nat × Nat) := do
  let (text, column) ← splitNumber? text
  let (text, line) ← splitNumber? (← beforeEnding? " column ".toList text)
  return (← beforeEnding? " at line ".toList text, line, column)

/-- A message with its position written plainly. -/
def plainPosition (message : String) : String :=
  match splitPosition? message.toList with
  | none => message
  | some (text, 0, _) => String.ofList text
  | some (text, line, column) =>
    String.ofList text ++ " at line " ++ toString line ++ " column " ++ toString column

end Gremlin.Text
