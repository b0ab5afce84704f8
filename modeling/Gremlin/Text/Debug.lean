import Gremlin.Text.Extending
import Gremlin.Text.Unprintable

/-!
# Debug texts

Values are shown to a developer in a fixed notation: a quoted text shows every character that
has no shape of its own by its code point, lists stand in brackets, records name their fields
in braces. The combinators here fix the punctuation; what is shown is up to each type.
-/

namespace Gremlin.Text

/-- One character of a quoted text. -/
def debugChar (c : Char) : List Char :=
  if c = '"' then ['\\', '"']
  else if c = '\\' then ['\\', '\\']
  else if c = '\n' then ['\\', 'n']
  else if c = '\r' then ['\\', 'r']
  else if c = '\t' then ['\\', 't']
  else if c.toNat = 0 then ['\\', '0']
  else if isUnprintable c || isExtending c then
    "\\u\x7b".toList ++ Nat.toDigits 16 c.toNat ++ "\x7d".toList
  else [c]

/-- A quoted text. -/
def debugString (s : String) : String :=
  String.ofList ('"' :: s.toList.flatMap debugChar ++ ['"'])

/-- Items between two brackets, a comma and a space between items. -/
def debugItems (opening closing : String) (items : List String) : String :=
  opening ++ String.intercalate ", " items ++ closing

/-- A list of shown items. -/
def debugList (items : List String) : String := debugItems "[" "]" items

/-- A set of shown items. -/
def debugSet (items : List String) : String := debugItems "\x7b" "\x7d" items

/-- A map of shown keys and values. -/
def debugMap (entries : List (String × String)) : String :=
  debugSet (entries.map fun e => e.1 ++ ": " ++ e.2)

/-- A name with one argument in parentheses. Under an empty name the argument is marked as a
tuple by a comma after it. -/
def debugCall (name argument : String) : String :=
  name ++ "(" ++ argument ++ (if name.isEmpty then ",)" else ")")

/-- A record with its fields. -/
def debugRecord (name : String) (fields : List (String × String)) : String :=
  name ++ debugItems " \x7b " " \x7d" (fields.map fun f => f.1 ++ ": " ++ f.2)

/-- A record of which only some fields are shown. -/
def debugOpenRecord (name : String) (fields : List (String × String)) : String :=
  name ++ debugItems " \x7b " ", .. \x7d" (fields.map fun f => f.1 ++ ": " ++ f.2)

def debugBool (b : Bool) : String := if b then "true" else "false"

end Gremlin.Text
