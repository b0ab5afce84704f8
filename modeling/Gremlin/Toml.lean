/-!
# TOML values

What a TOML document says, as far as settings are concerned: no setting is a number, a date or a
time, so of numbers it is kept only whether they can be read at all, and of dates and times only
that they are some.
-/

namespace Gremlin

/-- A TOML value. -/
inductive Toml where
  | text (s : String)
  /-- A number that was written in the right form. It cannot be read if it is too large or has
  other characters than digits. -/
  | number (readable : Bool)
  | bool (b : Bool)
  | moment
  | array (items : List Toml)
  | table (entries : List (String × Toml))
deriving Inhabited

namespace Toml

/-- The entry of a table under a key. -/
def entry? (entries : List (String × Toml)) (key : String) : Option Toml := entries.lookup key

mutual

/-- All numbers in the value can be read. -/
def isReadable : Toml → Bool
  | number readable => readable
  | array items => allReadable items
  | table entries => entriesReadable entries
  | text _ | bool _ | moment => true

def allReadable : List Toml → Bool
  | [] => true
  | item :: rest => item.isReadable && allReadable rest

def entriesReadable : List (String × Toml) → Bool
  | [] => true
  | (_, value) :: rest => value.isReadable && entriesReadable rest

end

end Toml

end Gremlin
