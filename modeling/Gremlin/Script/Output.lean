import Gremlin.Json.Text
import Gremlin.Options
import Gremlin.Text.Quoted
import Gremlin.Value.Json

/-!
# Script output

A script is text with bound parameters. Literals are either written into the text or bound to
parameters `P0`, `P1`, … in the order in which they first occur; values that are written alike,
that is, of one kind and one payload, share a parameter. A number is told apart by its bits, so
that it has one parameter whatever arithmetic says about it.
-/

namespace Gremlin

variable {ρ : Type}

/-- What a compilation is told besides the traversal. -/
structure Mode where
  /-- Write literals into the text. -/
  inlined : Bool
  /-- The options of the environment of the whole traversal. -/
  options : Options := {}
deriving DecidableEq

/-- What tells the values of parameters apart: the kind, and the JSON form or the bits. -/
structure Parameters.Key where
  kind : Kind
  payload : Json
deriving DecidableEq

/-- Bound parameters in the order of their first use, with the JSON form to send. -/
structure Parameters where
  bound : List (Parameters.Key × Json) := []
deriving Inhabited

namespace Parameters

/-- The key of a value. -/
def keyOf : Value ρ → Key
  | .float x => ⟨.float, .float x⟩
  | v => ⟨v.kind, v.toJson⟩

/-- The name of the parameter with number `n`. -/
def nameOf (n : Nat) : String := "P" ++ toString n

/-- The number of the parameter that holds a key. -/
def indexOf? (p : Parameters) (key : Key) : Option Nat := p.bound.findIdx? (·.1 = key)

/-- The name of the parameter for a value, which is a new one on first use. -/
def bind (p : Parameters) (v : Value ρ) : String × Parameters :=
  match p.indexOf? (keyOf v) with
  | some n => (nameOf n, p)
  | none => (nameOf p.bound.length, ⟨p.bound ++ [(keyOf v, v.toJson)]⟩)

/-- The names with the values to send, in order. -/
def rows (p : Parameters) : List (String × Json) :=
  p.bound.mapIdx fun n entry => (nameOf n, entry.2)

end Parameters

/-- Text and parameters written so far. -/
structure Output where
  text : String := ""
  parameters : Parameters := {}
deriving Inhabited

namespace Output

/-- Writes text as it is. -/
def push (o : Output) (s : String) : Output := { o with text := o.text ++ s }

/-- Writes the name of the parameter that holds a value. -/
def bind (o : Output) (v : Value ρ) : Output :=
  let (name, parameters) := o.parameters.bind v
  ⟨o.text ++ name, parameters⟩

/-- A value as it is written into the text. -/
def inlineText : Value ρ → String
  | .null => "null"
  | .bool b => if b then "true" else "false"
  | .int n => toString n
  | .long n => toString n
  | .float x => x.text
  | .text s => Text.quoted (Char.ofNat 39) s
  | v => v.toJson.compact

/-- Writes a value into the text or binds it. -/
def literal (mode : Mode) (o : Output) (v : Value ρ) : Output :=
  if mode.inlined then o.push (inlineText v) else o.bind v

/-- Writes a property key between double quotes. -/
def key (o : Output) (name : String) : Output := o.push (Text.quoted '"' name)

end Output

/-- A compiled script: its text and the values of its parameters, by name and in order. -/
structure Script where
  text : String
  parameters : List (String × Json)
deriving DecidableEq

/-- The script that an output amounts to. -/
def Output.script (o : Output) : Script := ⟨o.text, o.parameters.rows⟩

end Gremlin
