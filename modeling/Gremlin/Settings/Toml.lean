import Gremlin.Error
import Gremlin.Settings
import Gremlin.Toml.Document

/-!
# Settings in TOML

Settings are read from a table with the keys `name`, `exclude_strategies` and `options`, each of
which may be missing. Other keys are ignored, but their values have to be readable. The flags of
`options` may also be listed in an array, of which nothing after them is read, and a date in
their place sets none.
-/

namespace Gremlin

namespace Options

/-- Reads a flag that may be missing. -/
def flag? : Option Toml → Option Bool
  | none => some false
  | some (.bool b) => some b
  | some _ => none

/-- Reads options. -/
def ofToml? : Toml → Option Options
  | .table entries => do
    let others := entries.filter fun e =>
      e.1 != "inline_parameters" && e.1 != "workaround_tinkerpop_2112"
    let inlineParameters ← flag? (Toml.entry? entries "inline_parameters")
    let omitSingle ← flag? (Toml.entry? entries "workaround_tinkerpop_2112")
    if Toml.entriesReadable others then return { inlineParameters, omitSingle } else none
  | .array items => do
    return { inlineParameters := ← flag? items[0]?, omitSingle := ← flag? items[1]? }
  | .moment => some {}
  | _ => none

end Options

namespace Settings

/-- Reads a name that may be missing. -/
def name? : Option Toml → Option String
  | none => some "g"
  | some (.text s) => some s
  | some _ => none

/-- Reads a list of names that may be missing. -/
def names? : Option Toml → Option (List String)
  | none => some []
  | some (.array items) => items.mapM fun
    | .text s => some s
    | _ => none
  | some _ => none

/-- Reads settings from the entries of a document. -/
def ofEntries? (entries : List (String × Toml)) : Option Settings := do
  let others := entries.filter fun e =>
    e.1 != "name" && e.1 != "exclude_strategies" && e.1 != "options"
  let name ← name? (Toml.entry? entries "name")
  let excluded ← names? (Toml.entry? entries "exclude_strategies")
  let options ← match Toml.entry? entries "options" with
    | none => some {}
    | some options => Options.ofToml? options
  if Toml.entriesReadable others then return { name, excluded, options } else none

/-- Reads settings from a document. -/
def ofToml (document : String) : Except Error Settings :=
  match Toml.ofDocument? document with
  | none => .error (.invalidConfiguration "not a TOML document")
  | some entries =>
    match ofEntries? entries with
    | none => .error (.invalidConfiguration "a setting has the wrong type")
    | some settings => .ok settings

/-- Reads settings from the bytes of a file. -/
def ofBytes (bytes : ByteArray) : Except Error Settings :=
  match String.fromUTF8? bytes with
  | none => .error (.invalidConfiguration "the file is not text")
  | some document => ofToml document

end Settings

end Gremlin
