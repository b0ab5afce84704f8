import Gremlin.Toml.Statement

/-!
# Documents

The statements of a document build a tree of tables. A key is assigned once, and a table is
written out once: by its header, or by the points between the keys of assignments. A table that
is only passed through by the path of a header may still be written out, and headers may add
tables below it. An inline table or an array of values is closed.
-/

namespace Gremlin.Toml

/-- How a table came to be. -/
inductive Origin where
  /-- Written out by a header, or the document itself. -/
  | written
  /-- Passed through by the path of a header. -/
  | passed
  /-- Opened by points between keys. -/
  | dotted
deriving DecidableEq

/-- What stands under a key while a document is read. -/
inductive Branch where
  | value (v : Toml)
  | table (origin : Origin) (entries : List (String × Branch))
  /-- The items of an array of tables, the newest first. -/
  | items (newest : List (String × Branch)) (older : List (List (String × Branch)))

namespace Branch

/-- Replaces what stands under a key. -/
def put (key : String) (branch : Branch) (entries : List (String × Branch)) :
    List (String × Branch) :=
  if (entries.lookup key).isSome then
    entries.map fun e => if e.1 = key then (key, branch) else e
  else entries ++ [(key, branch)]

/-- Changes the table that a path leads to from a table, and opens tables on the way with the
given origin. Points between keys lead through no table that a header has written out. -/
def change (opening : Origin)
    (f : Origin → List (String × Branch) → Option (List (String × Branch))) :
    (path : List String) → (origin : Origin) → List (String × Branch) →
      Option (List (String × Branch))
  | [], origin, entries => f origin entries
  | k :: path, _, entries =>
    match entries.lookup k with
    | none => do
      let inner ← change opening f path opening []
      return put k (.table opening inner) entries
    | some (.table origin inner) =>
      if opening = .dotted ∧ origin = .written then none
      else do
        let inner ← change opening f path origin inner
        return put k (.table origin inner) entries
    | some (.items newest older) => do
      let newest ← change opening f path .written newest
      return put k (.items newest older) entries
    | some (.value _) => none

/-- Assigns a value below the current table. The table that holds the key must be the current
one itself or one that points between keys have opened. -/
def assign (path : List String) (key : String) (v : Toml) (entries : List (String × Branch)) :
    Option (List (String × Branch)) :=
  change .dotted (fun origin entries =>
      if (origin == .dotted) == path.isEmpty then none
      else if (entries.lookup key).isSome then none
      else some (put key (.value v) entries))
    path .written entries

/-- Writes out the table for a key by a header. -/
def writeTable (key : String) (entries : List (String × Branch)) :
    Option (List (String × Branch)) :=
  match entries.lookup key with
  | none => some (put key (.table .written []) entries)
  | some (.table .passed inner) => some (put key (.table .written inner) entries)
  | some _ => none

/-- Adds an item to the array of tables for a key. -/
def writeItem (key : String) (entries : List (String × Branch)) :
    Option (List (String × Branch)) :=
  match entries.lookup key with
  | none => some (put key (.items [] []) entries)
  | some (.items newest older) => some (put key (.items [] (newest :: older)) entries)
  | some _ => none

mutual

/-- The value that a branch stands for. -/
def toml : Branch → Toml
  | value v => v
  | table _ entries => .table (tomlEntries entries)
  | items newest older => .array (tomlItems older [.table (tomlEntries newest)])

def tomlEntries : List (String × Branch) → List (String × Toml)
  | [] => []
  | (key, branch) :: rest => (key, branch.toml) :: tomlEntries rest

/-- The items in the order in which they were written, in front of later ones. -/
def tomlItems : List (List (String × Branch)) → List Toml → List Toml
  | [], later => later
  | entries :: older, later => tomlItems older (.table (tomlEntries entries) :: later)

end

end Branch

/-- A document in the making: what it says so far, and the path of the current table. -/
structure Draft where
  entries : List (String × Branch) := []
  current : List String := []

namespace Draft

/-- Adds a statement, or refuses it. -/
def add (draft : Draft) : Statement → Option Draft
  | .assign path key v => do
    let entries ← Branch.change .passed (fun _ => Branch.assign path key v) draft.current .written
      draft.entries
    return { draft with entries }
  | .table path key => do
    let entries ← Branch.change .passed (fun _ => Branch.writeTable key) path .written draft.entries
    return ⟨entries, path ++ [key]⟩
  | .item path key => do
    let entries ← Branch.change .passed (fun _ => Branch.writeItem key) path .written draft.entries
    return ⟨entries, path ++ [key]⟩

end Draft

/-- The entries of the table that a document is. -/
def ofDocument? (s : String) : Option (List (String × Toml)) := do
  let statements ← Statement.ofDocument s
  let draft ← statements.foldlM Draft.add {}
  return Branch.tomlEntries draft.entries

end Gremlin.Toml
