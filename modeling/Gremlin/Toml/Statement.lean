import Gremlin.Toml.Scalar

/-!
# Statements of TOML documents

A document is a list of statements, one a line: an assignment of a value to a path of keys, or
a header that says where the assignments after it belong. Arrays and inline tables may take
several lines and nest up to `maxNesting` deep; a path has `maxKeys` keys at most.

Values are read in rounds. An item or entry takes one round, a pair of brackets two, and both
take no fewer characters, so as many rounds as there are characters are enough.
-/

namespace Gremlin.Toml

/-- One statement of a document. The path leads to the table that holds the key. -/
inductive Statement where
  | assign (path : List String) (key : String) (value : Toml)
  /-- The assignments after it belong to the table of this path. -/
  | table (path : List String) (key : String)
  /-- The assignments after it belong to a new item of the array of this path. -/
  | item (path : List String) (key : String)

namespace Statement

/-- How deep arrays and inline tables may nest. -/
def maxNesting : Nat := 80

/-- How many keys a path may have. -/
def maxKeys : Nat := 80

/-- The character may be part of a key without quotes. -/
def isBare (c : Char) : Bool := c.isAlphanum || c = '_' || c = '-'

/-- Reads one key. -/
def key : Scan String := fun input =>
  match Scan.shortText input with
  | some result => some result
  | none =>
    let bare := input.takeWhile isBare
    if bare.isEmpty then none else some (String.ofList bare, input.drop bare.length)

/-- Reads at most so many keys with points between them, in reverse onto what was read. -/
def keys : (room : Nat) → (read : List String) → Scan (List String)
  | 0, _, _ => none
  | room + 1, read, input =>
    match key (Scan.skipBlanks input) with
    | none => none
    | some (k, rest) =>
      match Scan.skipBlanks rest with
      | '.' :: rest => keys room (k :: read) rest
      | rest => some (k :: read, rest)

/-- Reads a path and the key at its end. -/
def path : Scan (List String × String) := fun input =>
  match keys maxKeys [] input with
  | some (last :: before, rest) => some ((before.reverse, last), rest)
  | _ => none

/-- Drops a comment, if there is one, up to the end of the line. -/
def skipComment : List Char → List Char
  | '#' :: rest => rest.dropWhile Scan.isPlain
  | input => input

/-- Drops blanks, comments and line breaks. -/
def skipGap : (rounds : Nat) → List Char → List Char
  | 0, input => input
  | rounds + 1, input =>
    let rest := skipComment (Scan.skipBlanks input)
    match Scan.lineBreak rest with
    | some (_, rest) => skipGap rounds rest
    | none => rest

/-- Drops blanks, comments and line breaks as far as they go. -/
def skipGaps (input : List Char) : List Char := skipGap (input.length + 1) input

/-! ## Inline tables -/

/-- The entries of a table, with the tables that points between keys have opened told apart from
those that were written out. -/
inductive Entry where
  | value (v : Toml)
  | opened (entries : List (String × Entry))
deriving Inhabited

/-- Sets the value of a path among entries; a key is set once. -/
def setEntry (key : String) (value : Toml) :
    (path : List String) → List (String × Entry) → Option (List (String × Entry))
  | [], entries =>
    if (entries.lookup key).isSome then none else some (entries ++ [(key, .value value)])
  | k :: path, entries =>
    match entries.lookup k with
    | none => (setEntry key value path []).map fun inner => entries ++ [(k, .opened inner)]
    | some (.value _) => none
    | some (.opened inner) =>
      (setEntry key value path inner).map fun inner =>
        entries.map fun e => if e.1 = k then (k, .opened inner) else e

mutual

/-- The value that an entry stands for. -/
def Entry.toml : Entry → Toml
  | .value v => v
  | .opened entries => .table (tomlEntries entries)

def tomlEntries : List (String × Entry) → List (String × Toml)
  | [] => []
  | (key, entry) :: rest => (key, entry.toml) :: tomlEntries rest

end

/-! ## Values -/

mutual

/-- Reads a value inside so many open brackets. -/
def value : (rounds : Nat) → (nesting : Nat) → Scan Toml
  | 0, _, _ => none
  | rounds + 1, nesting, input =>
    match input with
    | '[' :: rest =>
      if nesting < maxNesting then items rounds (nesting + 1) [] rest else none
    | '\x7b' :: rest =>
      if nesting < maxNesting then entries rounds (nesting + 1) [] rest else none
    | _ =>
      match Scan.text input with
      | some (s, rest) => some (.text s, rest)
      | none => Scalar.scan input

/-- Reads the items of an array and its closing bracket, in reverse onto what was read. -/
def items : (rounds : Nat) → (nesting : Nat) → (read : List Toml) → Scan Toml
  | 0, _, _, _ => none
  | rounds + 1, nesting, read, input =>
    match skipGaps input with
    | ']' :: rest => some (.array read.reverse, rest)
    | input =>
      match value rounds nesting input with
      | none => none
      | some (v, rest) =>
        match skipGaps rest with
        | ',' :: rest => items rounds nesting (v :: read) rest
        | ']' :: rest => some (.array (v :: read).reverse, rest)
        | _ => none

/-- Reads the entries of an inline table and its closing brace. -/
def entries : (rounds : Nat) → (nesting : Nat) → (read : List (String × Entry)) → Scan Toml
  | 0, _, _, _ => none
  | rounds + 1, nesting, read, input =>
    match skipGaps input with
    | '\x7d' :: rest => some (.table (tomlEntries read), rest)
    | input =>
      match path input with
      | none => none
      | some ((before, key), rest) =>
        match skipGaps rest with
        | '=' :: rest =>
          match value rounds nesting (skipGaps rest) with
          | none => none
          | some (v, rest) =>
            match setEntry key v before read with
            | none => none
            | some read =>
              match skipGaps rest with
              | ',' :: rest => entries rounds nesting read rest
              | '\x7d' :: rest => some (.table (tomlEntries read), rest)
              | _ => none
        | _ => none

end

/-! ## Documents -/

/-- Reads one statement. -/
def scan : Scan Statement := fun input =>
  match input with
  | '[' :: '[' :: rest =>
    match path rest with
    | some ((before, key), ']' :: ']' :: rest) => some (.item before key, rest)
    | _ => none
  | '[' :: rest =>
    match path rest with
    | some ((before, key), ']' :: rest) => some (.table before key, rest)
    | _ => none
  | input =>
    match path input with
    | some ((before, key), '=' :: rest) =>
      (value (rest.length + 1) 0 (Scan.skipBlanks rest)).map fun (v, rest) =>
        (.assign before key v, rest)
    | _ => none

/-- Reads the statements of a document. Each round reads a line. -/
def scanAll : (rounds : Nat) → (read : List Statement) → List Char → Option (List Statement)
  | 0, _, _ => none
  | rounds + 1, read, input =>
    match skipGaps input with
    | [] => some read.reverse
    | input =>
      match scan input with
      | none => none
      | some (statement, rest) =>
        let rest := skipComment (Scan.skipBlanks rest)
        match Scan.lineBreak rest with
        | some (_, rest) => scanAll rounds (statement :: read) rest
        | none => if rest.isEmpty then some (statement :: read).reverse else none

/-- The statements of a document, which may begin with a byte order mark. -/
def ofDocument (s : String) : Option (List Statement) :=
  let input :=
    match s.toList with
    | c :: rest => if c.toNat = 0xFEFF then rest else c :: rest
    | [] => []
  scanAll (input.length + 1) [] input

end Statement

end Gremlin.Toml
