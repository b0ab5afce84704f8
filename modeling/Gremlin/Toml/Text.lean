/-!
# Texts in TOML

Texts are quoted on one line or over several lines, and each of the two either with escapes
(between double quotes) or as they are (between single quotes). Control characters other than
the tabulator are refused; over several lines a line break is allowed, and one right after the
opening quotes is dropped.
-/

namespace Gremlin.Toml

/-- Reads something off the front of the input and gives the rest, or refuses. -/
abbrev Scan (α : Type) := List Char → Option (α × List Char)

namespace Scan

/-- The single quote. -/
def apostrophe : Char := Char.ofNat 39

/-- The character may stand in a comment or a text as it is. -/
def isPlain (c : Char) : Bool := c = '\t' || (0x20 ≤ c.toNat && c.toNat != 0x7F)

/-- The value of a hexadecimal digit. -/
def hexDigit? (c : Char) : Option Nat :=
  if '0' ≤ c ∧ c ≤ '9' then some (c.toNat - '0'.toNat)
  else if 'a' ≤ c ∧ c ≤ 'f' then some (c.toNat - 'a'.toNat + 10)
  else if 'A' ≤ c ∧ c ≤ 'F' then some (c.toNat - 'A'.toNat + 10)
  else none

/-- Reads so many hexadecimal digits onto a number. -/
def hexDigits : (count : Nat) → (high : Nat) → Scan Nat
  | 0, high, rest => some (high, rest)
  | _ + 1, _, [] => none
  | count + 1, high, c :: rest =>
    match hexDigit? c with
    | some d => hexDigits count (16 * high + d) rest
    | none => none

/-- Reads a code point of so many hexadecimal digits; surrogates are none. -/
def codePoint (count : Nat) : Scan Char := fun input =>
  match hexDigits count 0 input with
  | some (n, rest) => if n.isValidChar then some (Char.ofNat n, rest) else none
  | none => none

/-- Reads what follows the backslash of an escape. -/
def escape : Scan Char
  | 'b' :: rest => some (Char.ofNat 8, rest)
  | 't' :: rest => some ('\t', rest)
  | 'n' :: rest => some ('\n', rest)
  | 'f' :: rest => some (Char.ofNat 12, rest)
  | 'r' :: rest => some ('\r', rest)
  | 'e' :: rest => some (Char.ofNat 27, rest)
  | '"' :: rest => some ('"', rest)
  | '\\' :: rest => some ('\\', rest)
  | 'x' :: rest => codePoint 2 rest
  | 'u' :: rest => codePoint 4 rest
  | 'U' :: rest => codePoint 8 rest
  | _ => none

/-- Drops blanks. -/
def skipBlanks (input : List Char) : List Char :=
  input.dropWhile fun c => c = ' ' || c = '\t'

/-- Reads a line break. -/
def lineBreak : Scan Unit
  | '\n' :: rest => some ((), rest)
  | '\r' :: '\n' :: rest => some ((), rest)
  | _ => none

/-- Drops a line break, if there is one. -/
def skipLineBreak (input : List Char) : List Char :=
  match lineBreak input with
  | some (_, rest) => rest
  | none => input

/-- Drops blanks and line breaks. -/
def skipSpace : List Char → List Char
  | ' ' :: rest => skipSpace rest
  | '\t' :: rest => skipSpace rest
  | '\n' :: rest => skipSpace rest
  | '\r' :: '\n' :: rest => skipSpace rest
  | input => input

/-- Reads the rest of a text as it is, on one line, in reverse onto what was read. -/
def literalBody (read : List Char) : Scan String
  | [] => none
  | c :: rest =>
    if c = apostrophe then some (String.ofList read.reverse, rest)
    else if isPlain c then literalBody (c :: read) rest
    else none

/-- Reads the rest of a text with escapes, on one line. Each round reads a character at least,
so as many rounds as there are characters are enough. -/
def basicBody : (rounds : Nat) → (read : List Char) → Scan String
  | 0, _, _ => none
  | _, _, [] => none
  | rounds + 1, read, c :: rest =>
    if c = '"' then some (String.ofList read.reverse, rest)
    else if c = '\\' then
      match escape rest with
      | some (e, rest) => basicBody rounds (e :: read) rest
      | none => none
    else if isPlain c then basicBody rounds (c :: read) rest
    else none

/-- Reads the closing quotes of a text over several lines; up to two quotes more belong to the
text. -/
def closing (quote : Char) (read : List Char) : Scan String := fun input =>
  let quotes := (input.takeWhile (· = quote)).length
  let kept := min 5 quotes
  if kept < 3 then none
  else some (String.ofList (List.replicate (kept - 3) quote ++ read).reverse, input.drop kept)

/-- Reads the rest of a text over several lines. Each round reads a character at least. -/
def longBody (quote : Char) (escapes : Bool) : (rounds : Nat) → (read : List Char) → Scan String
  | 0, _, _ => none
  | _, _, [] => none
  | rounds + 1, read, c :: rest =>
    match closing quote read (c :: rest) with
    | some result => some result
    | none =>
      if c = '\\' && escapes then
        -- a backslash at the end of a line joins it with the next text
        match lineBreak (skipBlanks rest) with
        | some (_, rest) => longBody quote escapes rounds read (skipSpace rest)
        | none =>
          match escape rest with
          | some (e, rest) => longBody quote escapes rounds (e :: read) rest
          | none => none
      else if isPlain c || c = '\n' || (c = '\r' && rest.head? = some '\n') then
        longBody quote escapes rounds (c :: read) rest
      else none

/-- Reads a text on one line. -/
def shortText : Scan String
  | [] => none
  | c :: rest =>
    if c = '"' then basicBody (rest.length + 1) [] rest
    else if c = apostrophe then literalBody [] rest
    else none

/-- Reads a text. -/
def text : Scan String
  | a :: b :: c :: rest =>
    if a = b ∧ b = c ∧ (c = '"' ∨ c = apostrophe) then
      let rest := skipLineBreak rest
      longBody c (c = '"') (rest.length + 1) [] rest
    else shortText (a :: b :: c :: rest)
  | input => shortText input

end Scan

end Gremlin.Toml
