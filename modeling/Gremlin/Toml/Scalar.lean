import Gremlin.Toml
import Gremlin.Toml.Text

/-!
# Scalars in TOML

Everything that is neither quoted nor bracketed goes up to the next mark or the end of the line:
truth values, integers in four bases, floats, dates and times. Blanks belong to it between two
runs of other characters, and so a date may stand one space before a time of day.

A number is refused if its form is wrong. A number whose form is right may still stand for
nothing, as `0x` and `1_a` do, or for a number that is too large; that matters only once it is
read, and so is noted in its value.
-/

namespace Gremlin.Toml.Scalar

/-- The marks and line breaks that end a scalar. -/
def delimiters : List Char := ['=', ',', '[', ']', '\x7b', '\x7d', '#', '\r', '\n']

/-- The character goes on with a scalar after blanks: a quote would begin a text, and a point
stands only right behind other characters. -/
def isOpening (c : Char) : Bool :=
  !delimiters.contains c && c != '"' && c != Scan.apostrophe && c != '.'

/-- Takes the text of a scalar off the front. -/
def extent : List Char → List Char
  | [] => []
  | c :: rest =>
    let isPart :=
      if c = ' ' ∨ c = '\t' then (Scan.skipBlanks rest).head?.any isOpening
      else !delimiters.contains c
    if isPart then c :: extent rest else []

/-- The parts of a text between marks. -/
def splitAt (mark : Char) : List Char → List (List Char)
  | [] => [[]]
  | c :: rest =>
    if c = mark then [] :: splitAt mark rest
    else
      match splitAt mark rest with
      | part :: parts => (c :: part) :: parts
      | [] => [[c]]

/-- Splits off a sign: whether it is negative, and the rest. -/
def sign : List Char → Bool × List Char
  | '-' :: rest => (true, rest)
  | '+' :: rest => (false, rest)
  | cs => (false, cs)

/-! ## Digits -/

/-- The number that digits stand for. -/
def number (base : Nat) (ds : List Char) : Nat :=
  ds.foldl (fun n c => base * n + (Scan.hexDigit? c).getD 0) 0

/-- The text without underscores. -/
def joined (cs : List Char) : List Char := cs.filter (· != '_')

/-- Underscores stand between two digits each. What else the parts between them hold is left
open. -/
def isSpaced (isDigit : Char → Bool) (cs : List Char) : Bool :=
  let parts := splitAt '_' cs
  parts.tail.all (fun part => part.head?.any isDigit) &&
    parts.dropLast.all fun part => part.getLast?.any isDigit

/-- Reads digits in base ten and the underscores among them; there is a digit at least. -/
def digits : Scan (List Char) := fun input =>
  let run := input.takeWhile fun c => c.isDigit || c = '_'
  if run.any Char.isDigit then some (joined run, input.drop run.length) else none

/-! ## Integers -/

/-- Reads the digits of an integer behind the mark of its base. -/
def marked? (base : Nat) (cs : List Char) : Option Toml :=
  let isDigit c := (Scan.hexDigit? c).any (· < base)
  if cs.all (fun c => isDigit c || c = '_') && isSpaced isDigit cs then
    some (.number (!cs.isEmpty && number base (joined cs) < Nat.pow 2 128))
  else none

/-- The text without underscores is an integer in base ten of at most 128 bits. -/
def isInteger (cs : List Char) : Bool :=
  let (negative, ds) := sign (joined cs)
  !ds.isEmpty && ds.all Char.isDigit &&
    (if negative then number 10 ds ≤ Nat.pow 2 127 else number 10 ds < Nat.pow 2 128)

/-- Reads an integer in base ten. Its form is right if its underscores are, with hexadecimal
digits taken for digits. -/
def integer? (cs : List Char) : Option Toml :=
  if isSpaced (fun c => (Scan.hexDigit? c).isSome) cs then some (.number (isInteger cs)) else none

/-! ## Floats -/

/-- The number `n * 10 ^ e` is at least halfway from the largest double to the next power of
two, and so is rounded to infinity. -/
def overflows (n : Nat) (e : Int) : Bool :=
  let leading := (Nat.toDigits 10 n).length + e
  if n = 0 ∨ leading < 300 then false
  else if 320 < leading then true
  else
    let bound := (Nat.pow 2 54 - 1) * Nat.pow 2 970
    if 0 ≤ e then bound ≤ n * Nat.pow 10 e.toNat else bound * Nat.pow 10 (-e).toNat ≤ n

/-- Reads the digits of a fraction, which may be missing. -/
def fraction : Scan (List Char)
  | '.' :: rest => digits rest
  | rest => some ([], rest)

/-- Reads an exponent, which may be missing. -/
def exponent : Scan Int
  | [] => some (0, [])
  | c :: rest =>
    if c = 'e' ∨ c = 'E' then
      let (negative, rest) := sign rest
      (digits rest).map fun (ds, rest) =>
        (if negative then -(number 10 ds : Int) else number 10 ds, rest)
    else some (0, c :: rest)

/-- Reads a float. -/
def float? (cs : List Char) : Option Toml := do
  let unsigned := (sign cs).2
  let (whole, rest) ← digits unsigned
  let (fraction, rest) ← fraction rest
  let (power, rest) ← exponent rest
  if (unsigned.head? = some '0' ∧ 1 < whole.length) ∨ !rest.isEmpty ∨ !isSpaced Char.isDigit cs then
    none
  else
    return .number (!overflows (number 10 (whole ++ fraction)) (power - fraction.length))

/-! ## Dates and times -/

/-- Reads exactly so many digits. -/
def fixed? (count : Nat) (cs : List Char) : Option Nat :=
  if cs.length = count ∧ cs.all Char.isDigit then some (number 10 cs) else none

def daysIn (year month : Nat) : Nat :=
  let leap := year % 4 = 0 && (year % 100 != 0 || year % 400 = 0)
  if month = 2 then (if leap then 29 else 28)
  else if month = 4 ∨ month = 6 ∨ month = 9 ∨ month = 11 then 30
  else 31

/-- The text is a day of the calendar. -/
def isDate (cs : List Char) : Bool :=
  match splitAt '-' cs with
  | [y, m, d] =>
    match fixed? 4 y, fixed? 2 m, fixed? 2 d with
    | some y, some m, some d => 1 ≤ m && m ≤ 12 && 1 ≤ d && d ≤ daysIn y m
    | _, _, _ => false
  | _ => false

/-- The text is two digits below a bound. -/
def isPartOfTime (bound : Nat) (cs : List Char) : Bool := (fixed? 2 cs).any (· < bound)

/-- The text is a time of day, to the minute, the second or a fraction of it. -/
def isTime (cs : List Char) : Bool :=
  match splitAt ':' cs with
  | [h, m] => isPartOfTime 24 h && isPartOfTime 60 m
  | [h, m, s] =>
    isPartOfTime 24 h && isPartOfTime 60 m &&
      match splitAt '.' s with
      | [s] => isPartOfTime 61 s
      | [s, f] => isPartOfTime 61 s && !f.isEmpty && f.all Char.isDigit
      | _ => false
  | _ => false

/-- The text is a time of day with an offset, which may be missing. -/
def isOffsetTime (cs : List Char) : Bool :=
  let time := cs.takeWhile fun c => c.isDigit || c = ':' || c = '.'
  isTime time &&
    match cs.drop time.length with
    | [] => true
    | [c] => c = 'Z' || c = 'z'
    | c :: offset =>
      (c = '+' || c = '-') &&
        match splitAt ':' offset with
        | [h, m] => isPartOfTime 24 h && isPartOfTime 60 m
        | _ => false

/-- The text is a date, a time of day, or a date with a time of day. -/
def isMoment (cs : List Char) : Bool :=
  isTime cs || isDate cs ||
    (isDate (cs.take 10) &&
      match cs.drop 10 with
      | c :: time => (c = 'T' || c = 't' || c = ' ') && isOffsetTime time
      | [] => false)

/-! ## Scalars -/

/-- Reads a number in base ten, a date or a time. What follows the first digits decides which.
A number has no spaces, but an integer may have tabulators, and then cannot be read. -/
def decimal? (cs : List Char) : Option Toml :=
  let unsigned := (sign cs).2
  let rest := unsigned.dropWhile Char.isDigit
  if rest.head? = some '-' ∨ rest.head? = some ':' then
    if isMoment cs then some .moment else none
  else if rest.contains ' ' then none
  else if rest.any fun c => c = '.' || c = 'e' || c = 'E' then float? cs
  else if unsigned = ['0'] then some (.number true)
  else if unsigned.head? = some '0' then none
  else if unsigned.isEmpty ∨ (!rest.isEmpty ∧ rest.head? ≠ some '_') then none
  else integer? cs

/-- The scalar that a text stands for. Only the base ten has signs. -/
def ofText? (cs : List Char) : Option Toml :=
  if cs = "true".toList then some (.bool true)
  else if cs = "false".toList then some (.bool false)
  else if (sign cs).2 = "inf".toList ∨ (sign cs).2 = "nan".toList then some (.number true)
  else
    match cs with
    | '0' :: 'x' :: rest => marked? 16 rest
    | '0' :: 'o' :: rest => marked? 8 rest
    | '0' :: 'b' :: rest => marked? 2 rest
    | cs => decimal? cs

/-- Reads a scalar. -/
def scan : Scan Toml := fun input =>
  let text := extent input
  (ofText? text).map fun value => (value, input.drop text.length)

end Gremlin.Toml.Scalar
