import Gremlin.Proofs.Tree

/-!
# A reader of scripts

A script with inlined literals can be read back. Graphs, steps and words are spelled in
characters that never stand where one of them ends, a quoted text ends at the first quote without
a backslash in front, and what a parameter is shows in its first character, except for words and
nested traversals: only the latter have a parenthesis after their first path.

The reader goes through the characters once and gives what it has read with what follows. The
lemmas say what it does with each form of text:

* `Text.unescaped_escaped`: a quoted text is read back and ends where it did;
* `readInteger_append`: so is a number;
* `readTree_of_identifier`, `readSteps_of_point`, `readParts_of_part`: which parts a tree, a list
  of steps and a list of parameters come apart into;
* `readPart_text` to `readPart_nested`: what a parameter is.
-/

namespace Gremlin

variable {ρ : Type}

/-! ## Words -/

namespace Text

/-- A letter or an underscore. -/
def isInitial (c : Char) : Bool := c.isAlpha || c == '_'

/-- A letter, a digit or an underscore, or a character beyond ASCII. -/
def isWordChar (c : Char) : Bool := isInitial c || c.isDigit || 127 < c.toNat

/-- A character of words that are joined by points. -/
def isPathChar (c : Char) : Bool := isWordChar c || c == '.'

/-- A letter or an underscore with letters, digits and underscores after it. -/
def IsIdentifier (s : String) : Prop :=
  (∃ c rest, s.toList = c :: rest ∧ isInitial c = true) ∧ ∀ c ∈ s.toList, isWordChar c = true

/-- One or more identifiers joined by points. -/
inductive IsPath : String → Prop where
  | word {s : String} (h : IsIdentifier s) : IsPath s
  | join {s t : String} (hs : IsIdentifier s) (ht : IsPath t) : IsPath (s ++ "." ++ t)

/-- Characters of different classes are different. -/
theorem ne_of_class {p : Char → Bool} {c d : Char} (hc : p c = true) (hd : p d = false) :
    c ≠ d := by
  rintro rfl
  rw [hd] at hc
  contradiction

theorem isPathChar_of_isWordChar {c : Char} (h : isWordChar c = true) : isPathChar c = true := by
  simp [isPathChar, h]

theorem isWordChar_of_isPathChar_eq_false {c : Char} (h : isPathChar c = false) :
    isWordChar c = false := by
  simp only [isPathChar, Bool.or_eq_false_iff] at h
  exact h.1

theorem not_isDigit_of_isInitial {c : Char} (h : isInitial c = true) : c.isDigit = false := by
  rcases Bool.or_eq_true_iff.mp h with halpha | hunderscore
  · -- all letters come after all digits
    have hletter : 'A'.val ≤ c.val := by
      rcases Bool.or_eq_true_iff.mp halpha with hupper | hlower
      · exact (of_decide_eq_true hupper).1
      · have hlower' := of_decide_eq_true (Bool.and_eq_true_iff.mp hlower).1
        exact UInt32.le_trans (by decide) hlower'
    rw [Bool.eq_false_iff]
    intro hdigit
    have hnine : c.val ≤ '9'.val := of_decide_eq_true (Bool.and_eq_true_iff.mp hdigit).2
    exact absurd (UInt32.le_trans hletter hnine) (by decide)
  · rw [beq_iff_eq.mp hunderscore]
    rfl

theorem isWordChar_of_isInitial {c : Char} (h : isInitial c = true) : isWordChar c = true := by
  simp [isWordChar, h]

theorem IsIdentifier.of_toList {s : String} {c : Char} {cs : List Char} (hs : s.toList = c :: cs)
    (hc : isInitial c = true) (hcs : cs.all isWordChar = true) : IsIdentifier s := by
  refine ⟨⟨c, cs, hs, hc⟩, ?_⟩
  rw [hs]
  exact List.forall_mem_cons.mpr ⟨isWordChar_of_isInitial hc, List.all_eq_true.mp hcs⟩

/-- The literals that are spelled as words. -/
theorem isPath_literal {word : String} (h : word ∈ ["null", "true", "false"]) : IsPath word := by
  simp only [List.mem_cons, List.not_mem_nil, or_false] at h
  rcases h with rfl | rfl | rfl <;> exact .word (.of_toList rfl rfl rfl)

/-- A path begins as an identifier does. -/
theorem IsPath.initial {s : String} (h : IsPath s) :
    ∃ c rest, s.toList = c :: rest ∧ isInitial c = true := by
  cases h with
  | word hs => exact hs.1
  | @join s t hs ht =>
    rcases hs.1 with ⟨c, rest, hcs, hc⟩
    exact ⟨c, rest ++ '.' :: t.toList, by simp [hcs], hc⟩

theorem IsPath.isPathChar {s : String} (h : IsPath s) : ∀ c ∈ s.toList, isPathChar c = true := by
  induction h with
  | word hs =>
    intro c hc
    exact isPathChar_of_isWordChar (hs.2 c hc)
  | @join s t hs _ ih =>
    intro c hc
    simp only [String.toList_append, List.mem_append] at hc
    rcases hc with (hc | hc) | hc
    · exact isPathChar_of_isWordChar (hs.2 c hc)
    · have hpoint : c = '.' := by simpa using hc
      rw [hpoint]
      rfl
    · exact ih c hc

/-! ## Quoted text -/

/-- The characters of a quoted text up to the closing quote, and what follows. -/
def unescaped (quote : Char) : List Char → Option (List Char × List Char)
  | [] => none
  | '\\' :: c :: rest => (unescaped quote rest).map fun (s, more) => (c :: s, more)
  | c :: rest =>
    if c = quote then some ([], rest)
    else (unescaped quote rest).map fun (s, more) => (c :: s, more)

theorem unescaped_escaped {quote : Char} (hquote : quote ≠ '\\') (s rest : List Char) :
    unescaped quote (escaped quote s ++ quote :: rest) = some (s, rest) := by
  induction s with
  | nil => simp [escaped, unescaped, hquote]
  | cons c s ih =>
    by_cases hescaped : c = quote ∨ c = '\\'
    · simp [escaped, hescaped, unescaped, ih]
    · rcases not_or.mp hescaped with ⟨hc, hbackslash⟩
      simp [escaped, unescaped, ih, hc, hbackslash]

/-- A quoted text begins with its quote. -/
theorem toList_quoted_append (quote : Char) (s : String) (rest : List Char) :
    (quoted quote s).toList ++ rest = quote :: (escaped quote s.toList ++ quote :: rest) := by
  simp [quoted]

end Text

/-! ## The reader -/

namespace Reading

open Text

/-- An integer and what follows its digits. -/
def readInteger : List Char → Int × List Char
  | '-' :: cs =>
    (-(Nat.ofDigitChars 10 (cs.takeWhile Char.isDigit) 0 : Nat), cs.dropWhile Char.isDigit)
  | cs => ((Nat.ofDigitChars 10 (cs.takeWhile Char.isDigit) 0 : Nat), cs.dropWhile Char.isDigit)

/-- The parameter that a word stands for. -/
def wordPart (word : String) : Tree.Part ρ :=
  if word = "null" then .value .null
  else if word = "true" then .value (.bool true)
  else if word = "false" then .value (.bool false)
  else .token word

mutual

/-- A graph with the steps after it, and what follows. -/
def readTree : List Char → (room : Nat) → Option (Tree ρ × List Char)
  | _, 0 => none
  | cs, room + 1 => do
    let (steps, rest) ← readSteps (cs.dropWhile isWordChar) room
    some (⟨String.ofList (cs.takeWhile isWordChar), steps⟩, rest)

/-- Steps with a point in front of each, and what follows. -/
def readSteps : List Char → (room : Nat) → Option (List (Tree.Step ρ) × List Char)
  | _, 0 => none
  | '.' :: cs, room + 1 =>
    match cs.dropWhile isWordChar with
    | '(' :: inside => do
      let (parts, others) ← readParts false inside room
      let (steps, rest) ← readSteps others room
      some (⟨String.ofList (cs.takeWhile isWordChar), parts⟩ :: steps, rest)
    | _ => none
  | cs, _ + 1 => some ([], cs)

/-- Parameters up to the closing parenthesis, and what follows. -/
def readParts : (separate : Bool) → List Char → (room : Nat) →
    Option (List (Tree.Part ρ) × List Char)
  | _, _, 0 => none
  | _, ')' :: rest, _ + 1 => some ([], rest)
  | separate, cs, room + 1 => do
    let (p, others) ← readPart (if separate then cs.drop 2 else cs) room
    let (parts, rest) ← readParts true others room
    some (p :: parts, rest)

/-- A parameter, and what follows. -/
def readPart : List Char → (room : Nat) → Option (Tree.Part ρ × List Char)
  | _, 0 => none
  | [], _ + 1 => none
  | c :: cs, room + 1 =>
    if c = Char.ofNat 39 then do
      let (s, rest) ← unescaped c cs
      some (.value (.text (String.ofList s)), rest)
    else if c = '"' then do
      let (s, rest) ← unescaped c cs
      some (.key (String.ofList s), rest)
    else if c = '-' ∨ c.isDigit = true then
      let (n, rest) := readInteger (c :: cs)
      some (.value (.long (Int64.ofInt n)), rest)
    else if ((c :: cs).dropWhile isPathChar).head? = some '(' then do
      let (x, rest) ← readTree (c :: cs) room
      some (.nested x, rest)
    else
      some (wordPart (String.ofList ((c :: cs).takeWhile isPathChar)),
        (c :: cs).dropWhile isPathChar)

end

/-! ## Runs of characters -/

theorem takeWhile_append {p : Char → Bool} {run rest : List Char} (hrun : ∀ c ∈ run, p c = true)
    (hrest : ∀ c ∈ rest.head?, p c = false) : (run ++ rest).takeWhile p = run := by
  rw [List.takeWhile_append_of_pos hrun]
  cases rest with
  | nil => simp
  | cons c cs => simp [hrest c rfl]

theorem dropWhile_append {p : Char → Bool} {run rest : List Char} (hrun : ∀ c ∈ run, p c = true)
    (hrest : ∀ c ∈ rest.head?, p c = false) : (run ++ rest).dropWhile p = rest := by
  rw [List.dropWhile_append_of_pos hrun]
  cases rest with
  | nil => rfl
  | cons c cs => simp [hrest c rfl]

/-- What may follow a parameter: nothing, a comma or the closing parenthesis. -/
def Stops (rest : List Char) : Prop := ∀ c ∈ rest.head?, c = ',' ∨ c = ')'

theorem Stops.not_isPathChar {rest : List Char} (h : Stops rest) :
    ∀ c ∈ rest.head?, isPathChar c = false := by
  intro c hc
  rcases h c hc with rfl | rfl <;> decide

/-! ## Integers -/

/-- The digits of a natural number give the number. -/
theorem digits_append {n : Nat} {rest : List Char} (hrest : ∀ c ∈ rest.head?, c.isDigit = false) :
    Nat.ofDigitChars 10 ((n.repr.toList ++ rest).takeWhile Char.isDigit) 0 = n ∧
      (n.repr.toList ++ rest).dropWhile Char.isDigit = rest := by
  have hdigits : ∀ c ∈ n.repr.toList, c.isDigit = true := by
    intro c hc
    rw [Nat.toList_repr] at hc
    exact Nat.isDigit_of_mem_toDigits (by decide) (by decide) hc
  rw [takeWhile_append hdigits hrest, dropWhile_append hdigits hrest, Nat.toList_repr]
  exact ⟨Nat.ofDigitChars_toDigits (by decide) (by decide), rfl⟩

/-- The text of a natural number begins with a digit. -/
theorem exists_cons_of_repr (n : Nat) :
    ∃ c cs, n.repr.toList = c :: cs ∧ c.isDigit = true := by
  rw [Nat.toList_repr]
  cases hcs : Nat.toDigits 10 n with
  | nil => exact absurd hcs Nat.toDigits_ne_nil
  | cons c cs =>
    have hc : c ∈ Nat.toDigits 10 n := by
      rw [hcs]
      exact List.mem_cons_self
    exact ⟨c, cs, rfl, Nat.isDigit_of_mem_toDigits (by decide) (by decide) hc⟩

theorem toList_toString_negSucc (n : Nat) :
    (toString (Int.negSucc n)).toList = '-' :: n.succ.repr.toList :=
  String.toList_append

/-- The text of an integer begins with a minus sign or a digit. -/
theorem exists_cons_of_integer (n : Int) :
    ∃ c cs, (toString n).toList = c :: cs ∧ (c = '-' ∨ c.isDigit = true) := by
  cases n with
  | negSucc m => exact ⟨'-', m.succ.repr.toList, toList_toString_negSucc m, Or.inl rfl⟩
  | ofNat m =>
    rcases exists_cons_of_repr m with ⟨c, cs, hcs, hdigit⟩
    exact ⟨c, cs, hcs, Or.inr hdigit⟩

/-- An integer is read back, and its text ends where its digits do. -/
theorem readInteger_append (n : Int) {rest : List Char}
    (hrest : ∀ c ∈ rest.head?, c.isDigit = false) :
    readInteger ((toString n).toList ++ rest) = (n, rest) := by
  cases n with
  | negSucc m =>
    rcases digits_append (n := m.succ) hrest with ⟨hvalue, hdrop⟩
    rw [toList_toString_negSucc, List.cons_append, readInteger, hvalue, hdrop]
    rfl
  | ofNat m =>
    have hunsigned : ∀ cs, m.repr.toList ++ rest ≠ '-' :: cs := by
      rcases exists_cons_of_repr m with ⟨c, digits, hdigits, hc⟩
      rw [hdigits]
      rintro cs hcs
      injection hcs with hsign _
      rw [hsign] at hc
      contradiction
    rcases digits_append (n := m) hrest with ⟨hvalue, hdrop⟩
    show readInteger (m.repr.toList ++ rest) = _
    rw [readInteger, hvalue, hdrop]
    · rfl
    · exact hunsigned

/-! ## Lists -/

variable {rest : List Char} {room : Nat}

theorem readTree_of_identifier {graph : String} (hgraph : IsIdentifier graph)
    (hrest : ∀ c ∈ rest.head?, isWordChar c = false) :
    readTree (graph.toList ++ rest) (room + 1) = (do
      let (steps, more) ← readSteps rest room
      some ((⟨graph, steps⟩ : Tree ρ), more)) := by
  rw [readTree, takeWhile_append hgraph.2 hrest, dropWhile_append hgraph.2 hrest,
    String.ofList_toList]

/-- Where a parameter may end, there are no more steps. -/
theorem readSteps_of_stops (hrest : Stops rest) :
    readSteps rest (room + 1) = some (([] : List (Tree.Step ρ)), rest) := by
  cases rest with
  | nil => rfl
  | cons c cs =>
    have hc : c ≠ '.' := by
      rcases hrest c rfl with rfl | rfl <;> decide
    rw [readSteps]
    intro more heq
    injection heq with heq
    exact hc heq

/-- A parenthesis is no character of words or paths. -/
theorem not_isPathChar_parenthesis (inside : List Char) :
    ∀ c ∈ ('(' :: inside : List Char).head?, isPathChar c = false := by
  intro c hc
  injection hc with hc
  rw [← hc]
  rfl

theorem readSteps_of_point {name : String} (hname : IsIdentifier name) (inside : List Char) :
    readSteps ('.' :: (name.toList ++ '(' :: inside)) (room + 1) = (do
      let (parts, others) ← readParts false inside room
      let (steps, more) ← readSteps others room
      some ((⟨name, parts⟩ : Tree.Step ρ) :: steps, more)) := by
  have hboundary : ∀ c ∈ ('(' :: inside : List Char).head?, isWordChar c = false := by
    intro c hc
    exact isWordChar_of_isPathChar_eq_false (not_isPathChar_parenthesis inside c hc)
  rw [readSteps, takeWhile_append hname.2 hboundary, dropWhile_append hname.2 hboundary,
    String.ofList_toList]
  rfl

/-- The list goes on unless it is closed, with a comma or with a parameter. -/
theorem readParts_of_part (separate : Bool) {c : Char} (hc : c ≠ ')') (cs : List Char) :
    readParts separate ((if separate then ", ".toList else []) ++ c :: cs) (room + 1) = (do
      let (p, others) ← readPart (c :: cs) room
      let (parts, more) ← readParts true others room
      some ((p : Tree.Part ρ) :: parts, more)) := by
  cases separate with
  | false =>
    show readParts false (c :: cs) (room + 1) = _
    rw [readParts]
    · rfl
    · intro more heq
      injection heq with heq
      exact hc heq
  | true =>
    show readParts true (',' :: ' ' :: c :: cs) (room + 1) = _
    rw [readParts]
    · rfl
    · intro more heq
      injection heq with heq
      contradiction

/-! ## Parameters -/

theorem readPart_text (s : String) :
    readPart ((quoted (Char.ofNat 39) s).toList ++ rest) (room + 1) =
      some ((.value (.text s) : Tree.Part ρ), rest) := by
  rw [toList_quoted_append, readPart, if_pos rfl, unescaped_escaped (by decide)]
  show some (Tree.Part.value (.text (String.ofList s.toList)), rest) = _
  rw [String.ofList_toList]

theorem readPart_key (name : String) :
    readPart ((quoted '"' name).toList ++ rest) (room + 1) =
      some ((.key name : Tree.Part ρ), rest) := by
  rw [toList_quoted_append, readPart, if_neg (by decide), if_pos rfl,
    unescaped_escaped (by decide)]
  show some (Tree.Part.key (String.ofList name.toList), rest) = _
  rw [String.ofList_toList]

theorem readPart_integer (n : Int) (hrest : Stops rest) :
    readPart ((toString n).toList ++ rest) (room + 1) =
      some ((.value (.long (Int64.ofInt n)) : Tree.Part ρ), rest) := by
  have hdigits : ∀ c ∈ rest.head?, c.isDigit = false := by
    intro c hc
    rcases hrest c hc with rfl | rfl <;> rfl
  have hread := readInteger_append n hdigits
  rcases exists_cons_of_integer n with ⟨c, cs, hcs, hc⟩
  have hsingle : c ≠ Char.ofNat 39 := by
    rcases hc with rfl | hdigit
    · decide
    · exact ne_of_class hdigit rfl
  have hdouble : c ≠ '"' := by
    rcases hc with rfl | hdigit
    · decide
    · exact ne_of_class hdigit rfl
  rw [hcs, List.cons_append] at hread ⊢
  rw [readPart, if_neg hsingle, if_neg hdouble, if_pos hc, hread]

/-- What begins with a letter or an underscore is a nested traversal if a parenthesis follows, and
a word if not. -/
theorem readPart_of_isInitial {c : Char} (hc : isInitial c = true) (cs : List Char) :
    readPart (c :: cs) (room + 1) =
      if ((c :: cs).dropWhile isPathChar).head? = some '(' then do
        let (x, more) ← readTree (c :: cs) room
        some ((.nested x : Tree.Part ρ), more)
      else
        some (wordPart (String.ofList ((c :: cs).takeWhile isPathChar)),
          (c :: cs).dropWhile isPathChar) := by
  have hnumber : ¬ (c = '-' ∨ c.isDigit = true) := by
    rintro (hminus | hdigit)
    · exact ne_of_class hc rfl hminus
    · rw [not_isDigit_of_isInitial hc] at hdigit
      contradiction
  rw [readPart, if_neg (ne_of_class hc rfl), if_neg (ne_of_class hc rfl), if_neg hnumber]

/-- A word is read as the parameter that it stands for. -/
theorem readPart_word {word : String} (hword : IsPath word) (hrest : Stops rest) :
    readPart (word.toList ++ rest) (room + 1) = some ((wordPart word : Tree.Part ρ), rest) := by
  have htake := takeWhile_append hword.isPathChar hrest.not_isPathChar
  have hdrop := dropWhile_append hword.isPathChar hrest.not_isPathChar
  have hcall : rest.head? ≠ some '(' := by
    intro hcall
    rcases hrest '(' hcall with h | h <;> contradiction
  rcases hword.initial with ⟨c, cs, hcs, hc⟩
  rw [hcs, List.cons_append] at htake hdrop ⊢
  rw [readPart_of_isInitial hc, htake, hdrop, if_neg hcall, ← hcs, String.ofList_toList]

theorem readPart_token {word : String} (hword : IsPath word)
    (hliteral : word ∉ ["null", "true", "false"]) (hrest : Stops rest) :
    readPart (word.toList ++ rest) (room + 1) = some ((.token word : Tree.Part ρ), rest) := by
  simp only [List.mem_cons, List.not_mem_nil, or_false, not_or] at hliteral
  rw [readPart_word hword hrest, wordPart, if_neg hliteral.1, if_neg hliteral.2.1,
    if_neg hliteral.2.2]

/-- A path with a parenthesis after it begins a nested traversal. -/
theorem readPart_nested {path : String} (hpath : IsPath path) (inside : List Char) :
    readPart (path.toList ++ '(' :: inside) (room + 1) = (do
      let (x, more) ← readTree (path.toList ++ '(' :: inside) room
      some ((.nested x : Tree.Part ρ), more)) := by
  have hdrop := dropWhile_append hpath.isPathChar (not_isPathChar_parenthesis inside)
  rcases hpath.initial with ⟨c, cs, hcs, hc⟩
  rw [hcs, List.cons_append] at hdrop ⊢
  rw [readPart_of_isInitial hc, hdrop, List.head?_cons, if_pos rfl]

end Reading

end Gremlin
