import Gremlin.Proofs.Reader
import Gremlin.Script.Output
import Gremlin.Script.Stock

/-!
# What quoted literals denote

Scripts are Gremlin-Groovy, and quoted texts are read by the rules of its string literals. A
backslash begins an escape; a raw line feed or carriage return does not belong into a literal; and
between double quotes a dollar sign with a letter, an underscore or an opening brace after it
begins an interpolation. The writer escapes quotes and backslashes and nothing else. We show:

* `denoted_escaped`: a quoted text is read to the end unless it has one of these characters, and
  the reader stops at the first of them otherwise;
* `fault?_eq_none_iff`: which texts have none;
* `Output.literals_read_back`: property keys and inlined texts end at the closing quote that was
  written for them, whatever follows, and denote what they were written for exactly if they have
  no line break and, between double quotes, no dollar sign that interpolates;
* `Output.literals_misread`: a key and a text that the writer leaves as they are.
-/

namespace Gremlin

variable {ρ : Type}

namespace Text

/-! ## String literals -/

/-- The letters that names in an interpolation may begin with. -/
structure Letters where
  has : Char → Bool
  not_quote : has '"' = false
  not_backslash : has '\\' = false

/-- The letters of ASCII. -/
def Letters.ascii : Letters := ⟨Char.isAlpha, rfl, rfl⟩

/-- Whether a dollar sign in front of these characters begins an interpolation. -/
def Letters.opens (letters : Letters) : List Char → Bool
  | [] => false
  | c :: _ => letters.has c || c == '_' || c == '{'

/-- Why a text is not a string literal, or not one of fixed characters. -/
inductive LiteralFault where
  | lineBreak
  | interpolation
  /-- The text ends before the literal does. -/
  | unclosed
  /-- A backslash in front of a character that it does not go with. -/
  | badEscape (c : Char)
deriving DecidableEq, Repr

/-- The character that a backslash stands for together with the character after it. -/
def escapedChar? : Char → Option Char
  | '\\' => some '\\'
  | '"' => some '"'
  | '$' => some '$'
  | 'n' => some '\n'
  | 'r' => some '\r'
  | 't' => some '\t'
  | 'b' => some (Char.ofNat 8)
  | 'f' => some (Char.ofNat 12)
  | c => if c = Char.ofNat 39 then some c else none

/-- What a string literal denotes, read from behind its opening quote, and what follows its closing
quote. -/
def denoted (letters : Letters) (quote : Char) :
    List Char → Except LiteralFault (List Char × List Char)
  | [] => .error .unclosed
  | ['\\'] => .error .unclosed
  | '\\' :: c :: rest =>
    match escapedChar? c with
    | none => .error (.badEscape c)
    | some d => (denoted letters quote rest).map fun (s, more) => (d :: s, more)
  | c :: rest =>
    if c = quote then .ok ([], rest)
    else if c = '\n' ∨ c = '\r' then .error .lineBreak
    else if quote = '"' ∧ c = '$' ∧ letters.opens rest then .error .interpolation
    else (denoted letters quote rest).map fun (s, more) => (c :: s, more)

/-- A quote is the single or the double one. -/
def IsQuote (quote : Char) : Prop := quote = Char.ofNat 39 ∨ quote = '"'

variable {letters : Letters} {quote : Char}

theorem IsQuote.ne_backslash (h : IsQuote quote) : quote ≠ '\\' := by
  rcases h with rfl | rfl <;> decide

theorem IsQuote.escapedChar? (h : IsQuote quote) : escapedChar? quote = some quote := by
  rcases h with rfl | rfl <;> rfl

/-! ## Quoted texts as literals -/

/-- The first character of a text that a literal may not have as it is. -/
def fault? (letters : Letters) (quote : Char) : List Char → Option LiteralFault
  | [] => none
  | c :: rest =>
    if c = '\n' ∨ c = '\r' then some .lineBreak
    else if quote = '"' ∧ c = '$' ∧ letters.opens rest then some .interpolation
    else fault? letters quote rest

/-- No line break and, for double quotes, no dollar sign that begins an interpolation. -/
def IsPlain (letters : Letters) (quote : Char) (s : List Char) : Prop :=
  (∀ c ∈ s, c ≠ '\n' ∧ c ≠ '\r') ∧
    (quote = '"' → ∀ before after, s = before ++ '$' :: after → letters.opens after = false)

theorem isPlain_nil : IsPlain letters quote [] := by
  refine ⟨by simp, ?_⟩
  intro _ before after h
  exact absurd h.symm (by simp)

theorem isPlain_cons {c : Char} {rest : List Char} :
    IsPlain letters quote (c :: rest) ↔
      ¬ (c = '\n' ∨ c = '\r') ∧ ¬ (quote = '"' ∧ c = '$' ∧ letters.opens rest = true) ∧
        IsPlain letters quote rest := by
  constructor
  · rintro ⟨hbreaks, hdollars⟩
    refine ⟨not_or.mpr (hbreaks c List.mem_cons_self), ?_, ?_, ?_⟩
    · rintro ⟨hquote, rfl, hopens⟩
      rw [hdollars hquote [] rest rfl] at hopens
      contradiction
    · intro d hd
      exact hbreaks d (List.mem_cons_of_mem c hd)
    · intro hquote before after hrest
      exact hdollars hquote (c :: before) after (by rw [hrest, List.cons_append])
  · rintro ⟨hbreak, hdollar, hbreaks, hdollars⟩
    refine ⟨List.forall_mem_cons.mpr ⟨not_or.mp hbreak, hbreaks⟩, ?_⟩
    rintro hquote (_ | ⟨d, before⟩) after hcons
    · injection hcons with hc hrest
      rw [hrest] at hdollar
      exact Bool.eq_false_iff.mpr fun hopens => hdollar ⟨hquote, hc, hopens⟩
    · injection hcons with _ hrest
      exact hdollars hquote before after hrest

theorem fault?_eq_none_iff {s : List Char} :
    fault? letters quote s = none ↔ IsPlain letters quote s := by
  induction s with
  | nil => simp [fault?, isPlain_nil]
  | cons c rest ih =>
    rw [isPlain_cons, ← ih, fault?]
    split
    · simp [*]
    · split <;> simp [*]

/-- A text that is not plain has a line break or a dollar sign that interpolates. -/
theorem fault?_of_not_isPlain {s : List Char} (h : ¬ IsPlain letters quote s) :
    fault? letters quote s = some .lineBreak ∨ fault? letters quote s = some .interpolation := by
  induction s with
  | nil => exact absurd isPlain_nil h
  | cons c rest ih =>
    rw [fault?]
    split
    · exact Or.inl rfl
    · split
      · exact Or.inr rfl
      · rename_i hbreak hdollar
        exact ih fun hrest => h (isPlain_cons.mpr ⟨hbreak, hdollar, hrest⟩)

/-- Escapes do not change what a dollar sign is followed by, as neither a backslash nor a double
quote opens an interpolation. -/
theorem Letters.opens_escaped (s rest : List Char) :
    letters.opens (escaped '"' s ++ '"' :: rest) = letters.opens s := by
  cases s with
  | nil => simp [escaped, opens, letters.not_quote]
  | cons c cs =>
    -- a character that is escaped has a backslash in front of it then
    by_cases hescaped : c = '"' ∨ c = '\\'
    · rcases hescaped with rfl | rfl
      · simp [escaped, opens, letters.not_quote, letters.not_backslash]
      · simp [escaped, opens, letters.not_backslash]
    · simp [escaped, hescaped, opens]

/-- A character that is escaped is read back. -/
theorem denoted_escape {c : Char} (hquote : IsQuote quote) (hc : c = quote ∨ c = '\\')
    (rest : List Char) :
    denoted letters quote ('\\' :: c :: rest) =
      (denoted letters quote rest).map fun (s, more) => (c :: s, more) := by
  have hread : escapedChar? c = some c := by
    rcases hc with rfl | rfl
    · exact hquote.escapedChar?
    · rfl
  rw [denoted, hread]

/-- A character that is not escaped ends the reading or is read as itself. -/
theorem denoted_cons {c : Char} (hquote : c ≠ quote) (hbackslash : c ≠ '\\') (rest : List Char) :
    denoted letters quote (c :: rest) =
      if c = '\n' ∨ c = '\r' then .error .lineBreak
      else if quote = '"' ∧ c = '$' ∧ letters.opens rest then .error .interpolation
      else (denoted letters quote rest).map fun (s, more) => (c :: s, more) := by
  rw [denoted, if_neg hquote]
  · rintro rfl _
    exact hbackslash rfl
  · rintro d more rfl
    exact absurd rfl hbackslash

/-- What is escaped is no line break and no dollar sign. -/
theorem fault?_cons_escaped {c : Char} (hquote : IsQuote quote) (hc : c = quote ∨ c = '\\')
    (s : List Char) : fault? letters quote (c :: s) = fault? letters quote s := by
  have hne : c ≠ '\n' ∧ c ≠ '\r' ∧ c ≠ '$' := by
    rcases hc with rfl | rfl
    · rcases hquote with rfl | rfl <;> decide
    · decide
  simp [fault?, hne]

/-- A quoted text is read to its closing quote, or to the first character that a literal may not
have as it is. -/
theorem denoted_escaped (hquote : IsQuote quote) (s rest : List Char) :
    denoted letters quote (escaped quote s ++ quote :: rest) =
      match fault? letters quote s with
      | none => .ok (s, rest)
      | some fault => .error fault := by
  induction s with
  | nil =>
    show denoted letters quote (quote :: rest) = .ok ([], rest)
    rw [denoted, if_pos rfl]
    · rintro h _
      exact hquote.ne_backslash h
    · rintro c more h
      exact absurd h hquote.ne_backslash
  | cons c s ih =>
    by_cases hescaped : c = quote ∨ c = '\\'
    · rw [escaped, if_pos hescaped, List.cons_append, List.cons_append,
        denoted_escape hquote hescaped, ih, fault?_cons_escaped hquote hescaped]
      cases fault? letters quote s <;> rfl
    · rcases not_or.mp hescaped with ⟨hc, hbackslash⟩
      -- what follows in the script opens an interpolation exactly if it does so in the text
      have hopens : quote = '"' → letters.opens (escaped quote s ++ quote :: rest) =
          letters.opens s := by
        rintro rfl
        exact Letters.opens_escaped s rest
      rw [escaped, if_neg hescaped, List.cons_append, denoted_cons hc hbackslash, ih, fault?]
      split
      · rfl
      · by_cases hinterpolates : quote = '"' ∧ c = '$' ∧ letters.opens s = true
        · rw [if_pos hinterpolates, hopens hinterpolates.1, if_pos hinterpolates]
        · rw [if_neg hinterpolates, if_neg]
          · cases fault? letters quote s <;> rfl
          · rintro ⟨hdouble, hdollar, hfollowed⟩
            rw [hopens hdouble] at hfollowed
            exact hinterpolates ⟨hdouble, hdollar, hfollowed⟩

end Text

namespace Output

open Text

/-- A text behind an opening quote as a literal. It ends where the text does, whatever follows. It
denotes `s` exactly if `s` is plain, and otherwise has a line break or an interpolation in it. -/
structure SpellsOut (letters : Letters) (quote : Char) (body s : List Char) : Prop where
  ends : ∀ rest, unescaped quote (body ++ rest) = some (s, rest)
  denotes : IsPlain letters quote s → ∀ rest, denoted letters quote (body ++ rest) = .ok (s, rest)
  fails : ¬ IsPlain letters quote s →
    (∀ rest, denoted letters quote (body ++ rest) = .error .lineBreak) ∨
      ∀ rest, denoted letters quote (body ++ rest) = .error .interpolation

theorem spellsOut_escaped {letters : Letters} {quote : Char} (hquote : IsQuote quote)
    (s : List Char) : SpellsOut letters quote (escaped quote s ++ [quote]) s := by
  have happend : ∀ rest, escaped quote s ++ [quote] ++ rest = escaped quote s ++ quote :: rest := by
    intro rest
    rw [List.append_assoc, List.singleton_append]
  refine ⟨?_, ?_, ?_⟩
  · intro rest
    rw [happend, unescaped_escaped hquote.ne_backslash]
  · intro hplain rest
    rw [happend, denoted_escaped hquote, fault?_eq_none_iff.mpr hplain]
  · intro hplain
    rcases fault?_of_not_isPlain hplain with hfault | hfault
    · refine Or.inl fun rest => ?_
      rw [happend, denoted_escaped hquote, hfault]
    · refine Or.inr fun rest => ?_
      rw [happend, denoted_escaped hquote, hfault]

/-- Property keys and inlined texts are read as string literals up to the closing quote that was
written for them, and denote what they were written for exactly if that is plain. -/
theorem literals_read_back (letters : Letters) (options : Options) (o : Output) (s : String) :
    (∃ body, (o.key s).text.toList = o.text.toList ++ '"' :: body ∧
      (o.key s).parameters = o.parameters ∧ SpellsOut letters '"' body s.toList) ∧
    ∃ body, (o.literal ⟨true, options⟩ (.text s : Value ρ)).text.toList =
        o.text.toList ++ Char.ofNat 39 :: body ∧
      (o.literal ⟨true, options⟩ (.text s : Value ρ)).parameters = o.parameters ∧
      SpellsOut letters (Char.ofNat 39) body s.toList := by
  have hpush : ∀ quote, (o.push (quoted quote s)).text.toList =
      o.text.toList ++ quote :: (escaped quote s.toList ++ [quote]) := by
    intro quote
    rw [push, String.toList_append, quoted, String.toList_ofList, List.cons_append]
  refine ⟨⟨_, hpush '"', rfl, spellsOut_escaped (Or.inr rfl) _⟩, ?_⟩
  exact ⟨_, hpush (Char.ofNat 39), rfl, spellsOut_escaped (Or.inl rfl) _⟩

/-- A key with a dollar sign and a text with a line break stand in the script as they are, and are
no literals of fixed characters there. -/
theorem literals_misread :
    (Dialect.plain.compile (⟨"g", .ofList [⟨"has", [.key "$a", .bool true]⟩], default, 0, ∅⟩ :
        Traversal Unit) true = .ok ⟨"g.has(\"$a\", true)", []⟩ ∧
      ∀ rest, denoted .ascii '"' ("$a\"".toList ++ rest) = .error .interpolation) ∧
    Dialect.plain.compile (⟨"g", .ofList [⟨"inject", [.text "a\nb"]⟩], default, 0, ∅⟩ :
        Traversal Unit) true = .ok ⟨"g.inject('a\nb')", []⟩ ∧
      ∀ rest, denoted .ascii (Char.ofNat 39) ("a\nb'".toList ++ rest) = .error .lineBreak := by
  refine ⟨⟨by decide +kernel, ?_⟩, by decide +kernel, ?_⟩
  · intro rest
    rfl
  · intro rest
    rfl

end Output

end Gremlin
