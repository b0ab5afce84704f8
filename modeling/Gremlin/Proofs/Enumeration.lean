import Mathlib.Data.List.Induction
import Mathlib.Data.List.Shortlex
import Gremlin.Proofs.Minting

/-!
# The sequence of identifiers

The letters of a number are a numeral: lowercase letters, at least one, and none in front that
stands for zero unless it is the only one. Every numeral is the letters of one number, and the
larger of two numbers has the longer numeral, or the one that is later in the alphabet.

1. `Supply.isNumeral_letters`, `Supply.letters_valueOf`: the letters of numbers are the numerals;
2. `Supply.shortlex_letters`: numbers and their letters are ordered alike;
3. `Supply.drawLabels_eq`: a family that draws one label after another gets the identifiers one
   after another;
4. `Supply.identifiers_enumerate`: all of these for identifiers.
-/

namespace Gremlin.Supply

/-! ## Numerals -/

/-- The letters are a number in base 26, written without zeros in front. -/
structure IsNumeral (cs : List Char) : Prop where
  nonempty : cs ≠ []
  lowercase : ∀ c ∈ cs, c.isLower = true
  leading : cs.head? = some 'a' → cs = ['a']

theorem isLower_iff {c : Char} : c.isLower = true ↔ 97 ≤ c.toNat ∧ c.toNat ≤ 122 := by
  have hlower : c.isLower = (decide (c.val ≥ 97) && decide (c.val ≤ 122)) := rfl
  rw [hlower, Bool.and_eq_true, decide_eq_true_iff, decide_eq_true_iff, ge_iff_le,
    UInt32.le_iff_toNat_le, UInt32.le_iff_toNat_le]
  rfl

theorem toNat_letter {d : Nat} (h : d < 26) : (letter d).toNat = 97 + d := by
  interval_cases d <;> rfl

theorem isLower_letter {d : Nat} (h : d < 26) : (letter d).isLower = true := by
  rw [isLower_iff, toNat_letter h]
  omega

theorem letter_digit {c : Char} (h : c.isLower = true) : letter (digit c) = c := by
  obtain ⟨hlow, -⟩ := isLower_iff.mp h
  have hcode : 97 + (c.toNat - 97) = c.toNat := by omega
  show Char.ofNat (97 + (c.toNat - 97)) = c
  rw [hcode, Char.ofNat_toNat]

theorem digit_lt {c : Char} (h : c.isLower = true) : digit c < 26 := by
  obtain ⟨-, hhigh⟩ := isLower_iff.mp h
  show c.toNat - 97 < 26
  omega

theorem letters_ne_nil (n : Nat) : letters n ≠ [] := by
  rw [letters]
  split
  · exact List.cons_ne_nil _ _
  · exact List.append_ne_nil_of_right_ne_nil _ (List.cons_ne_nil _ _)

/-- The first letter stands for zero only if nothing follows. -/
theorem isNumeral_letters (n : Nat) : IsNumeral (letters n) := by
  induction n using letters.induct with
  | case1 n hsmall =>
    rw [letters, if_pos hsmall]
    refine ⟨List.cons_ne_nil _ _, ?_, ?_⟩
    · intro c hc
      rw [List.mem_singleton.mp hc]
      exact isLower_letter hsmall
    · intro hfirst
      injection hfirst with hletter
      rw [hletter]
  | case2 n hlarge ih =>
    have hne := letters_ne_nil (n / 26)
    rw [letters, if_neg hlarge]
    refine ⟨List.append_ne_nil_of_left_ne_nil hne _, ?_, ?_⟩
    · intro c hc
      rcases List.mem_append.mp hc with hinit | hlast
      · exact ih.lowercase c hinit
      · rw [List.mem_singleton.mp hlast]
        exact isLower_letter (Nat.mod_lt n (by decide))
    · -- what stands in front has a value, so it is not zero
      intro hfirst
      rw [List.head?_append_of_ne_nil _ hne] at hfirst
      have hzero : valueOf (letters (n / 26)) = valueOf ['a'] := by rw [ih.leading hfirst]
      rw [valueOf_letters] at hzero
      have hvalue : valueOf ['a'] = 0 := rfl
      omega

/-- A numeral that is longer than one letter goes on from a numeral for more than zero. -/
theorem IsNumeral.init {cs : List Char} {c : Char} (h : IsNumeral (cs ++ [c])) (hcs : cs ≠ []) :
    IsNumeral cs ∧ cs ≠ ['a'] := by
  have hfirst : cs.head? ≠ some 'a' := by
    intro hzero
    have hall : cs ++ [c] = ['a'] := by
      apply h.leading
      rw [List.head?_append_of_ne_nil _ hcs, hzero]
    cases cs with
    | nil => contradiction
    | cons first rest => simp at hall
  refine ⟨⟨hcs, ?_, ?_⟩, ?_⟩
  · intro d hd
    exact h.lowercase d (List.mem_append_left _ hd)
  · intro hzero
    contradiction
  · intro hzero
    rw [hzero] at hfirst
    contradiction

/-- Every numeral is the letters of the number that it stands for. -/
theorem letters_valueOf {cs : List Char} (h : IsNumeral cs) : letters (valueOf cs) = cs := by
  -- the last letter is the last digit, which `letters` splits off as well
  induction cs using List.reverseRecOn with
  | nil => exact absurd rfl h.nonempty
  | append_singleton cs c ih =>
    have hlower : c.isLower = true := by
      apply h.lowercase
      exact List.mem_append_right _ (List.mem_singleton_self c)
    have hdigit := digit_lt hlower
    rw [valueOf_append_singleton]
    by_cases hcs : cs = []
    · subst hcs
      have hvalue : 26 * valueOf [] + digit c = digit c := by simp [valueOf]
      rw [hvalue, letters, if_pos hdigit, letter_digit hlower, List.nil_append]
    · obtain ⟨hnumeral, hzero⟩ := h.init hcs
      have hinit := ih hnumeral
      have hpositive : valueOf cs ≠ 0 := by
        intro hvalue
        rw [hvalue, letters, if_pos (by decide)] at hinit
        exact hzero hinit.symm
      have hlarge : ¬ 26 * valueOf cs + digit c < 26 := by omega
      have hquotient : (26 * valueOf cs + digit c) / 26 = valueOf cs := by omega
      have hremainder : (26 * valueOf cs + digit c) % 26 = digit c := by omega
      rw [letters, if_neg hlarge, hquotient, hremainder, hinit, letter_digit hlower]

/-! ## The order -/

theorem letter_lt {d e : Nat} (h : d < e) (he : e < 26) : letter d < letter e := by
  rw [Char.lt_def, UInt32.lt_iff_toNat_lt, Char.toNat_val, Char.toNat_val, toNat_letter he,
    toNat_letter (Nat.lt_trans h he)]
  omega

/-- What follows two lists of one length does not matter to their order. -/
theorem lex_append {s t : List Char} (h : List.Lex (· < ·) s t) (hlength : s.length = t.length)
    (u v : List Char) : List.Lex (· < ·) (s ++ u) (t ++ v) := by
  induction h with
  | nil => contradiction
  | rel hlt => exact .rel hlt
  | cons _ ih => exact .cons (ih (Nat.succ.inj hlength))

theorem shortlex_append_singleton {s t : List Char} (h : List.Shortlex (· < ·) s t) (c d : Char) :
    List.Shortlex (· < ·) (s ++ [c]) (t ++ [d]) := by
  rcases List.shortlex_def.mp h with hshorter | ⟨hlength, hlex⟩
  · apply List.Shortlex.of_length_lt
    simpa using hshorter
  · apply List.Shortlex.of_lex
    · simpa using hlength
    · exact lex_append hlex hlength [c] [d]

/-- The larger number has more letters, or as many and later ones. -/
theorem shortlex_letters {m n : Nat} (h : m < n) :
    List.Shortlex (· < ·) (letters m) (letters n) := by
  induction n using letters.induct generalizing m with
  | case1 n hsmall =>
    have hm : m < 26 := Nat.lt_trans h hsmall
    rw [letters, if_pos hm, letters, if_pos hsmall, List.shortlex_singleton_iff]
    exact letter_lt h hsmall
  | case2 n hlarge ih =>
    rw [letters.eq_def n, if_neg hlarge]
    by_cases hm : m < 26
    · -- one letter against at least two
      rw [letters, if_pos hm]
      apply List.Shortlex.of_length_lt
      have hlength := List.length_pos_of_ne_nil (letters_ne_nil (n / 26))
      simpa using hlength
    · rw [letters, if_neg hm]
      have hle : m / 26 ≤ n / 26 := Nat.div_le_div_right (Nat.le_of_lt h)
      rcases Nat.lt_or_eq_of_le hle with hlt | heq
      · exact shortlex_append_singleton (ih hlt) _ _
      · -- the numbers differ in their last letter alone
        rw [heq]
        apply List.Shortlex.append_left
        rw [List.shortlex_singleton_iff]
        have hlast : m % 26 < n % 26 := by omega
        exact letter_lt hlast (Nat.mod_lt n (by decide))

/-! ## Drawing labels one after another -/

/-- Draws labels one after another. -/
def drawLabels (family : Nat) : (count : Nat) → Building (List String)
  | 0 => pure []
  | count + 1 => do
    let first ← drawLabel family
    return first :: (← drawLabels family count)

theorem drawLabels_eq {family : Nat} {supply : Supply} {drawn : UInt64}
    (h : supply.drawn[family]? = some drawn) (count : Nat) :
    (drawLabels family count supply).1 = labelsFrom drawn count := by
  induction count generalizing supply drawn with
  | zero => rfl
  | succ count ih =>
    have hfirst : (drawLabel family supply).1 = identifier drawn.toNat := by
      rw [drawLabel, Array.getD_eq_getD_getElem?, h, Option.getD_some]
    have hafter : (drawLabel family supply).2.drawn[family]? = some (drawn + 1) := by
      simp [drawLabel, Array.getElem?_modify, h]
    have hrest := ih hafter
    have hdraws : (drawLabels family (count + 1) supply).1 =
        (drawLabel family supply).1 ::
          (drawLabels family count (drawLabel family supply).2).1 := rfl
    rw [hdraws, hfirst, hrest, Nat.add_comm, labelsFrom_add]
    simp [labelsFrom]

/-! ## Identifiers -/

/-- Shorter first, and among those of one length the one that comes first in the alphabet. -/
def Before (a b : String) : Prop := List.Shortlex (· < ·) a.toList b.toList

theorem before_identifier {m n : Nat} (h : m < n) : Before (identifier m) (identifier n) := by
  have hcons := (shortlex_letters h).append_left ['_']
  simpa [Before, identifier] using hcons

/-- Identifiers are numbered in order. The labels of a new family are the identifiers from number
zero on, up to as many as a counter of 64 bits can tell apart. A smaller number has an identifier
that is shorter, or as long and earlier in the alphabet. Every identifier is an underscore before
a numeral, which is read back as the number; and every numeral is the one of exactly one number. -/
theorem identifiers_enumerate :
    (∀ supply count, count ≤ 2 ^ 64 →
      (drawLabels (newFamily supply).1 count (newFamily supply).2).1 =
        (List.range count).map identifier) ∧
    (∀ m n, m < n → Before (identifier m) (identifier n)) ∧
    (∀ n, ∃ cs, identifier n = String.ofList ('_' :: cs) ∧ IsNumeral cs ∧ valueOf cs = n) ∧
    ∀ cs, IsNumeral cs → ∃! n, identifier n = String.ofList ('_' :: cs) := by
  refine ⟨?_, fun m n => before_identifier, ?_, ?_⟩
  · intro supply count hcount
    have hopened : (newFamily supply).2.drawn[(newFamily supply).1]? = some 0 := by
      simp [newFamily]
    rw [drawLabels_eq hopened, labelsFrom_zero hcount]
  · intro n
    exact ⟨letters n, rfl, isNumeral_letters n, valueOf_letters n⟩
  · intro cs hcs
    have hidentifier : identifier (valueOf cs) = String.ofList ('_' :: cs) := by
      rw [identifier, letters_valueOf hcs]
    refine ⟨valueOf cs, hidentifier, ?_⟩
    intro n hn
    exact identifier_injective (hn.trans hidentifier.symm)

/-- The last identifier of two characters, the first of three, and a numeral between them. -/
theorem identifiers_enumerate_carry :
    Before (identifier 25) (identifier 26) ∧ identifier 25 = "_z" ∧ identifier 26 = "_ba" ∧
      (drawLabels (newFamily {}).1 2 (newFamily {}).2).1 = ["_a", "_b"] ∧
      IsNumeral ['b', 'a'] ∧ ∃! n, identifier n = "_ba" := by
  obtain ⟨hdrawn, hordered, -, honce⟩ := identifiers_enumerate
  have hlast : identifier 25 = "_z" := by decide +kernel
  have hfirst : identifier 26 = "_ba" := by decide +kernel
  have hlabels : (List.range 2).map identifier = ["_a", "_b"] := by decide +kernel
  have hnumeral : IsNumeral ['b', 'a'] := by
    refine ⟨List.cons_ne_nil _ _, ?_, ?_⟩
    · simp [isLower_iff]
    · intro hzero
      contradiction
  exact ⟨hordered 25 26 (by decide), hlast, hfirst, (hdrawn {} 2 (by decide)).trans hlabels,
    hnumeral, honce ['b', 'a'] hnumeral⟩

end Gremlin.Supply
