import Mathlib.Tactic.IntervalCases
import Gremlin.Supply

/-!
# Identifiers

The identifier with number `n` is an underscore before the digits of `n` in base 26, written as
letters. The digits can be read back, so different numbers have different identifiers:

* `valueOf_letters`: reading the letters of a number gives the number;
* `identifier_injective`: no identifier has two numbers.
-/

namespace Gremlin.Supply

/-- The digit for a letter. -/
def digit (c : Char) : Nat := c.toNat - 'a'.toNat

/-- The number that letters stand for in base 26, first digit first. -/
def valueOf (cs : List Char) : Nat := cs.foldl (fun n c => 26 * n + digit c) 0

theorem digit_letter {d : Nat} (h : d < 26) : digit (letter d) = d := by
  interval_cases d <;> rfl

theorem valueOf_append_singleton (cs : List Char) (c : Char) :
    valueOf (cs ++ [c]) = 26 * valueOf cs + digit c := by
  simp [valueOf]

theorem valueOf_letters (n : Nat) : valueOf (letters n) = n := by
  induction n using letters.induct with
  | case1 n hsmall =>
    rw [letters, if_pos hsmall]
    have hdigit : digit (letter n) = n := digit_letter hsmall
    simpa [valueOf] using hdigit
  | case2 n hlarge ih =>
    rw [letters, if_neg hlarge, valueOf_append_singleton, ih]
    have hlast : n % 26 < 26 := Nat.mod_lt n (by decide)
    rw [digit_letter hlast]
    exact Nat.div_add_mod n 26

theorem identifier_injective {m n : Nat} (h : identifier m = identifier n) : m = n := by
  have hletters : letters m = letters n := by
    have hlist : '_' :: letters m = '_' :: letters n := by
      simpa [identifier] using congrArg String.toList h
    injection hlist
  rw [← valueOf_letters m, hletters, valueOf_letters n]

end Gremlin.Supply
