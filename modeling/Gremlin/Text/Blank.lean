/-!
# Blank characters

The characters with the property White_Space, of which a blank name consists.
-/

namespace Gremlin.Text

/-- The character is white space. -/
def isBlank (c : Char) : Bool :=
  (9 ≤ c.toNat && c.toNat ≤ 13) || c == ' ' || c.toNat == 0x85 || c.toNat == 0xA0 ||
    c.toNat == 0x1680 || (0x2000 ≤ c.toNat && c.toNat ≤ 0x200A) || c.toNat == 0x2028 ||
    c.toNat == 0x2029 || c.toNat == 0x202F || c.toNat == 0x205F || c.toNat == 0x3000

/-- The text has no character that is not white space. -/
def allBlank (s : String) : Bool := s.toList.all isBlank

end Gremlin.Text
