/-!
# Quoted text in scripts

A quoted text is the text between two quotes in which every quote and every backslash has a
backslash in front of it. Nothing else is changed.
-/

namespace Gremlin.Text

/-- A backslash in front of every quote and every backslash. -/
def escaped (quote : Char) : List Char → List Char
  | [] => []
  | c :: rest =>
    if c = quote ∨ c = '\\' then '\\' :: c :: escaped quote rest else c :: escaped quote rest

/-- The text between two quotes. -/
def quoted (quote : Char) (s : String) : String :=
  String.ofList (quote :: escaped quote s.toList ++ [quote])

end Gremlin.Text
