import SimtMachine.Text.Graphic

/-!
# Quoted texts

A text between double quotes, as error reports show it. Quotes, backslashes and the common control
characters are escaped by a backslash, and every other character that is not graphic is given by
its number in braces.
-/

namespace SimtMachine.Text

/-- A character inside a quoted text. -/
def escape (c : Char) : String :=
  if c = '"' then "\\\""
  else if c = '\\' then "\\\\"
  else if c = '\n' then "\\n"
  else if c = '\r' then "\\r"
  else if c = '\t' then "\\t"
  else if c.toNat = 0 then "\\0"
  else if isGraphic c then c.toString
  else "\\u\x7b" ++ String.ofList (Nat.toDigits 16 c.toNat) ++ "\x7d"

/-- A text between double quotes. -/
def quote (s : String) : String :=
  "\"" ++ String.join (s.toList.map escape) ++ "\""

end SimtMachine.Text
