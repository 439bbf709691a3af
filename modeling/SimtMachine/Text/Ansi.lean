/-!
# Terminal styles

Text painted with the escape sequences of a colour terminal: a sequence that selects the style, the
text, and the sequence that returns to normal.
-/

namespace SimtMachine.Ansi

inductive Colour
  | red | green | yellow | blue | purple | cyan | white
deriving DecidableEq

/-- Number that selects a foreground colour. -/
def Colour.code : Colour → String
  | red => "31"
  | green => "32"
  | yellow => "33"
  | blue => "34"
  | purple => "35"
  | cyan => "36"
  | white => "37"

/-- A colour with an optional weight. -/
inductive Style
  | plain (c : Colour)
  | bold (c : Colour)
  | dim (c : Colour)
deriving DecidableEq

/-- The parameters that select a style, the weight first. -/
def Style.codes : Style → String
  | plain c => c.code
  | bold c => "1;" ++ c.code
  | dim c => "2;" ++ c.code

def Style.paint (s : Style) (text : String) : String :=
  "\x1b[" ++ s.codes ++ "m" ++ text ++ "\x1b[0m"

end SimtMachine.Ansi
