/-!
# Source texts

A source text is a sequence of lines, each ended by a line feed, a carriage return, or both in this
order; the last line has no end. In reports a line feed counts a row, with or without a carriage
return before it. A carriage return alone ends a line of assembly, but the row goes on after it.
-/

namespace SimtMachine.Assembly

inductive LineEnd
  | feed | returnFeed | return
deriving DecidableEq

/-- The first line of a text, and the other lines with what comes before each. -/
def splitLines : List Char → List Char × List (LineEnd × List Char)
  | [] => ([], [])
  | '\r' :: '\n' :: cs =>
    let (l, ls) := splitLines cs
    ([], (.returnFeed, l) :: ls)
  | '\n' :: cs =>
    let (l, ls) := splitLines cs
    ([], (.feed, l) :: ls)
  | '\r' :: cs =>
    let (l, ls) := splitLines cs
    ([], (.return, l) :: ls)
  | c :: cs =>
    let (l, ls) := splitLines cs
    (c :: l, ls)

/-- A line with the place of its first character in reports. -/
structure PlacedLine where
  row : Nat
  column : Nat
  text : List Char
deriving DecidableEq

/-- Places the lines that follow a given one. -/
def placeLines (line : PlacedLine) : List (LineEnd × List Char) → List PlacedLine
  | [] => [line]
  | (e, text) :: ls =>
    let next : PlacedLine := match e with
      | .feed | .returnFeed => ⟨line.row + 1, 1, text⟩
      | .return => ⟨line.row, line.column + line.text.length + 1, text⟩
    line :: placeLines next ls

/-- The lines of a text with their places. Rows and columns count from one. -/
def placedLines (text : List Char) : List PlacedLine :=
  let (l, ls) := splitLines text
  placeLines ⟨1, 1, l⟩ ls

end SimtMachine.Assembly
