import SimtMachine.Text.Blank
import SimtMachine.Text.Literal
import SimtMachine.Text.Split

/-!
# Data files

The initial content of data memory as text: byte literals separated by commas or white space, with
comments that run from a semicolon to the end of the line.
-/

namespace SimtMachine.DataText

/-- A token that is no byte, and the number of its line. -/
structure Error where
  line : Nat
  token : String
deriving DecidableEq

def Error.message (e : Error) : String :=
  "line " ++ toString e.line ++ ": `" ++ e.token ++ "` is not a byte"

/-- Commas and white space separate tokens. -/
def isSeparator (c : Char) : Bool :=
  c = ',' || Text.isBlank c

def tokens (line : List Char) : List (List Char) :=
  (Text.split isSeparator (line.takeWhile (· ≠ ';'))).filter (!·.isEmpty)

/-- The byte that a token stands for. -/
def byte? (token : List Char) : Option UInt8 :=
  ((Literal.read? token).filter (· < 256)).map UInt8.ofNat

/-- The bytes of the tokens of line number `n`. -/
def readTokens (n : Nat) : List (List Char) → Except Error (List UInt8)
  | [] => .ok []
  | t :: ts =>
    match byte? t with
    | none => .error ⟨n, String.ofList t⟩
    | some b => (readTokens n ts).map (b :: ·)

/-- The bytes of lines numbered from `n` on. -/
def readLines (n : Nat) : List (List Char) → Except Error (List UInt8)
  | [] => .ok []
  | l :: ls => do
    let bytes ← readTokens n (tokens l)
    let rest ← readLines (n + 1) ls
    return bytes ++ rest

/-- The bytes of a data file, or its first token that is no byte. -/
def read (text : String) : Except Error (List UInt8) :=
  readLines 1 (Text.split (· = '\n') text.toList)

end SimtMachine.DataText
