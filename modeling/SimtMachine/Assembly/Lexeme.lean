import SimtMachine.Instruction.Register

/-!
# Lexemes of the assembly language

The smallest parts of a line of assembly, read from the front of a list of characters that holds no
line end. A reader returns what it read and the rest of the line, or nothing if the line does not
begin with such a part. Words are compared without regard to case.
-/

namespace SimtMachine.Assembly

def isBlank (c : Char) : Bool := c = ' ' || c = '\t'

def isWordChar (c : Char) : Bool := c.isAlphanum || c = '_'

/-- A word does not begin with a digit. -/
def isWordStart (c : Char) : Bool := c.isAlpha || c = '_'

def isHexDigit (c : Char) : Bool :=
  c.isDigit || ('a' ≤ c && c ≤ 'f') || ('A' ≤ c && c ≤ 'F')

def isBinaryDigit (c : Char) : Bool := c = '0' || c = '1'

/-- The line after blanks and a comment, which runs from a semicolon to the end of the line. -/
def skip (cs : List Char) : List Char :=
  match cs.dropWhile isBlank with
  | ';' :: _ => []
  | rest => rest

/-- Whether a word that ended here is complete. -/
def endsWord : List Char → Bool
  | [] => true
  | c :: _ => !isWordChar c

/-- The longest non-empty run of characters of a class. -/
def run (p : Char → Bool) (cs : List Char) : Option (List Char × List Char) :=
  match cs.takeWhile p with
  | [] => none
  | run => some (run, cs.dropWhile p)

/-- The line after the given text. -/
def exactly : (text : List Char) → List Char → Option (List Char)
  | [], cs => some cs
  | k :: ks, c :: cs => if c = k then exactly ks cs else none
  | _ :: _, [] => none

/-- The line after the given word, which is in lower case. What follows the word may continue it. -/
def keyword : (word : List Char) → List Char → Option (List Char)
  | [], cs => some cs
  | k :: ks, c :: cs => if c.toLower = k then keyword ks cs else none
  | _ :: _, [] => none

/-- The line after a letter that may be missing, and whether it was there. -/
def optional (letter : Char) (cs : List Char) : Bool × List Char :=
  match keyword [letter] cs with
  | some rest => (true, rest)
  | none => (false, cs)

/-- The line after a comma and the blanks before it. -/
def comma (cs : List Char) : Option (List Char) := exactly [','] (skip cs)

def ident (cs : List Char) : Option (List Char × List Char) :=
  match cs with
  | c :: rest => if isWordStart c then some (c :: rest.takeWhile isWordChar,
      rest.dropWhile isWordChar) else none
  | [] => none

/-- A name that is directly followed by a colon. -/
def label (cs : List Char) : Option (List Char × List Char) := do
  let (name, rest) ← ident cs
  return (name, ← exactly [':'] rest)

/-- Digits after the mark of their base. -/
def marked (mark : List Char) (isDigit : Char → Bool) (cs : List Char) :
    Option (List Char × List Char) := do
  let (digits, rest) ← run isDigit (← exactly mark cs)
  return (mark ++ digits, rest)

/-- A number: hexadecimal digits after `0x`, binary digits after `0b`, or decimal digits. -/
def number (cs : List Char) : Option (List Char × List Char) :=
  marked ['0', 'x'] isHexDigit cs <|> marked ['0', 'b'] isBinaryDigit cs <|> run Char.isDigit cs

/-- A number that a number sign may mark. -/
def immediate (cs : List Char) : Option (List Char × List Char) :=
  match cs with
  | '#' :: rest => number rest
  | _ => number cs

inductive RegisterName
  | special (r : Reg)
  | general (letter : Char) (digits : List Char)
deriving DecidableEq

/-- One of the three read-only registers. -/
def specialRegister (cs : List Char) : Option (Reg × List Char) :=
  (exactly "%blockIdx".toList cs).map (Reg.blockIdx, ·) <|>
  (exactly "%blockDim".toList cs).map (Reg.blockDim, ·) <|>
  (exactly "%threadIdx".toList cs).map (Reg.threadIdx, ·)

/-- A register by its number, directly after the letter. -/
def generalRegister (cs : List Char) : Option (RegisterName × List Char) :=
  match cs with
  | c :: rest =>
    if c.toLower = 'r' then
      (run Char.isDigit rest).map fun (digits, rest) ↦ (.general c digits, rest)
    else none
  | [] => none

def register (cs : List Char) : Option (RegisterName × List Char) :=
  (specialRegister cs).map (fun (r, rest) ↦ (.special r, rest)) <|> generalRegister cs

inductive Operand
  | number (text : List Char)
  | label (name : List Char)
deriving DecidableEq

/-- A branch target: an address or a name. -/
def target (cs : List Char) : Option (Operand × List Char) :=
  (immediate cs).map (fun (text, rest) ↦ (.number text, rest)) <|>
  (ident cs).map (fun (name, rest) ↦ (.label name, rest))

end SimtMachine.Assembly
