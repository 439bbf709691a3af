import SimtMachine.Number.Binary64

/-!
# Scalars of JSON texts

Readers for the parts of a JSON text that hold no other parts. Each takes the text from where the
part begins and returns it with the rest of the text, or nothing if the text is malformed there.
-/

namespace SimtMachine.Json

/-- A value that holds no other values. Integers are those that 64 bits hold with or without sign;
any other number is a float, and so is minus zero. -/
inductive Scalar
  | null
  | bool (b : Bool)
  | integer (n : Int)
  | float (negative : Bool) (magnitude : Binary64)
  | string (s : String)
deriving DecidableEq

/-- What a value turns out to be at its first characters. -/
inductive Head
  | scalar (s : Scalar)
  | array
  | object
deriving DecidableEq

/-- The characters that may stand between the parts of a text. -/
def isSpace (c : Char) : Bool := c = ' ' || c = '\t' || c = '\n' || c = '\r'

def skipSpace (cs : List Char) : List Char := cs.dropWhile isSpace

def hexDigit? (c : Char) : Option Nat :=
  if '0' ≤ c ∧ c ≤ '9' then some (c.toNat - '0'.toNat)
  else if 'a' ≤ c ∧ c ≤ 'f' then some (c.toNat - 'a'.toNat + 10)
  else if 'A' ≤ c ∧ c ≤ 'F' then some (c.toNat - 'A'.toNat + 10)
  else none

/-- The 16-bit code unit with four given hexadecimal digits. -/
def codeUnit? (a b c d : Char) : Option Nat := do
  return (((← hexDigit? a) * 16 + (← hexDigit? b)) * 16 + (← hexDigit? c)) * 16 + (← hexDigit? d)

/-- Whether a code unit is the first half of a pair. -/
def isLeading (u : Nat) : Bool := 0xD800 ≤ u && u ≤ 0xDBFF

/-- Whether a code unit is the second half of a pair. -/
def isTrailing (u : Nat) : Bool := 0xDC00 ≤ u && u ≤ 0xDFFF

/-- The character that a pair of code units stands for. -/
def pairedChar (leading trailing : Nat) : Char :=
  Char.ofNat ((leading - 0xD800) * 0x400 + (trailing - 0xDC00) + 0x10000)

/-- The character after a backslash stands for this one. -/
def simpleEscape? : Char → Option Char
  | '"' => some '"'
  | '\\' => some '\\'
  | '/' => some '/'
  | 'b' => some '\x08'
  | 'f' => some '\x0c'
  | 'n' => some '\n'
  | 'r' => some '\r'
  | 't' => some '\t'
  | _ => none

/-- The content of a string, from after its opening quote. A code unit of a pair must not stand
alone, and control characters must be escaped. -/
def stringContent : List Char → Option (List Char × List Char)
  | [] => none
  | '"' :: rest => some ([], rest)
  | '\\' :: 'u' :: a :: b :: c :: d :: rest =>
    match codeUnit? a b c d with
    | none => none
    | some u =>
      if isTrailing u then none
      else if isLeading u then
        match rest with
        | '\\' :: 'u' :: e :: f :: g :: h :: rest =>
          match codeUnit? e f g h with
          | none => none
          | some v =>
            if isTrailing v then
              (stringContent rest).map fun (s, rest) ↦ (pairedChar u v :: s, rest)
            else none
        | _ => none
      else (stringContent rest).map fun (s, rest) ↦ (Char.ofNat u :: s, rest)
  | '\\' :: c :: rest =>
    match simpleEscape? c with
    | none => none
    | some e => (stringContent rest).map fun (s, rest) ↦ (e :: s, rest)
  | c :: rest =>
    if c.toNat < 0x20 then none else (stringContent rest).map fun (s, rest) ↦ (c :: s, rest)

/-- A string, from its opening quote on. -/
def string? : List Char → Option (String × List Char)
  | '"' :: rest => (stringContent rest).map fun (s, rest) ↦ (String.ofList s, rest)
  | _ => none

/-- Appends digits to a number for as long as 64 bits hold it, and returns the number, how many
digits it took, and the rest of the text. -/
def digitsWithin : (acc : Nat) → List Char → Nat × Nat × List Char
  | acc, [] => (acc, 0, [])
  | acc, c :: rest =>
    let next := acc * 10 + (c.toNat - '0'.toNat)
    if c.isDigit && next < Nat.pow 2 64 then
      let (n, k, rest) := digitsWithin next rest
      (n, k + 1, rest)
    else (acc, 0, c :: rest)

def countDigits (cs : List Char) : Nat × List Char :=
  ((cs.takeWhile Char.isDigit).length, cs.dropWhile Char.isDigit)

def startsWithDigit : List Char → Bool
  | c :: _ => c.isDigit
  | [] => false

/-- The decimal exponent of a number whose point is already accounted for by `exponent`, from where
it may be written. -/
def scientific (exponent : Int) (cs : List Char) : Option (Int × List Char) :=
  match cs with
  | c :: rest =>
    if c = 'e' || c = 'E' then
      let (negative, rest) := match rest with
        | '+' :: rest => (false, rest)
        | '-' :: rest => (true, rest)
        | _ => (false, rest)
      if startsWithDigit rest then
        let n := (rest.takeWhile Char.isDigit).foldl (fun n d ↦ n * 10 + (d.toNat - '0'.toNat)) 0
        some (if negative then exponent - n else exponent + n, rest.dropWhile Char.isDigit)
      else none
    else some (exponent, cs)
  | [] => some (exponent, cs)

/-- The digits and the decimal exponent of a number with a fraction or an exponent, from the end of
its whole part on. Digits that 64 bits cannot hold are dropped from the fraction. -/
def fractional (whole : Nat) (exponent : Int) (cs : List Char) :
    Option (Nat × Int × List Char) := do
  match cs with
  | '.' :: rest =>
    if startsWithDigit rest then
      let (digits, k, rest) := digitsWithin whole rest
      let (exponent, rest) ← scientific (exponent - k) (rest.dropWhile Char.isDigit)
      return (digits, exponent, rest)
    else none
  | _ =>
    let (exponent, rest) ← scientific exponent cs
    return (whole, exponent, rest)

/-- A number without its sign. -/
def magnitude (negative : Bool) (cs : List Char) : Option (Scalar × List Char) := do
  let (whole, dropped, rest) ← match cs with
    | '0' :: rest => if startsWithDigit rest then none else some (0, 0, rest)
    | _ =>
      if startsWithDigit cs then
        let (whole, _, rest) := digitsWithin 0 cs
        let (dropped, rest) := countDigits rest
        some (whole, dropped, rest)
      else none
  let isWhole := dropped = 0 && match rest with
    | c :: _ => c ≠ '.' && c ≠ 'e' && c ≠ 'E'
    | [] => true
  if isWhole && (if negative then 0 < whole && whole ≤ Nat.pow 2 63 else true) then
    return (.integer (if negative then -whole else whole), rest)
  let (digits, exponent, rest) ← fractional whole dropped rest
  return (.float negative (← Binary64.ofDecimal digits exponent), rest)

/-- The text after the given word. -/
def word : (text : List Char) → List Char → Option (List Char)
  | [], cs => some cs
  | k :: ks, c :: cs => if c = k then word ks cs else none
  | _ :: _, [] => none

/-- What a value is, from its first character on. Of an array or object nothing is read. -/
def head? (cs : List Char) : Option (Head × List Char) :=
  let scalar : Scalar × List Char → Head × List Char := fun (s, rest) ↦ (.scalar s, rest)
  match cs with
  | '[' :: _ => some (.array, cs)
  | '\x7b' :: _ => some (.object, cs)
  | '"' :: _ => (string? cs).map fun (s, rest) ↦ scalar (.string s, rest)
  | '-' :: rest => (magnitude true rest).map scalar
  | 'n' :: rest => (word "ull".toList rest).map fun rest ↦ scalar (.null, rest)
  | 't' :: rest => (word "rue".toList rest).map fun rest ↦ scalar (.bool true, rest)
  | 'f' :: rest => (word "alse".toList rest).map fun rest ↦ scalar (.bool false, rest)
  | _ => (magnitude false cs).map scalar

end SimtMachine.Json
