/-!
# Numerals

Text of natural numbers in the positional systems that the machine's reports use: lower-case
hexadecimal padded with zeros, and columns padded with blanks.
-/

namespace SimtMachine.Numeral

/-- `s` filled up with blanks on the left to at least `width` characters. -/
def alignRight (width : Nat) (s : String) : String :=
  String.ofList (s.toList.leftpad width ' ')

/-- `s` filled up with blanks on the right to at least `width` characters. -/
def alignLeft (width : Nat) (s : String) : String :=
  String.ofList (s.toList.rightpad width ' ')

/-- Lower-case hexadecimal digits of `n`, at least `width` of them. -/
def hex (width n : Nat) : String :=
  String.ofList ((Nat.toDigits 16 n).leftpad width '0')

/-- An address: `0x` and at least two hexadecimal digits. -/
def address (n : Nat) : String :=
  "0x" ++ hex 2 n

/-- A machine word: `0x` and at least four hexadecimal digits. -/
def word (n : Nat) : String :=
  "0x" ++ hex 4 n

end SimtMachine.Numeral
