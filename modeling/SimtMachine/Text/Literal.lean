/-!
# Number literals

Unsigned numbers in hexadecimal after `0x`, in binary after `0b`, and otherwise in decimal. The
digits may follow a plus sign. A number that needs more than 64 bits is no literal.
-/

namespace SimtMachine.Literal

/-- The value of a digit in a positional system of at most sixteen digits. -/
def digit? (base : Nat) (c : Char) : Option Nat :=
  let v :=
    if '0' ≤ c ∧ c ≤ '9' then some (c.toNat - '0'.toNat)
    else if 'a' ≤ c ∧ c ≤ 'f' then some (c.toNat - 'a'.toNat + 10)
    else if 'A' ≤ c ∧ c ≤ 'F' then some (c.toNat - 'A'.toNat + 10)
    else none
  v.filter (· < base)

/-- The value of a run of digits that continues the number `acc`. -/
def continue? (base : Nat) : (acc : Nat) → List Char → Option Nat
  | acc, [] => some acc
  | acc, c :: cs =>
    match digit? base c with
    | some d => continue? base (acc * base + d) cs
    | none => none

/-- The value of a non-empty run of digits. -/
def digits? (base : Nat) (cs : List Char) : Option Nat :=
  if cs.isEmpty then none else continue? base 0 cs

/-- The value of a run of digits with an optional plus sign before it, if 64 bits hold it. -/
def unsigned? (base : Nat) (cs : List Char) : Option Nat :=
  let v := match cs with
    | '+' :: ds => digits? base ds
    | ds => digits? base ds
  v.filter (· < Nat.pow 2 64)

def read? : List Char → Option Nat
  | '0' :: 'x' :: cs => unsigned? 16 cs
  | '0' :: 'b' :: cs => unsigned? 2 cs
  | cs => unsigned? 10 cs

end SimtMachine.Literal
