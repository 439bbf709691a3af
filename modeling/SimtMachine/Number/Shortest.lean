import SimtMachine.Number.Binary64

/-!
# Shortest decimals

The decimal with the fewest digits among those that read back as a given binary number, and its
text: positional for moderate exponents, with a point and at least one digit after it, and
scientific otherwise.
-/

namespace SimtMachine.Binary64

/-- A number `digits * 10 ^ exponent`. -/
structure Decimal where
  digits : Nat
  exponent : Int
deriving DecidableEq

/-- Compares `digits * 10 ^ exponent` with `n` quarters of the unit `2 ^ unit`. -/
def Decimal.compareQuarters (d : Decimal) (n : Nat) (unit : Int) : Ordering :=
  compare (d.digits * Nat.pow 10 d.exponent.toNat * Nat.pow 2 (2 - unit).toNat)
    (n * Nat.pow 2 (unit - 2).toNat * Nat.pow 10 (-d.exponent).toNat)

/-- Whether a decimal lies in the interval that rounds to a number other than zero. The interval
reaches half-way to the neighbours of the number and holds its ends if the significand is even. -/
def roundsTo (x : Binary64) (d : Decimal) : Bool :=
  let quarters := 4 * x.significand
  let below := if 2 * x.significand = significands && x.exponent > minExponent then 1 else 2
  let low := d.compareQuarters (quarters - below) x.exponent
  let high := d.compareQuarters (quarters + 2) x.exponent
  let even := x.significand % 2 = 0
  (low = .gt || (even && low = .eq)) && (high = .lt || (even && high = .eq))

/-- The decimal exponent of the leading digit of a number other than zero. -/
def leadingExponent (x : Binary64) : Int :=
  ((Nat.toDigits 10 (x.num * Nat.pow 10 400 / x.den)).length : Int) - 401

/-- The decimal with at most `n` digits that is nearest to the number and reads back as it, if there
is one. -/
def withDigits? (x : Binary64) (n : Nat) : Option Decimal :=
  let e := x.leadingExponent - n + 1
  let num := x.num * Nat.pow 10 (-e).toNat
  let den := x.den * Nat.pow 10 e.toNat
  let down : Decimal := ⟨num / den, e⟩
  let up : Decimal := ⟨num / den + 1, e⟩
  let nearest : Decimal := ⟨roundQuotient num den, e⟩
  if x.roundsTo nearest then some nearest
  else if x.roundsTo down then some down
  else if x.roundsTo up then some up
  else none

/-- The decimal without zeros at the end of its digits. -/
def Decimal.normalize : (fuel : Nat) → Decimal → Decimal
  | 0, d => d
  | fuel + 1, d =>
    if d.digits % 10 = 0 && d.digits ≠ 0 then normalize fuel ⟨d.digits / 10, d.exponent + 1⟩ else d

/-- The shortest decimal that reads back as a number other than zero; seventeen digits are always
enough. -/
def shortest (x : Binary64) : Decimal :=
  (((List.range' 1 17).findSome? x.withDigits?).getD ⟨0, 0⟩).normalize 20

/-- The text of a decimal. The point stands among the digits or after up to four zeros before them
where at most sixteen places come before it; otherwise it follows the first digit, and the exponent
comes last, always with its sign. -/
def Decimal.text (d : Decimal) : String :=
  let ds := Nat.toDigits 10 d.digits
  let places := d.exponent + ds.length
  let zeros (n : Int) : String := String.ofList (List.replicate n.toNat '0')
  if 0 ≤ d.exponent && places ≤ 16 then String.ofList ds ++ zeros d.exponent ++ ".0"
  else if 0 < places && places ≤ 16 then
    String.ofList (ds.take places.toNat) ++ "." ++ String.ofList (ds.drop places.toNat)
  else if -5 < places && places ≤ 0 then "0." ++ zeros (-places) ++ String.ofList ds
  else
    let rest := ds.drop 1
    String.ofList (ds.take 1) ++ (if rest.isEmpty then "" else "." ++ String.ofList rest) ++ "e" ++
      (if 0 < places then "+" else "") ++ toString (places - 1)

def text (x : Binary64) : String :=
  if x.significand = 0 then "0.0" else x.shortest.text

end SimtMachine.Binary64
