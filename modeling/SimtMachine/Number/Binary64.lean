/-!
# Binary floating point

Non-negative finite numbers of the 64-bit binary format, as a significand of at most 53 bits and an
exponent of two, with the two operations that reading a decimal needs. Every operation rounds the
exact result to the nearest number of the format, and to an even significand in the middle between
two.
-/

namespace SimtMachine

/-- The number `significand * 2 ^ exponent`. -/
structure Binary64 where
  significand : Nat
  exponent : Int
deriving DecidableEq

namespace Binary64

/-- The least exponent, that of the numbers next to zero. -/
def minExponent : Int := -1074

/-- The greatest exponent of a finite number. -/
def maxExponent : Int := 971

/-- The number of significands with fewer than 54 bits. -/
def significands : Nat := Nat.pow 2 53

def zero : Binary64 := ⟨0, minExponent⟩

/-- The number as a quotient: its numerator. -/
def num (x : Binary64) : Nat := x.significand * Nat.pow 2 x.exponent.toNat

/-- The number as a quotient: its denominator. -/
def den (x : Binary64) : Nat := Nat.pow 2 (-x.exponent).toNat

/-- The integer nearest to `num / den`, the even one of two. -/
def roundQuotient (num den : Nat) : Nat :=
  let q := num / den
  let r := num % den
  if 2 * r > den || (2 * r = den && q % 2 = 1) then q + 1 else q

/-- The significand of `num / den` at the given exponent, rounded. -/
def significandAt (num den : Nat) (exponent : Int) : Nat :=
  roundQuotient (num * Nat.pow 2 (-exponent).toNat) (den * Nat.pow 2 exponent.toNat)

/-- The number nearest to `num / den`, or nothing if that is too large for the format. -/
def ofQuotient (num den : Nat) : Option Binary64 :=
  if num = 0 then some zero
  else
    let low := max minExponent ((Nat.log2 num : Int) - Nat.log2 den - 53)
    let exponent :=
      if num * Nat.pow 2 (-low).toNat ≥ significands * (den * Nat.pow 2 low.toNat) then low + 1
      else low
    let s := significandAt num den exponent
    let (s, exponent) := if s = significands then (s / 2, exponent + 1) else (s, exponent)
    if exponent > maxExponent then none else some ⟨s, exponent⟩

/-- The number nearest to a power of ten. -/
def tenPower (k : Nat) : Option Binary64 := ofQuotient (Nat.pow 10 k) 1

def mul (x y : Binary64) : Option Binary64 := ofQuotient (x.num * y.num) (x.den * y.den)

/-- The quotient by a number other than zero, rounded. -/
def div (x y : Binary64) : Option Binary64 := ofQuotient (x.num * y.den) (x.den * y.num)

/-- The greatest power of ten in the format is that of this exponent. -/
def maxTenPower : Nat := 308

/-- Scales a number by a power of ten in steps of at most `maxTenPower`, each of which rounds.
Nothing is returned if the result is too large. After `fuel` large steps down, the number is
zero. -/
def scale : (fuel : Nat) → Binary64 → Int → Option Binary64
  | fuel, x, k =>
    if k.natAbs ≤ maxTenPower then
      (tenPower k.natAbs).bind (if k ≥ 0 then x.mul else x.div)
    else if x.significand = 0 then some zero
    else if k ≥ 0 then none
    else match fuel with
      | 0 => some zero
      | fuel + 1 => do scale fuel (← x.div (← tenPower maxTenPower)) (k + maxTenPower)

/-- The number read from the digits of `digits` and a decimal exponent: the digits are rounded
first, and the scaled number is rounded again. -/
def ofDecimal (digits : Nat) (exponent : Int) : Option Binary64 := do
  scale 4 (← ofQuotient digits 1) exponent

end Binary64

end SimtMachine
