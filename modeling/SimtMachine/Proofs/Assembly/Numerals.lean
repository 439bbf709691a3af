import SimtMachine.Proofs.Assembly.Tokens

/-!
# Numerals

The digits that a number is printed with stand for this number again, in every positional system of
at most sixteen digits and with any number of zeros in front.
-/

namespace SimtMachine.Assembly

variable {base n : Nat} {ds : List Char} {c : Char}

theorem numeral_concat (base : Nat) (ds : List Char) (c : Char) :
    numeral base (ds ++ [c]) = numeral base ds * base + digitValue c := by
  rw [numeral, numeral, List.reverse_append, List.reverse_singleton, List.singleton_append,
    List.map_cons, Nat.ofDigits_cons]
  ring

theorem digitValue_digitChar {d : Nat} (h : d < 16) : digitValue d.digitChar = d := by
  revert d
  decide +kernel

theorem exists_digitChar (hb : 1 < base) (hc : c ∈ Nat.toDigits base n) :
    ∃ d < base, c = d.digitChar := by
  induction n using Nat.strong_induction_on with
  | _ n ih =>
    by_cases hn : n < base
    · rw [Nat.toDigits_of_lt_base hn, List.mem_singleton] at hc
      exact ⟨n, hn, hc⟩
    · rw [Nat.toDigits_of_base_le hb (by omega), List.mem_append, List.mem_singleton] at hc
      rcases hc with hc | hc
      · exact ih _ (Nat.div_lt_self (by omega) hb) hc
      · exact ⟨n % base, Nat.mod_lt _ (by omega), hc⟩

theorem numeral_toDigits (hb : 1 < base) (hb' : base ≤ 16) (n : Nat) :
    numeral base (Nat.toDigits base n) = n := by
  induction n using Nat.strong_induction_on with
  | _ n ih =>
    by_cases hn : n < base
    · rw [Nat.toDigits_of_lt_base hn, ← List.nil_append [n.digitChar], numeral_concat,
        digitValue_digitChar (by omega)]
      simp [numeral]
    · have hmod : n % base < base := Nat.mod_lt _ (by omega)
      rw [Nat.toDigits_of_base_le hb (by omega), numeral_concat,
        ih _ (Nat.div_lt_self (by omega) hb), digitValue_digitChar (by omega), mul_comm]
      exact Nat.div_add_mod n base

theorem numeral_replicate_append (base k : Nat) (ds : List Char) :
    numeral base (List.replicate k '0' ++ ds) = numeral base ds := by
  induction k with
  | zero => rfl
  | succ k ih =>
    have h0 : digitValue '0' = 0 := by decide +kernel
    rw [List.replicate_succ, List.cons_append, numeral_cons, ih, h0, Nat.zero_mul, Nat.zero_add]

/-! ## Printed numbers -/

/-- The digits of a printed number behind some zeros. -/
def zeroPadded (base k n : Nat) : List Char := List.replicate k '0' ++ Nat.toDigits base n

theorem numeral_zeroPadded (hb : 1 < base) (hb' : base ≤ 16) (k n : Nat) :
    numeral base (zeroPadded base k n) = n := by
  rw [zeroPadded, numeral_replicate_append, numeral_toDigits hb hb']

theorem zeroPadded_ne_nil (base k n : Nat) : zeroPadded base k n ≠ [] := by
  simp [zeroPadded, Nat.toDigits_ne_nil]

theorem forall_mem_zeroPadded {p : Char → Bool} (hb : 1 < base)
    (hp : ∀ d < base, p d.digitChar = true) (k n : Nat) :
    ∀ c ∈ zeroPadded base k n, p c = true := by
  intro c hc
  rcases List.mem_append.1 hc with hc | hc
  · obtain rfl := List.eq_of_mem_replicate hc
    exact hp 0 (by omega)
  · obtain ⟨d, hd, rfl⟩ := exists_digitChar hb hc
    exact hp d hd

/-- A number may be written in each of the three bases, with any number of zeros in front. -/
theorem numberText_zeroPadded (k n : Nat) : NumberText (zeroPadded 10 k n) n ∧
    NumberText ('0' :: 'x' :: zeroPadded 16 k n) n ∧
    NumberText ('0' :: 'b' :: zeroPadded 2 k n) n := by
  have hd := NumberText.decimal (zeroPadded_ne_nil 10 k n)
    (forall_mem_zeroPadded (by decide) (by decide +kernel) k n)
  have hx := NumberText.hexadecimal (zeroPadded_ne_nil 16 k n)
    (forall_mem_zeroPadded (by decide) (by decide +kernel) k n)
  have hb := NumberText.binary (zeroPadded_ne_nil 2 k n)
    (forall_mem_zeroPadded (by decide) (by decide +kernel) k n)
  rw [numeral_zeroPadded (by decide) (by decide)] at hd hx hb
  exact ⟨hd, hx, hb⟩

end SimtMachine.Assembly
