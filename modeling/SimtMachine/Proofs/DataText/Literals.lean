import SimtMachine.Proofs.Assembly.Tokens

/-!
# Literals and numbers

A literal is written as the assembly language writes a number, with one liberty more: a plus sign
may stand directly before its digits. The reader of literals takes these texts and no other, and it
finds the number that the digits stand for if 64 bits hold it.
-/

namespace SimtMachine.Literal

open Assembly

variable {base acc v : Nat} {p : Char → Bool} {c : Char} {cs ds s t : List Char}

/-! ## Digits -/

/-- The characters of the class are the digits of the positional system. -/
def DigitClass (base : Nat) (p : Char → Bool) : Prop :=
  ∀ c d, digit? base c = some d ↔ p c = true ∧ d = digitValue c

theorem isHexDigit_of_digit? {d : Nat} (h : digit? base c = some d) : isHexDigit c = true := by
  by_contra hc
  simp only [isHexDigit, Char.isDigit, Bool.or_eq_true, Bool.and_eq_true, decide_eq_true_eq,
    not_or] at hc
  have hn : digit? base c = none := by
    have h₀ : ¬('0' ≤ c ∧ c ≤ '9') := hc.1.1
    simp only [digit?, if_neg h₀, if_neg hc.1.2, if_neg hc.2, Option.filter_none]
  simp [hn] at h

/-- Which characters are digits can be checked one by one, since all of them are hexadecimal. -/
theorem digitClass_of (hp : ∀ c, p c = true → isHexDigit c = true)
    (h : ∀ n < 128, isHexDigit (Char.ofNat n) = true → digit? base (Char.ofNat n) =
      if p (Char.ofNat n) then some (digitValue (Char.ofNat n)) else none) :
    DigitClass base p := by
  have heq {c : Char} (hc : isHexDigit c = true) :
      digit? base c = if p c then some (digitValue c) else none :=
    forall_hexDigit (p := fun c ↦ digit? base c = if p c then some (digitValue c) else none) h hc
  intro c d
  constructor
  · intro hd
    have hs := (heq (isHexDigit_of_digit? hd)).symm.trans hd
    rw [Option.ite_none_right_eq_some, Option.some.injEq] at hs
    exact ⟨hs.1, hs.2.symm⟩
  · rintro ⟨hc, rfl⟩
    rw [heq (hp c hc), if_pos hc]

theorem digitClass_hexadecimal : DigitClass 16 isHexDigit :=
  digitClass_of (fun _ h ↦ h) (by decide +kernel)

theorem digitClass_decimal : DigitClass 10 Char.isDigit :=
  digitClass_of (fun _ ↦ isHexDigit_of_isDigit) (by decide +kernel)

theorem digitClass_binary : DigitClass 2 isBinaryDigit :=
  digitClass_of (fun _ h ↦ isHexDigit_of_isDigit (isDigit_of_isBinaryDigit h)) (by decide +kernel)

namespace DigitClass

theorem forall_of_continue? (hp : DigitClass base p) (h : continue? base acc cs = some v) :
    ∀ c ∈ cs, p c = true := by
  induction cs generalizing acc with
  | nil => nofun
  | cons c cs ih =>
    rw [continue?] at h
    split at h
    · next d hd => exact List.forall_mem_cons.2 ⟨((hp c d).1 hd).1, ih h⟩
    · cases h

theorem digits?_eq_some_iff (hp : DigitClass base p) : digits? base cs = some v ↔
    cs ≠ [] ∧ (∀ c ∈ cs, p c = true) ∧ v = numeral base cs := by
  have hvalue (h : ∀ c ∈ cs, p c = true) : continue? base 0 cs = some (numeral base cs) := by
    rw [continue?_eq fun c hc ↦ (hp c _).2 ⟨h c hc, rfl⟩, Nat.zero_mul, Nat.zero_add]
  simp only [digits?, List.isEmpty_iff, Option.ite_none_left_eq_some]
  constructor
  · rintro ⟨hne, h⟩
    have hall := hp.forall_of_continue? h
    exact ⟨hne, hall, Option.some.inj (h.symm.trans (hvalue hall))⟩
  · rintro ⟨hne, hall, rfl⟩
    exact ⟨hne, hvalue hall⟩

/-- Digits that 64 bits hold, perhaps behind a plus sign. -/
theorem unsigned?_eq_some_iff (hp : DigitClass base p) (hplus : p '+' = false) :
    unsigned? base cs = some v ↔ v < 2 ^ 64 ∧ ∃ ds, (cs = ds ∨ cs = '+' :: ds) ∧ ds ≠ [] ∧
      (∀ c ∈ ds, p c = true) ∧ v = numeral base ds := by
  unfold unsigned?
  split
  · next ds =>
    have hfirst : ¬∀ c ∈ '+' :: ds, p c = true := fun h ↦ by simp [hplus] at h
    rw [Option.filter_eq_some_iff, hp.digits?_eq_some_iff, and_comm]
    refine and_congr (by simp) ⟨fun h ↦ ⟨ds, .inr rfl, h⟩, ?_⟩
    rintro ⟨ds', rfl | h, hds⟩
    · exact absurd hds.2.1 hfirst
    · rwa [(List.cons.inj h).2]
  · next hcs =>
    rw [Option.filter_eq_some_iff, hp.digits?_eq_some_iff, and_comm]
    refine and_congr (by simp) ⟨fun h ↦ ⟨cs, .inl rfl, h⟩, ?_⟩
    rintro ⟨ds, rfl | rfl, hds⟩
    · exact hds
    · exact absurd rfl (hcs ds)

end DigitClass

/-! ## Texts of literals -/

/-- The text of a number with a plus sign directly before its digits. -/
def withPlus : List Char → List Char
  | '0' :: 'x' :: ds => '0' :: 'x' :: '+' :: ds
  | '0' :: 'b' :: ds => '0' :: 'b' :: '+' :: ds
  | ds => '+' :: ds

/-- A number of the assembly language that 64 bits hold. -/
def IsNumber (s : List Char) (v : Nat) : Prop := v < 2 ^ 64 ∧ NumberText s v

/-- Such a number with a plus sign directly before its digits. -/
def IsPlusNumber (s : List Char) (v : Nat) : Prop := ∃ t, IsNumber t v ∧ s = withPlus t

theorem isNumber_or_isPlusNumber_iff : IsNumber s v ∨ IsPlusNumber s v ↔
    v < 2 ^ 64 ∧ ∃ t, NumberText t v ∧ (s = t ∨ s = withPlus t) := by
  constructor
  · rintro (⟨hv, hs⟩ | ⟨t, ⟨hv, ht⟩, rfl⟩)
    · exact ⟨hv, s, hs, .inl rfl⟩
    · exact ⟨hv, t, ht, .inr rfl⟩
  · rintro ⟨hv, t, ht, rfl | rfl⟩
    · exact .inl ⟨hv, ht⟩
    · exact .inr ⟨t, ⟨hv, ht⟩, rfl⟩

theorem plus_mem_withPlus (t : List Char) : '+' ∈ withPlus t := by
  unfold withPlus
  split <;> simp

/-- The assembly language has no plus signs. -/
theorem IsPlusNumber.not_isNumber (h : IsPlusNumber s v) (n : Nat) : ¬IsNumber s n := by
  rintro ⟨-, hs⟩
  obtain ⟨t, -, rfl⟩ := h
  exact absurd (hs.isWordChar _ (plus_mem_withPlus t)) (by decide)

theorem not_isDigit_mark {m : Char} (hm : m.isDigit = false) :
    ¬∀ c ∈ '0' :: m :: cs, c.isDigit = true := fun h ↦ by simp [hm] at h

theorem withPlus_decimal (h : ∀ c ∈ ds, c.isDigit = true) : withPlus ds = '+' :: ds := by
  unfold withPlus
  split
  · exact absurd h (not_isDigit_mark (by decide))
  · exact absurd h (not_isDigit_mark (by decide))
  · rfl

/-- A literal with the mark of a base is not decimal. -/
theorem mark_ne_decimal {m : Char} (hm : m.isDigit = false) (h : ∀ c ∈ t, c.isDigit = true) :
    ¬('0' :: m :: cs = t ∨ '0' :: m :: cs = withPlus t) := by
  rw [withPlus_decimal h]
  rintro (rfl | hs)
  · exact not_isDigit_mark hm h
  · simp at hs

/-- A literal is a number, perhaps with a plus sign before its digits, that 64 bits hold. -/
theorem read?_eq_some_iff : read? s = some v ↔ IsNumber s v ∨ IsPlusNumber s v := by
  rw [isNumber_or_isPlusNumber_iff]
  unfold read?
  split
  · next cs =>
    rw [digitClass_hexadecimal.unsigned?_eq_some_iff (by decide)]
    refine and_congr_right' ⟨?_, ?_⟩
    · rintro ⟨ds, hcs, hne, hds, rfl⟩
      exact ⟨_, .hexadecimal hne hds, by simpa [withPlus] using hcs⟩
    · rintro ⟨t, ht, hs⟩
      cases ht with
      | @hexadecimal ds hne hds => exact ⟨ds, by simpa [withPlus] using hs, hne, hds, rfl⟩
      | binary => simp [withPlus] at hs
      | decimal _ hds => exact absurd hs (mark_ne_decimal (by decide) hds)
  · next cs =>
    rw [digitClass_binary.unsigned?_eq_some_iff (by decide)]
    refine and_congr_right' ⟨?_, ?_⟩
    · rintro ⟨ds, hcs, hne, hds, rfl⟩
      exact ⟨_, .binary hne hds, by simpa [withPlus] using hcs⟩
    · rintro ⟨t, ht, hs⟩
      cases ht with
      | hexadecimal => simp [withPlus] at hs
      | @binary ds hne hds => exact ⟨ds, by simpa [withPlus] using hs, hne, hds, rfl⟩
      | decimal _ hds => exact absurd hs (mark_ne_decimal (by decide) hds)
  · next hx hb =>
    rw [digitClass_decimal.unsigned?_eq_some_iff (by decide)]
    refine and_congr_right' ⟨?_, ?_⟩
    · rintro ⟨ds, hs, hne, hds, rfl⟩
      exact ⟨ds, .decimal hne hds, by rwa [withPlus_decimal hds]⟩
    · rintro ⟨t, ht, hs⟩
      cases ht with
      | hexadecimal => rcases hs with rfl | rfl <;> exact absurd rfl (hx _)
      | binary => rcases hs with rfl | rfl <;> exact absurd rfl (hb _)
      | decimal hne hds => exact ⟨t, by rwa [withPlus_decimal hds] at hs, hne, hds, rfl⟩

end SimtMachine.Literal
