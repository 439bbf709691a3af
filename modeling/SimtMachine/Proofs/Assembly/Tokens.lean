import Mathlib
import SimtMachine.Assembly.Line
import SimtMachine.Text.Literal

/-!
# Tokens of the assembly language

What the texts of tokens are, said without readers. A reader finds the token that a text begins
with, provided that nothing after the token continues it, and a reader finds nothing else.
-/

namespace SimtMachine.Assembly

variable {cs rest b t t' ds name : List Char} {n base : Nat}

/-! ## Blanks and comments -/

def Blanks (cs : List Char) : Prop := ∀ c ∈ cs, isBlank c = true

/-- What may stand at the end of a line: blanks, and a comment. -/
inductive Trailing : List Char → Prop
  | blanks {b : List Char} : Blanks b → Trailing b
  | comment {b : List Char} (text : List Char) : Blanks b → Trailing (b ++ ';' :: text)

/-- The text goes on with a token. -/
def Begins (cs : List Char) : Prop :=
  ∃ c rest, cs = c :: rest ∧ isBlank c = false ∧ c ≠ ';'

theorem blanks_nil : Blanks [] := nofun

theorem blanks_space : Blanks [' '] := by
  simp [Blanks, isBlank]

theorem Begins.append (h : Begins cs) (rest : List Char) : Begins (cs ++ rest) := by
  obtain ⟨c, cs, rfl, hc⟩ := h
  exact ⟨c, cs ++ rest, rfl, hc⟩

theorem skip_append (h : Blanks b) (cs : List Char) : skip (b ++ cs) = skip cs := by
  rw [skip, List.dropWhile_append_of_pos h, skip]

theorem skip_of_begins (h : Begins cs) : skip cs = cs := by
  obtain ⟨c, cs, rfl, hb, hc⟩ := h
  simp [skip, hb, hc]

theorem skip_append_of_begins (hb : Blanks b) (h : Begins cs) : skip (b ++ cs) = cs := by
  rw [skip_append hb, skip_of_begins h]

theorem Trailing.skip_eq_nil (h : Trailing cs) : skip cs = [] := by
  cases h with
  | blanks hb =>
    rw [← List.append_nil cs, skip_append hb]
    rfl
  | comment text hb =>
    rw [skip_append hb]
    rfl

/-- After blanks a line ends, in a comment if there is one, or goes on with a token. -/
theorem skip_cases (cs : List Char) :
    (Trailing cs ∧ skip cs = []) ∨ ∃ b, Blanks b ∧ cs = b ++ skip cs ∧ Begins (skip cs) := by
  have hb : Blanks (cs.takeWhile isBlank) := fun c hc ↦ List.mem_takeWhile_imp hc
  have hcs : cs = cs.takeWhile isBlank ++ cs.dropWhile isBlank :=
    List.takeWhile_append_dropWhile.symm
  cases hd : cs.dropWhile isBlank with
  | nil =>
    rw [hd, List.append_nil] at hcs
    have ht : Trailing cs := hcs ▸ .blanks hb
    exact .inl ⟨ht, ht.skip_eq_nil⟩
  | cons c tail =>
    rw [hd] at hcs
    by_cases hc : c = ';'
    · subst hc
      have ht : Trailing cs := hcs ▸ .comment tail hb
      exact .inl ⟨ht, ht.skip_eq_nil⟩
    · have hstop : isBlank c = false := by
        have hh := List.head_dropWhile_not isBlank (l := cs) (by simp [hd])
        simpa [hd] using hh
      have hbegins : Begins (c :: tail) := ⟨c, tail, rfl, hstop, hc⟩
      have hs : skip cs = c :: tail := by rw [hcs, skip_append_of_begins hb hbegins]
      exact .inr ⟨_, hb, hs ▸ hcs, hs ▸ hbegins⟩

theorem skip_eq_nil_iff : skip cs = [] ↔ Trailing cs := by
  refine ⟨fun h ↦ ?_, Trailing.skip_eq_nil⟩
  rcases skip_cases cs with ⟨ht, -⟩ | ⟨_, -, -, c, tail, hc, -⟩
  · exact ht
  · simp [h] at hc

@[simp] theorem skip_skip (cs : List Char) : skip (skip cs) = skip cs := by
  rcases skip_cases cs with ⟨-, h⟩ | ⟨_, -, -, h⟩
  · rw [h]
    rfl
  · exact skip_of_begins h

/-- A text that is not over after blanks has no comment before the next token. -/
theorem exists_blanks_of_skip (h : skip cs = rest) (hr : rest ≠ []) :
    ∃ b, Blanks b ∧ cs = b ++ rest := by
  rcases skip_cases cs with ⟨-, hn⟩ | ⟨b, hb, hcs, -⟩
  · exact absurd (h.symm.trans hn) hr
  · exact ⟨b, hb, h ▸ hcs⟩

/-! ## Words -/

theorem not_isWordChar_of_isBlank {c : Char} (h : isBlank c = true) : isWordChar c = false := by
  simp only [isBlank, Bool.or_eq_true, decide_eq_true_eq] at h
  rcases h with rfl | rfl <;> decide

theorem begins_of_isWordChar {c : Char} (h : isWordChar c = true) (cs : List Char) :
    Begins (c :: cs) := by
  refine ⟨c, cs, rfl, ?_, ?_⟩
  · cases hb : isBlank c with
    | false => rfl
    | true => simp [not_isWordChar_of_isBlank hb] at h
  · rintro rfl
    exact absurd h (by decide)

/-- A text that goes on after blanks with what does not continue a word does not continue one. -/
theorem endsWord_append (hb : Blanks b) (h : endsWord cs = true) : endsWord (b ++ cs) = true := by
  cases b with
  | nil => exact h
  | cons c b => simp [endsWord, not_isWordChar_of_isBlank (hb c (by simp))]

theorem Trailing.endsWord (h : Trailing cs) : endsWord cs = true := by
  cases h with
  | blanks hb => simpa using endsWord_append hb (show Assembly.endsWord [] = true from rfl)
  | comment text hb => exact endsWord_append hb (by rfl)

theorem endsWord_of_skip (h : endsWord (skip cs) = true) : endsWord cs = true := by
  rcases skip_cases cs with ⟨ht, -⟩ | ⟨b, hb, hcs, -⟩
  · exact ht.endsWord
  · rw [hcs]
    exact endsWord_append hb h

theorem not_of_endsWord {p : Char → Bool} (hp : ∀ c, p c = true → isWordChar c = true)
    (h : endsWord rest = true) : ∀ c ∈ rest.head?, p c = false := by
  intro c hc
  cases rest with
  | nil => simp at hc
  | cons d rest =>
    obtain rfl : d = c := by simpa using hc
    have hw : isWordChar d = false := by simpa [endsWord] using h
    cases hpd : p d with
    | false => rfl
    | true => simp [hp d hpd] at hw

theorem takeWhile_of_stop {p : Char → Bool} (h : ∀ c ∈ rest.head?, p c = false) :
    rest.takeWhile p = [] ∧ rest.dropWhile p = rest := by
  cases rest with
  | nil => exact ⟨rfl, rfl⟩
  | cons c rest => simp [h c rfl]

/-- A run of characters of a class is as long as what follows allows. -/
theorem run_append_inj {p : Char → Bool} {u u' : List Char} (ht : ∀ c ∈ t, p c = true)
    (ht' : ∀ c ∈ t', p c = true) (hu : ∀ c ∈ u.head?, p c = false)
    (hu' : ∀ c ∈ u'.head?, p c = false) (h : t ++ u = t' ++ u') : t = t' ∧ u = u' := by
  have htake {t u : List Char} (ht : ∀ c ∈ t, p c = true) (hu : ∀ c ∈ u.head?, p c = false) :
      (t ++ u).takeWhile p = t := by
    rw [List.takeWhile_append_of_pos ht, (takeWhile_of_stop hu).1, List.append_nil]
  obtain rfl : t = t' := by rw [← htake ht hu, h, htake ht' hu']
  exact ⟨rfl, List.append_cancel_left h⟩

theorem run_eq_some_iff {p : Char → Bool} :
    run p cs = some (ds, rest) ↔ cs = ds ++ rest ∧ ds ≠ [] ∧ (∀ c ∈ ds, p c = true) ∧
      ∀ c ∈ rest.head?, p c = false := by
  constructor
  · intro h
    have hr : cs.takeWhile p = ds ∧ cs.dropWhile p = rest ∧ ds ≠ [] := by
      unfold run at h
      split at h
      · simp at h
      · next hne =>
        simp only [Option.some.injEq, Prod.mk.injEq] at h
        exact ⟨h.1, h.2, by rintro rfl; exact hne h.1⟩
    obtain ⟨rfl, rfl, hne⟩ := hr
    refine ⟨List.takeWhile_append_dropWhile.symm, hne, fun c hc ↦ List.mem_takeWhile_imp hc, ?_⟩
    intro c hc
    have hh := List.head?_dropWhile_not p cs
    rw [Option.mem_def.1 hc] at hh
    simpa using hh
  · rintro ⟨rfl, hne, hds, hrest⟩
    obtain ⟨ht, hd⟩ := takeWhile_of_stop hrest
    unfold run
    rw [List.takeWhile_append_of_pos hds, List.dropWhile_append_of_pos hds, ht, hd,
      List.append_nil]
    cases ds with
    | nil => exact absurd rfl hne
    | cons c ds => rfl

theorem exactly_eq_some_iff : exactly t cs = some rest ↔ cs = t ++ rest := by
  induction t generalizing cs with
  | nil => simp [exactly]
  | cons k t ih =>
    cases cs with
    | nil => simp [exactly]
    | cons c cs => by_cases hc : c = k <;> simp [exactly, hc, ih]

/-- The text spells a word that is given in lower case. -/
def Spells (word : List Char) (cs : List Char) : Prop := cs.map Char.toLower = word

theorem keyword_eq_some_iff {word : List Char} :
    keyword word cs = some rest ↔ ∃ w, Spells word w ∧ cs = w ++ rest := by
  induction word generalizing cs with
  | nil => simp [keyword, Spells, eq_comm]
  | cons k word ih =>
    cases cs with
    | nil =>
      simp only [keyword, reduceCtorEq, false_iff, not_exists, not_and]
      rintro w hw hn
      rw [List.append_eq_nil_iff.1 hn.symm |>.1] at hw
      simp [Spells] at hw
    | cons c cs =>
      by_cases hc : c.toLower = k
      · rw [keyword, if_pos hc, ih]
        constructor
        · rintro ⟨w, hw, rfl⟩
          exact ⟨c :: w, by simp [Spells, hc, show w.map Char.toLower = word from hw], rfl⟩
        · rintro ⟨w, hw, hcs⟩
          cases w with
          | nil => simp [Spells] at hw
          | cons d w =>
            obtain ⟨rfl, rfl⟩ := List.cons.inj hcs
            exact ⟨w, (List.cons.inj hw).2, rfl⟩
      · rw [keyword, if_neg hc]
        simp only [reduceCtorEq, false_iff, not_exists, not_and]
        intro w hw hcs
        cases w with
        | nil => simp [Spells] at hw
        | cons d w =>
          obtain ⟨rfl, rfl⟩ := List.cons.inj hcs
          exact hc (List.cons.inj hw).1

def IdentText (cs : List Char) : Prop :=
  ∃ c rest, cs = c :: rest ∧ isWordStart c = true ∧ ∀ d ∈ rest, isWordChar d = true

theorem ident_eq_some_iff :
    ident cs = some (name, rest) ↔ cs = name ++ rest ∧ IdentText name ∧ endsWord rest = true := by
  constructor
  · intro h
    cases cs with
    | nil => simp [ident] at h
    | cons c cs =>
      by_cases hc : isWordStart c = true
      · simp only [ident, hc, if_true, Option.some.injEq, Prod.mk.injEq] at h
        obtain ⟨rfl, rfl⟩ := h
        refine ⟨by simp, ⟨c, _, rfl, hc, fun d hd ↦ List.mem_takeWhile_imp hd⟩, ?_⟩
        have hh := List.head?_dropWhile_not isWordChar cs
        cases hd : cs.dropWhile isWordChar with
        | nil => rfl
        | cons d tail => simpa [hd, endsWord] using hh
      · simp [ident, hc] at h
  · rintro ⟨rfl, ⟨c, ds, rfl, hc, hds⟩, hrest⟩
    obtain ⟨ht, hd⟩ := takeWhile_of_stop (not_of_endsWord (fun _ h ↦ h) hrest)
    simp [ident, hc, List.takeWhile_append_of_pos hds, List.dropWhile_append_of_pos hds, ht, hd]

theorem label_eq_some_iff :
    label cs = some (name, rest) ↔ IdentText name ∧ cs = name ++ ':' :: rest := by
  simp only [label, bind, Option.bind_eq_some_iff, Prod.exists, ident_eq_some_iff,
    exactly_eq_some_iff, pure, Option.some.injEq, Prod.mk.injEq]
  constructor
  · rintro ⟨name', rest', ⟨rfl, hname, -⟩, rest'', rfl, rfl, rfl⟩
    exact ⟨hname, rfl⟩
  · rintro ⟨hname, rfl⟩
    exact ⟨name, ':' :: rest, ⟨rfl, hname, rfl⟩, rest, rfl, rfl, rfl⟩

/-! ## Numbers -/

/-- The place of a digit among the hexadecimal digits. -/
def digitValue (c : Char) : Nat := "0123456789abcdef".toList.idxOf c.toLower

/-- The number that digits stand for in a positional system. -/
def numeral (base : Nat) (ds : List Char) : Nat := Nat.ofDigits base (ds.reverse.map digitValue)

/-- The texts of numbers, and the numbers. -/
inductive NumberText : List Char → Nat → Prop
  | hexadecimal {ds : List Char} : ds ≠ [] → (∀ c ∈ ds, isHexDigit c = true) →
      NumberText ('0' :: 'x' :: ds) (numeral 16 ds)
  | binary {ds : List Char} : ds ≠ [] → (∀ c ∈ ds, isBinaryDigit c = true) →
      NumberText ('0' :: 'b' :: ds) (numeral 2 ds)
  | decimal {ds : List Char} : ds ≠ [] → (∀ c ∈ ds, c.isDigit = true) →
      NumberText ds (numeral 10 ds)

theorem numeral_cons (base : Nat) (c : Char) (ds : List Char) :
    numeral base (c :: ds) = digitValue c * base ^ ds.length + numeral base ds := by
  rw [numeral, numeral, List.reverse_cons, List.map_append, Nat.ofDigits_append, List.length_map,
    List.length_reverse, List.map_singleton, Nat.ofDigits_singleton]
  ring

theorem continue?_eq (h : ∀ c ∈ ds, Literal.digit? base c = some (digitValue c)) (acc : Nat) :
    Literal.continue? base acc ds = some (acc * base ^ ds.length + numeral base ds) := by
  induction ds generalizing acc with
  | nil => simp [Literal.continue?, numeral]
  | cons c ds ih =>
    rw [List.forall_mem_cons] at h
    rw [Literal.continue?, h.1, numeral_cons]
    simp only [ih h.2, List.length_cons, Option.some.injEq]
    ring

/-- A fact about ASCII characters can be checked one by one. -/
theorem forall_ascii {p : Char → Prop} (h : ∀ n < 128, p (Char.ofNat n)) {c : Char}
    (hc : c.toNat < 128) : p c := by
  have hp := h _ hc
  rwa [Char.ofNat_toNat] at hp

theorem toNat_lt_of_isHexDigit {c : Char} (h : isHexDigit c = true) : c.toNat < 128 := by
  simp only [isHexDigit, Char.isDigit, Bool.or_eq_true, Bool.and_eq_true, decide_eq_true_eq,
    Char.le_def, UInt32.le_iff_toNat_le, ge_iff_le, Char.reduceToNat, Char.toNat_val] at h
  omega

/-- What holds of the hexadecimal digits, of which there are few. -/
theorem forall_hexDigit {p : Char → Prop}
    (h : ∀ n < 128, isHexDigit (Char.ofNat n) = true → p (Char.ofNat n)) {c : Char}
    (hc : isHexDigit c = true) : p c :=
  forall_ascii (p := fun c ↦ isHexDigit c = true → p c) h (toNat_lt_of_isHexDigit hc) hc

theorem isHexDigit_of_isDigit {c : Char} (h : c.isDigit = true) : isHexDigit c = true := by
  simp [isHexDigit, h]

theorem isDigit_of_isBinaryDigit {c : Char} (h : isBinaryDigit c = true) : c.isDigit = true := by
  simp only [isBinaryDigit, Bool.or_eq_true, decide_eq_true_eq] at h
  rcases h with rfl | rfl <;> decide

theorem isWordChar_of_isHexDigit {c : Char} (h : isHexDigit c = true) : isWordChar c = true :=
  forall_hexDigit (p := fun c ↦ isWordChar c = true) (by decide +kernel) h

theorem isWordChar_of_isDigit {c : Char} (h : c.isDigit = true) : isWordChar c = true :=
  isWordChar_of_isHexDigit (isHexDigit_of_isDigit h)

/-- Only the case of ASCII letters is changed, so that a fact about it can be checked one by one. -/
theorem apply_toLower {α : Type} {f : Char → α}
    (h : ∀ n < 128, f (Char.ofNat n).toLower = f (Char.ofNat n)) (c : Char) :
    f c.toLower = f c := by
  by_cases hc : c.isUpper = true
  · refine forall_ascii (p := fun c ↦ f c.toLower = f c) h ?_
    simp only [Char.isUpper, decide_eq_true_eq, UInt32.le_iff_toNat_le,
      ge_iff_le, Char.toNat_val, Char.reduceToNat] at hc
    omega
  · rw [Char.toLower, dif_neg]
    simpa [Char.isUpper] using hc

theorem isWordChar_toLower (c : Char) : isWordChar c.toLower = isWordChar c :=
  apply_toLower (by decide +kernel) c

theorem digit?_hexadecimal {c : Char} (h : isHexDigit c = true) :
    Literal.digit? 16 c = some (digitValue c) :=
  forall_hexDigit (p := fun c ↦ Literal.digit? 16 c = some (digitValue c)) (by decide +kernel) h

theorem digit?_decimal {c : Char} (h : c.isDigit = true) :
    Literal.digit? 10 c = some (digitValue c) :=
  forall_hexDigit (p := fun c ↦ c.isDigit = true → Literal.digit? 10 c = some (digitValue c))
    (by decide +kernel) (isHexDigit_of_isDigit h) h

theorem digit?_binary {c : Char} (h : isBinaryDigit c = true) :
    Literal.digit? 2 c = some (digitValue c) := by
  simp only [isBinaryDigit, Bool.or_eq_true, decide_eq_true_eq] at h
  rcases h with rfl | rfl <;> decide

theorem unsigned?_eq (hne : ds ≠ []) (hp : ds.head? ≠ some '+')
    (h : ∀ c ∈ ds, Literal.digit? base c = some (digitValue c)) :
    Literal.unsigned? base ds =
      if numeral base ds < 2 ^ 64 then some (numeral base ds) else none := by
  have hd : Literal.digits? base ds = some (numeral base ds) := by
    rw [Literal.digits?, if_neg (by simpa using hne), continue?_eq h, Nat.zero_mul, Nat.zero_add]
  unfold Literal.unsigned?
  split
  · simp at hp
  · simp [hd, Option.filter_some]

theorem head?_ne_of_forall {p : Char → Bool} {k : Char} (h : ∀ c ∈ ds, p c = true)
    (hk : p k = false) : ds.head? ≠ some k := by
  intro hd
  have hp := h k (List.mem_of_head? hd)
  simp [hk] at hp

theorem NumberText.read? (h : NumberText t n) :
    Literal.read? t = if n < 2 ^ 64 then some n else none := by
  cases h with
  | hexadecimal hne hds =>
    exact unsigned?_eq hne (head?_ne_of_forall hds (by decide)) fun c hc ↦
      digit?_hexadecimal (hds c hc)
  | binary hne hds =>
    exact unsigned?_eq hne (head?_ne_of_forall hds (by decide)) fun c hc ↦
      digit?_binary (hds c hc)
  | decimal hne hds =>
    have hu := unsigned?_eq hne (head?_ne_of_forall hds (by decide)) fun c hc ↦
      digit?_decimal (hds c hc)
    unfold Literal.read?
    split
    · exact absurd (hds 'x' (by simp)) (by decide)
    · exact absurd (hds 'b' (by simp)) (by decide)
    · exact hu

theorem NumberText.isWordChar (h : NumberText t n) : ∀ c ∈ t, isWordChar c = true := by
  have hmarks : Assembly.isWordChar '0' = true ∧ Assembly.isWordChar 'x' = true ∧
      Assembly.isWordChar 'b' = true := by decide
  cases h with
  | hexadecimal hne hds =>
    simpa [hmarks] using fun c hc ↦ isWordChar_of_isHexDigit (hds c hc)
  | binary hne hds =>
    simpa [hmarks] using fun c hc ↦ isWordChar_of_isDigit (isDigit_of_isBinaryDigit (hds c hc))
  | decimal hne hds => exact fun c hc ↦ isWordChar_of_isDigit (hds c hc)

theorem NumberText.exists_cons (h : NumberText t n) :
    ∃ c tail, t = c :: tail ∧ c.isDigit = true := by
  cases h with
  | hexadecimal => exact ⟨'0', _, rfl, by decide⟩
  | binary => exact ⟨'0', _, rfl, by decide⟩
  | decimal hne hds =>
    obtain ⟨c, tail, rfl⟩ := List.exists_cons_of_ne_nil hne
    exact ⟨c, tail, rfl, hds c (by simp)⟩

theorem marked_eq_some_iff {mark : List Char} {p : Char → Bool} :
    marked mark p cs = some (t, rest) ↔ ∃ ds, t = mark ++ ds ∧ cs = t ++ rest ∧ ds ≠ [] ∧
      (∀ c ∈ ds, p c = true) ∧ ∀ c ∈ rest.head?, p c = false := by
  simp only [marked, bind, Option.bind_eq_some_iff, Prod.exists, exactly_eq_some_iff,
    run_eq_some_iff, pure, Option.some.injEq, Prod.mk.injEq]
  constructor
  · rintro ⟨_, rfl, ds, _, ⟨rfl, hne, hds, hrest⟩, rfl, rfl⟩
    exact ⟨ds, rfl, (List.append_assoc ..).symm, hne, hds, hrest⟩
  · rintro ⟨ds, rfl, rfl, hne, hds, hrest⟩
    exact ⟨ds ++ rest, List.append_assoc .., ds, rest, ⟨rfl, hne, hds, hrest⟩, rfl, rfl⟩

theorem number_sound (h : number cs = some (t, rest)) : (∃ n, NumberText t n) ∧ cs = t ++ rest := by
  simp only [number, Option.orElse_eq_some, marked_eq_some_iff, run_eq_some_iff] at h
  rcases h with ⟨ds, rfl, hcs, hne, hds, -⟩ | ⟨-, ⟨ds, rfl, hcs, hne, hds, -⟩ |
    ⟨-, hcs, hne, hds, -⟩⟩
  · exact ⟨⟨_, .hexadecimal hne hds⟩, hcs⟩
  · exact ⟨⟨_, .binary hne hds⟩, hcs⟩
  · exact ⟨⟨_, .decimal hne hds⟩, hcs⟩

/-- A text of decimal digits does not begin with the mark of another base. -/
theorem marked_eq_none {m : Char} {p : Char → Bool} (hm : m.isDigit = false)
    (hw : isWordChar m = true) (hds : ∀ c ∈ ds, c.isDigit = true) (hr : endsWord rest = true) :
    marked ['0', m] p (ds ++ rest) = none := by
  have hn : exactly ['0', m] (ds ++ rest) = none := by
    cases he : exactly ['0', m] (ds ++ rest) with
    | none => rfl
    | some tail =>
      rw [exactly_eq_some_iff] at he
      rcases ds with _ | ⟨c, _ | ⟨d, ds⟩⟩
      · rw [List.nil_append] at he
        rw [he] at hr
        exact absurd hr (by simp [endsWord, isWordChar])
      · obtain ⟨-, rfl⟩ := List.cons.inj he
        simp [endsWord, hw] at hr
      · obtain ⟨-, he⟩ := List.cons.inj he
        obtain ⟨rfl, -⟩ := List.cons.inj he
        simp [hds d (by simp)] at hm
  simp [marked, hn]

theorem NumberText.number_append (h : NumberText t n) (hr : endsWord rest = true) :
    number (t ++ rest) = some (t, rest) := by
  cases h with
  | @hexadecimal ds hne hds =>
    have hm : marked ['0', 'x'] isHexDigit ('0' :: 'x' :: ds ++ rest) =
        some ('0' :: 'x' :: ds, rest) :=
      marked_eq_some_iff.2
        ⟨ds, rfl, rfl, hne, hds, not_of_endsWord (fun _ ↦ isWordChar_of_isHexDigit) hr⟩
    rw [number, hm]
    rfl
  | @binary ds hne hds =>
    have hx : marked ['0', 'x'] isHexDigit ('0' :: 'b' :: ds ++ rest) = none := by
      simp [marked, exactly]
    have hm : marked ['0', 'b'] isBinaryDigit ('0' :: 'b' :: ds ++ rest) =
        some ('0' :: 'b' :: ds, rest) :=
      marked_eq_some_iff.2 ⟨ds, rfl, rfl, hne, hds, not_of_endsWord
        (fun _ h ↦ isWordChar_of_isDigit (isDigit_of_isBinaryDigit h)) hr⟩
    rw [number, hx, hm]
    rfl
  | decimal hne hds =>
    have hd : run Char.isDigit (t ++ rest) = some (t, rest) :=
      run_eq_some_iff.2 ⟨rfl, hne, hds, not_of_endsWord (fun _ ↦ isWordChar_of_isDigit) hr⟩
    rw [number, marked_eq_none (by decide) (by decide) hds hr,
      marked_eq_none (by decide) (by decide) hds hr, hd]
    rfl

end SimtMachine.Assembly
