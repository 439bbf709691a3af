import SimtMachine.Proofs.Assembly.Tokens

/-!
# Texts of instructions

What the texts of operands, mnemonics and instructions are, and that the readers find exactly these.
Between two parts of an instruction blanks may stand; inside a part they may not.
-/

namespace SimtMachine.Assembly

variable {cs rest b t ds name : List Char}

/-! ## Operands -/

/-- The number in an immediate, which a number sign may mark. -/
inductive ImmediateText : List Char → List Char → Prop
  | bare {t : List Char} {n : Nat} : NumberText t n → ImmediateText t t
  | marked {t : List Char} {n : Nat} : NumberText t n → ImmediateText ('#' :: t) t

inductive RegisterText : List Char → RegisterName → Prop
  | blockIdx : RegisterText "%blockIdx".toList (.special .blockIdx)
  | blockDim : RegisterText "%blockDim".toList (.special .blockDim)
  | threadIdx : RegisterText "%threadIdx".toList (.special .threadIdx)
  | general {r : Char} {ds : List Char} : r.toLower = 'r' → ds ≠ [] →
      (∀ c ∈ ds, c.isDigit = true) → RegisterText (r :: ds) (.general r ds)

inductive OperandText : List Char → Operand → Prop
  | number {w t : List Char} : ImmediateText w t → OperandText w (.number t)
  | label {name : List Char} : IdentText name → OperandText name (.label name)

variable {w : List Char} {r : RegisterName} {o : Operand}

theorem immediate_of_isDigit {c : Char} (hc : c.isDigit = true) (cs : List Char) :
    immediate (c :: cs) = number (c :: cs) := by
  unfold immediate
  split
  · next h =>
    obtain ⟨rfl, -⟩ := List.cons.inj h
    exact absurd hc (by decide)
  · rfl

theorem immediate_sound (h : immediate cs = some (t, rest)) :
    ∃ w, ImmediateText w t ∧ cs = w ++ rest := by
  unfold immediate at h
  split at h
  · obtain ⟨⟨n, hn⟩, rfl⟩ := number_sound h
    exact ⟨_, .marked hn, rfl⟩
  · obtain ⟨⟨n, hn⟩, rfl⟩ := number_sound h
    exact ⟨_, .bare hn, rfl⟩

theorem ImmediateText.immediate_append (h : ImmediateText w t) (hr : endsWord rest = true) :
    immediate (w ++ rest) = some (t, rest) := by
  cases h with
  | bare hn =>
    rw [← hn.number_append hr]
    obtain ⟨c, tail, rfl, hc⟩ := hn.exists_cons
    exact immediate_of_isDigit hc _
  | marked hn => exact hn.number_append hr

theorem register_sound (h : register cs = some (r, rest)) :
    ∃ w, RegisterText w r ∧ cs = w ++ rest := by
  simp only [register, Option.orElse_eq_some, Option.map_eq_some_iff, Prod.exists,
    Prod.mk.injEq, specialRegister, exactly_eq_some_iff, Option.map_eq_none_iff] at h
  rcases h with
    ⟨_, _, ⟨_, rfl, rfl, rfl⟩ | ⟨-, ⟨_, rfl, rfl, rfl⟩ | ⟨-, _, rfl, rfl, rfl⟩⟩, rfl, rfl⟩ | ⟨-, h⟩
  · exact ⟨_, .blockIdx, rfl⟩
  · exact ⟨_, .blockDim, rfl⟩
  · exact ⟨_, .threadIdx, rfl⟩
  · cases cs with
    | nil => simp [generalRegister] at h
    | cons c cs =>
      by_cases hc : c.toLower = 'r'
      · simp only [generalRegister, hc, if_true, Option.map_eq_some_iff, Prod.exists,
          Prod.mk.injEq, run_eq_some_iff] at h
        obtain ⟨ds, _, ⟨rfl, hne, hds, -⟩, rfl, rfl⟩ := h
        exact ⟨c :: ds, .general hc hne hds, rfl⟩
      · simp [generalRegister, hc] at h

theorem RegisterText.register_append (h : RegisterText w r) (hr : endsWord rest = true) :
    register (w ++ rest) = some (r, rest) := by
  cases h with
  | blockIdx => rfl
  | blockDim => rfl
  | threadIdx => rfl
  | @general c ds hc hne hds =>
    have hs : specialRegister (c :: (ds ++ rest)) = none := by
      have hp : c ≠ '%' := by
        rintro rfl
        exact absurd hc (by decide)
      simp [specialRegister, exactly, hp]
    have hd : run Char.isDigit (ds ++ rest) = some (ds, rest) :=
      run_eq_some_iff.2 ⟨rfl, hne, hds, not_of_endsWord (fun _ ↦ isWordChar_of_isDigit) hr⟩
    simp [register, hs, generalRegister, hc, hd]

theorem target_sound (h : target cs = some (o, rest)) :
    ∃ w, OperandText w o ∧ cs = w ++ rest := by
  simp only [target, Option.orElse_eq_some, Option.map_eq_some_iff, Prod.exists, Prod.mk.injEq,
    ident_eq_some_iff] at h
  rcases h with ⟨t, _, h, rfl, rfl⟩ | ⟨-, name, _, ⟨rfl, hname, -⟩, rfl, rfl⟩
  · obtain ⟨w, hw, hcs⟩ := immediate_sound h
    exact ⟨w, .number hw, hcs⟩
  · exact ⟨name, .label hname, rfl⟩

/-- A name is no number, since it does not begin with a digit. -/
theorem IdentText.immediate_append (h : IdentText name) (rest : List Char) :
    immediate (name ++ rest) = none := by
  cases hi : immediate (name ++ rest) with
  | none => rfl
  | some p =>
    obtain ⟨t, rest⟩ := p
    obtain ⟨w, hw, hcs⟩ := immediate_sound hi
    obtain ⟨c, name, rfl, hc, -⟩ := h
    cases hw with
    | bare hn =>
      obtain ⟨d, tail, hd, hdigit⟩ := hn.exists_cons
      rw [hd] at hcs
      obtain ⟨rfl, -⟩ := List.cons.inj hcs
      refine absurd hc ?_
      exact forall_hexDigit (p := fun c ↦ c.isDigit = true → ¬isWordStart c = true)
        (by decide +kernel) (isHexDigit_of_isDigit hdigit) hdigit
    | marked hn =>
      obtain ⟨rfl, -⟩ := List.cons.inj hcs
      exact absurd hc (by decide)

theorem OperandText.target_append (h : OperandText w o) (hr : endsWord rest = true) :
    target (w ++ rest) = some (o, rest) := by
  cases h with
  | number hw => simp [target, hw.immediate_append hr]
  | label hname =>
    have hi : ident (w ++ rest) = some (w, rest) := ident_eq_some_iff.2 ⟨rfl, hname, hr⟩
    simp [target, hname.immediate_append, hi]

theorem comma_eq_some_iff :
    comma cs = some rest ↔ ∃ b, Blanks b ∧ cs = b ++ ',' :: rest := by
  rw [comma, exactly_eq_some_iff]
  constructor
  · intro h
    exact exists_blanks_of_skip h (by simp)
  · rintro ⟨b, hb, rfl⟩
    exact skip_append_of_begins hb ⟨',', rest, rfl, by decide, by decide⟩

/-! ## Characters -/

/-- The characters that stand inside instructions. -/
def isInstChar (c : Char) : Bool := isWordChar c || isBlank c || c = '#' || c = '%' || c = ','

def InstChars (cs : List Char) : Prop := ∀ c ∈ cs, isInstChar c = true

theorem instChars_append {u v : List Char} (hu : InstChars u) (hv : InstChars v) :
    InstChars (u ++ v) := by
  intro c hc
  exact (List.mem_append.1 hc).elim (hu c) (hv c)

theorem instChars_of_isWordChar (h : ∀ c ∈ cs, isWordChar c = true) : InstChars cs := by
  intro c hc
  simp [isInstChar, h c hc]

theorem InstChars.ne {k : Char} (h : InstChars cs) (hk : isInstChar k = false) :
    ∀ c ∈ cs, c ≠ k := by
  rintro c hc rfl
  exact absurd (h c hc) (by simp [hk])

theorem Blanks.instChars (h : Blanks b) : InstChars b := by
  intro c hc
  simp [isInstChar, h c hc]

theorem IdentText.isWordChar (h : IdentText name) : ∀ c ∈ name, isWordChar c = true := by
  obtain ⟨c, name, rfl, hc, hname⟩ := h
  intro d hd
  rcases List.mem_cons.1 hd with rfl | hd
  · simp only [isWordStart, Assembly.isWordChar, Char.isAlphanum, Bool.or_eq_true] at hc ⊢
    tauto
  · exact hname d hd

theorem ImmediateText.instChars (h : ImmediateText w t) : InstChars w := by
  cases h with
  | bare hn => exact instChars_of_isWordChar hn.isWordChar
  | marked hn =>
    exact List.forall_mem_cons.2 ⟨by decide, instChars_of_isWordChar hn.isWordChar⟩

theorem OperandText.instChars (h : OperandText w o) : InstChars w := by
  cases h with
  | number hw => exact hw.instChars
  | label hname => exact instChars_of_isWordChar hname.isWordChar

theorem isWordChar_of_toLower {c : Char} (h : c.toLower = 'r') : isWordChar c = true := by
  rw [← isWordChar_toLower, h]
  decide

theorem RegisterText.instChars (h : RegisterText w r) : InstChars w := by
  cases h with
  | blockIdx | blockDim | threadIdx => exact List.all_eq_true.1 rfl
  | general hc hne hds =>
    refine instChars_of_isWordChar (List.forall_mem_cons.2 ⟨isWordChar_of_toLower hc, ?_⟩)
    exact fun d hd ↦ isWordChar_of_isDigit (hds d hd)

theorem ImmediateText.begins (h : ImmediateText w t) : Begins w := by
  cases h with
  | bare hn =>
    obtain ⟨c, tail, rfl, hc⟩ := hn.exists_cons
    exact begins_of_isWordChar (isWordChar_of_isDigit hc) tail
  | marked hn => exact ⟨'#', _, rfl, by decide, by decide⟩

theorem IdentText.begins (h : IdentText name) : Begins name := by
  have hw := h.isWordChar
  obtain ⟨c, name, rfl, -, -⟩ := h
  exact begins_of_isWordChar (hw c (by simp)) name

theorem OperandText.begins (h : OperandText w o) : Begins w := by
  cases h with
  | number hw => exact hw.begins
  | label hname => exact hname.begins

theorem RegisterText.begins (h : RegisterText w r) : Begins w := by
  cases h with
  | blockIdx | blockDim | threadIdx => exact ⟨'%', _, rfl, by decide, by decide⟩
  | general hc hne hds => exact begins_of_isWordChar (isWordChar_of_toLower hc) _

/-! ## Mnemonics -/

def conditionWord (less equal greater : Bool) : List Char :=
  (if less then ['n'] else []) ++ (if equal then ['z'] else []) ++ (if greater then ['p'] else [])

/-- The words of the mnemonics, in lower case. -/
inductive MnemonicWord : List Char → Mnemonic → Prop
  | nop : MnemonicWord "nop".toList .nop
  | ret : MnemonicWord "ret".toList .ret
  | branch (less equal greater : Bool) :
      MnemonicWord ("br".toList ++ conditionWord less equal greater)
        (.branch (branchMask less equal greater))
  | compare : MnemonicWord "cmp".toList .compare
  | add : MnemonicWord "add".toList (.arith .add)
  | sub : MnemonicWord "sub".toList (.arith .sub)
  | mul : MnemonicWord "mul".toList (.arith .mul)
  | div : MnemonicWord "div".toList (.arith .div)
  | load : MnemonicWord "ldr".toList .load
  | store : MnemonicWord "str".toList .store
  | const : MnemonicWord "const".toList .const

def MnemonicText (w : List Char) (m : Mnemonic) : Prop :=
  ∃ word, MnemonicWord word m ∧ Spells word w

/-- Whether a letter, digit or underscore must not directly follow the mnemonic. -/
def Mnemonic.standsAlone : Mnemonic → Bool
  | nop | ret | branch _ | arith _ => true
  | compare | load | store | const => false

variable {m : Mnemonic}

theorem spells_append {a c : List Char} :
    Spells (a ++ c) w ↔ ∃ u v, w = u ++ v ∧ Spells a u ∧ Spells c v := by
  simp only [Spells, List.map_eq_append_iff]

/-- What follows a word does not go on with the letter `k`, in either case. -/
def NotNext (k : Char) (cs : List Char) : Prop := ∀ c ∈ cs.head?, c.toLower ≠ k

theorem notNext_of_endsWord {k : Char} (hk : isWordChar k = true) (h : endsWord cs = true) :
    NotNext k cs := by
  intro c hc
  have hw := not_of_endsWord (p := isWordChar) (fun _ h ↦ h) h c hc
  rintro rfl
  rw [isWordChar_toLower, hw] at hk
  exact absurd hk (by decide)

theorem Spells.notNext_append {k : Char} {word : List Char} (h : Spells word w) (hk : k ∉ word)
    (hr : NotNext k rest) : NotNext k (w ++ rest) := by
  cases w with
  | nil => exact hr
  | cons c w =>
    intro d hd hdk
    obtain rfl : c = d := by simpa using hd
    refine hk ?_
    rw [← h, ← hdk]
    simp

theorem optional_append {k : Char} {present : Bool}
    (h : Spells (if present then [k] else []) w) (hr : NotNext k rest) :
    optional k (w ++ rest) = (present, rest) := by
  cases present with
  | true =>
    have hk : keyword [k] (w ++ rest) = some rest := keyword_eq_some_iff.2 ⟨w, h, rfl⟩
    simp [optional, hk]
  | false =>
    obtain rfl : w = [] := List.map_eq_nil_iff.1 h
    cases rest with
    | nil => rfl
    | cons c rest => simp [optional, keyword, hr c rfl]

theorem optional_sound {k : Char} {present : Bool} (h : optional k cs = (present, rest)) :
    ∃ w, Spells (if present then [k] else []) w ∧ cs = w ++ rest := by
  unfold optional at h
  split at h
  · next hk =>
    obtain ⟨rfl, rfl⟩ := Prod.mk.inj h
    exact keyword_eq_some_iff.1 hk
  · obtain ⟨rfl, rfl⟩ := Prod.mk.inj h
    exact ⟨[], rfl, rfl⟩

theorem branchWord?_append {less equal greater : Bool}
    (h : Spells ("br".toList ++ conditionWord less equal greater) w) (hr : endsWord rest = true) :
    branchWord? (w ++ rest) = some (branchMask less equal greater, rest) := by
  simp only [conditionWord, spells_append] at h
  obtain ⟨b, l, rfl, hb, _, g, rfl, ⟨n, z, rfl, hn, hz⟩, hg⟩ := h
  have hp : NotNext 'p' rest := notNext_of_endsWord (by decide) hr
  have hzp : NotNext 'z' (g ++ rest) :=
    hg.notNext_append (by cases greater <;> decide) (notNext_of_endsWord (by decide) hr)
  have hnzp : NotNext 'n' (z ++ (g ++ rest)) :=
    hz.notNext_append (by cases equal <;> decide)
      (hg.notNext_append (by cases greater <;> decide) (notNext_of_endsWord (by decide) hr))
  have hk : keyword ['b', 'r'] (b ++ (n ++ (z ++ (g ++ rest)))) = some (n ++ (z ++ (g ++ rest))) :=
    keyword_eq_some_iff.2 ⟨b, hb, rfl⟩
  simp [branchWord?, hk, optional_append hn hnzp, optional_append hz hzp, optional_append hg hp, hr]

theorem branchWord?_sound {mask : UInt8} (h : branchWord? cs = some (mask, rest)) :
    ∃ w, MnemonicText w (.branch mask) ∧ endsWord rest = true ∧ cs = w ++ rest := by
  simp only [branchWord?, bind, Option.bind_eq_some_iff, keyword_eq_some_iff] at h
  obtain ⟨cs, ⟨b, hb, rfl⟩, h⟩ := h
  rcases hn' : optional 'n' cs with ⟨less, cs₁⟩
  rcases hz' : optional 'z' cs₁ with ⟨equal, cs₂⟩
  rcases hp' : optional 'p' cs₂ with ⟨greater, cs₃⟩
  simp only [hn', hz', hp', Option.ite_none_right_eq_some, Option.some.injEq, Prod.mk.injEq] at h
  obtain ⟨hend, rfl, rfl⟩ := h
  obtain ⟨n, hn, rfl⟩ := optional_sound hn'
  obtain ⟨z, hz, rfl⟩ := optional_sound hz'
  obtain ⟨g, hg, rfl⟩ := optional_sound hp'
  have hs : Spells (conditionWord less equal greater) (n ++ z ++ g) :=
    spells_append.2 ⟨_, _, rfl, spells_append.2 ⟨_, _, rfl, hn, hz⟩, hg⟩
  exact ⟨b ++ (n ++ z ++ g), ⟨_, .branch less equal greater, spells_append.2 ⟨_, _, rfl, hb, hs⟩⟩,
    hend, by simp⟩

theorem loneWord_sound {word : String} (h : loneWord word cs = some rest) :
    ∃ w tail, Spells word.toList w ∧ cs = w ++ tail ∧ endsWord tail = true ∧ rest = skip tail := by
  simp only [loneWord, bind, Option.bind_eq_some_iff, keyword_eq_some_iff,
    Option.ite_none_right_eq_some, Option.some.injEq] at h
  obtain ⟨tail, ⟨w, hw, hcs⟩, hend, rfl⟩ := h
  exact ⟨w, tail, hw, hcs, endsWord_of_skip hend, rfl⟩

theorem wholeWord_eq_some_iff {word : String} :
    wholeWord word cs = some rest ↔
      ∃ w, Spells word.toList w ∧ cs = w ++ rest ∧ endsWord rest = true := by
  simp only [wholeWord, bind, Option.bind_eq_some_iff, keyword_eq_some_iff,
    Option.ite_none_right_eq_some, Option.some.injEq]
  constructor
  · rintro ⟨_, ⟨w, hw, rfl⟩, hend, rfl⟩
    exact ⟨w, hw, rfl, hend⟩
  · rintro ⟨w, hw, rfl, hend⟩
    exact ⟨_, ⟨w, hw, rfl⟩, hend, rfl⟩

/-- What the reader of the mnemonic leaves of the text behind it. Behind a lone word blanks and a
comment are gone. -/
def Mnemonic.leaves : Mnemonic → List Char → List Char
  | nop, cs | ret, cs => skip cs
  | _, cs => cs

theorem mnemonic_sound (h : mnemonic cs = some (m, rest)) :
    ∃ w tail, MnemonicText w m ∧ cs = w ++ tail ∧ (m.standsAlone = true → endsWord tail = true) ∧
      rest = m.leaves tail := by
  simp only [mnemonic, Option.orElse_eq_some, Option.map_eq_some_iff, Prod.exists,
    Prod.mk.injEq, wholeWord_eq_some_iff, keyword_eq_some_iff] at h
  rcases h with ⟨_, h, rfl, rfl⟩ | ⟨-, h⟩
  · obtain ⟨w, tail, hw, rfl, hend, rfl⟩ := loneWord_sound h
    exact ⟨w, tail, ⟨_, .nop, hw⟩, rfl, fun _ ↦ hend, rfl⟩
  rcases h with ⟨_, h, rfl, rfl⟩ | ⟨-, h⟩
  · obtain ⟨w, tail, hw, rfl, hend, rfl⟩ := loneWord_sound h
    exact ⟨w, tail, ⟨_, .ret, hw⟩, rfl, fun _ ↦ hend, rfl⟩
  rcases h with ⟨mask, _, h, rfl, rfl⟩ | ⟨-, h⟩
  · obtain ⟨w, hw, hend, rfl⟩ := branchWord?_sound h
    exact ⟨w, _, hw, rfl, fun _ ↦ hend, rfl⟩
  rcases h with ⟨_, ⟨w, hw, rfl⟩, rfl, rfl⟩ | ⟨-, h⟩
  · exact ⟨w, _, ⟨_, .compare, hw⟩, rfl, nofun, rfl⟩
  rcases h with ⟨_, ⟨w, hw, rfl, hend⟩, rfl, rfl⟩ | ⟨-, h⟩
  · exact ⟨w, _, ⟨_, .add, hw⟩, rfl, fun _ ↦ hend, rfl⟩
  rcases h with ⟨_, ⟨w, hw, rfl, hend⟩, rfl, rfl⟩ | ⟨-, h⟩
  · exact ⟨w, _, ⟨_, .sub, hw⟩, rfl, fun _ ↦ hend, rfl⟩
  rcases h with ⟨_, ⟨w, hw, rfl, hend⟩, rfl, rfl⟩ | ⟨-, h⟩
  · exact ⟨w, _, ⟨_, .mul, hw⟩, rfl, fun _ ↦ hend, rfl⟩
  rcases h with ⟨_, ⟨w, hw, rfl, hend⟩, rfl, rfl⟩ | ⟨-, h⟩
  · exact ⟨w, _, ⟨_, .div, hw⟩, rfl, fun _ ↦ hend, rfl⟩
  rcases h with ⟨_, ⟨w, hw, rfl⟩, rfl, rfl⟩ | ⟨-, h⟩
  · exact ⟨w, _, ⟨_, .load, hw⟩, rfl, nofun, rfl⟩
  rcases h with ⟨_, ⟨w, hw, rfl⟩, rfl, rfl⟩ | ⟨-, _, ⟨w, hw, rfl⟩, rfl, rfl⟩
  · exact ⟨w, _, ⟨_, .store, hw⟩, rfl, nofun, rfl⟩
  · exact ⟨w, _, ⟨_, .const, hw⟩, rfl, nofun, rfl⟩

/-- Words of which none begins the other are not confused. -/
theorem keyword_eq_none {word : List Char} (h : Spells word w) (word' : List Char)
    (hl : ¬word' <+: word) (hr : ¬word <+: word') (rest : List Char) :
    keyword word' (w ++ rest) = none := by
  cases hk : keyword word' (w ++ rest) with
  | none => rfl
  | some tail =>
    obtain ⟨u, hu, hcs⟩ := keyword_eq_some_iff.1 hk
    have hw : word <+: (w ++ rest).map Char.toLower := by
      rw [List.map_append, show w.map Char.toLower = word from h]
      exact List.prefix_append ..
    have hu : word' <+: (w ++ rest).map Char.toLower := by
      rw [hcs, List.map_append, show u.map Char.toLower = word' from hu]
      exact List.prefix_append ..
    rcases List.prefix_or_prefix_of_prefix hw hu with hp | hp
    · exact absurd hp hr
    · exact absurd hp hl

theorem wholeWord_eq_none {word : String} (h : keyword word.toList cs = none) :
    wholeWord word cs = none := by
  simp [wholeWord, h]

theorem MnemonicText.mnemonic_append (h : MnemonicText w m)
    (hend : m.standsAlone = true → endsWord (m.leaves rest) = true) :
    mnemonic (w ++ rest) = some (m, m.leaves rest) := by
  obtain ⟨word, hm, hw⟩ := h
  have hk : keyword word (w ++ rest) = some rest := keyword_eq_some_iff.2 ⟨w, hw, rfl⟩
  have hn := fun word' hl hr ↦ keyword_eq_none hw word' hl hr rest
  cases hm with
  | nop =>
    have hk : keyword ['n', 'o', 'p'] (w ++ rest) = some rest := hk
    have hs : endsWord (skip rest) = true := hend rfl
    simp [mnemonic, loneWord, hk, hs, Mnemonic.leaves]
  | ret =>
    have hk : keyword ['r', 'e', 't'] (w ++ rest) = some rest := hk
    have hs : endsWord (skip rest) = true := hend rfl
    simp (disch := decide) [mnemonic, loneWord, hk, hn, hs, Mnemonic.leaves]
  | branch less equal greater =>
    have hend : endsWord rest = true := hend rfl
    have hb := branchWord?_append hw hend
    obtain ⟨b, l, rfl, hbr, -⟩ := spells_append.1 hw
    have hn := fun word' hl hr ↦ keyword_eq_none hbr word' hl hr (l ++ rest)
    rw [List.append_assoc] at hb ⊢
    simp (disch := decide) [mnemonic, loneWord, hn, hb, Mnemonic.leaves]
  | compare =>
    simpa (disch := decide) [mnemonic, loneWord, branchWord?, hn, Mnemonic.leaves] using hk
  | add | sub | mul | div =>
    have hend : endsWord rest = true := hend rfl
    have hw := wholeWord_eq_some_iff.2 ⟨w, hw, rfl, hend⟩
    have hn' := fun word' : String ↦ fun hl hr ↦ wholeWord_eq_none (hn word'.toList hl hr)
    simp (disch := decide) [mnemonic, loneWord, branchWord?, hn, hw, hn', Mnemonic.leaves]
  | load | store | const =>
    simpa (disch := decide) [mnemonic, loneWord, wholeWord, branchWord?, hn, Mnemonic.leaves]
      using hk

/-! ## Instructions -/

/-- A comma, perhaps between blanks. -/
def CommaText (cs : List Char) : Prop := ∃ b b', Blanks b ∧ Blanks b' ∧ cs = b ++ ',' :: b'

/-- The texts of the operands of a mnemonic, with the blanks before the first. -/
inductive OperandsText : Mnemonic → List Char → WrittenInst → Prop
  | nop : OperandsText .nop [] .nop
  | ret : OperandsText .ret [] .ret
  | branch {mask : UInt8} {b u : List Char} {o : Operand} : Blanks b → OperandText u o →
      OperandsText (.branch mask) (b ++ u) (.branch mask o)
  | compare {b u c v : List Char} {rs rt : RegisterName} : Blanks b → RegisterText u rs →
      CommaText c → RegisterText v rt → OperandsText .compare (b ++ u ++ c ++ v) (.compare rs rt)
  | arith {f : Arith} {b u c v c' w : List Char} {rd rs rt : RegisterName} : Blanks b →
      RegisterText u rd → CommaText c → RegisterText v rs → CommaText c' → RegisterText w rt →
      OperandsText (.arith f) (b ++ u ++ c ++ v ++ c' ++ w) (.arith f rd rs rt)
  | load {b u c v : List Char} {rd rs : RegisterName} : Blanks b → RegisterText u rd →
      CommaText c → RegisterText v rs → OperandsText .load (b ++ u ++ c ++ v) (.load rd rs)
  | store {b u c v : List Char} {rs rt : RegisterName} : Blanks b → RegisterText u rs →
      CommaText c → RegisterText v rt → OperandsText .store (b ++ u ++ c ++ v) (.store rs rt)
  | const {b u c v t : List Char} {rd : RegisterName} : Blanks b → RegisterText u rd →
      CommaText c → ImmediateText v t →
      OperandsText .const (b ++ u ++ c ++ v) (.const rd (.number t))

/-- A mnemonic with its operands. -/
def InstText (w : List Char) (i : WrittenInst) : Prop :=
  ∃ m u v, MnemonicText u m ∧ OperandsText m v i ∧ (m.standsAlone = true → endsWord v = true) ∧
    w = u ++ v

variable {i : WrittenInst} {u c tail : List Char}

theorem CommaText.endsWord_append (h : CommaText c) (cs : List Char) :
    endsWord (c ++ cs) = true := by
  obtain ⟨b, b', hb, -, rfl⟩ := h
  rw [List.append_assoc]
  exact Assembly.endsWord_append hb rfl

theorem CommaText.comma_append (h : CommaText c) (hr : Begins rest) :
    ∃ cs, comma (c ++ rest) = some cs ∧ skip cs = rest := by
  obtain ⟨b, b', hb, hb', rfl⟩ := h
  refine ⟨b' ++ rest, comma_eq_some_iff.2 ⟨b, hb, by simp⟩, ?_⟩
  exact skip_append_of_begins hb' hr

theorem exists_blanks (h : skip cs = u ++ rest) (hu : Begins u) :
    ∃ b, Blanks b ∧ cs = b ++ u ++ rest := by
  have hne : u ++ rest ≠ [] := by
    obtain ⟨c, tail, rfl, -⟩ := hu
    simp
  obtain ⟨b, hb, hcs⟩ := exists_blanks_of_skip h hne
  exact ⟨b, hb, by rw [hcs, List.append_assoc]⟩

theorem exists_comma (hc : comma cs = some tail) (h : skip tail = u ++ rest) (hu : Begins u) :
    ∃ c, CommaText c ∧ cs = c ++ u ++ rest := by
  obtain ⟨b, hb, rfl⟩ := comma_eq_some_iff.1 hc
  obtain ⟨b', hb', rfl⟩ := exists_blanks h hu
  exact ⟨b ++ ',' :: b', ⟨b, b', hb, hb', rfl⟩, by simp⟩

theorem register_skip_sound (h : register (skip cs) = some (r, rest)) :
    ∃ b u, Blanks b ∧ RegisterText u r ∧ cs = b ++ u ++ rest := by
  obtain ⟨u, hu, hs⟩ := register_sound h
  obtain ⟨b, hb, hcs⟩ := exists_blanks hs hu.begins
  exact ⟨b, u, hb, hu, hcs⟩

theorem comma_register_sound (hc : comma cs = some tail)
    (h : register (skip tail) = some (r, rest)) :
    ∃ c u, CommaText c ∧ RegisterText u r ∧ cs = c ++ u ++ rest := by
  obtain ⟨u, hu, hs⟩ := register_sound h
  obtain ⟨c, hc, hcs⟩ := exists_comma hc hs hu.begins
  exact ⟨c, u, hc, hu, hcs⟩

theorem two_registers_sound {r' : RegisterName} {cs₁ cs₂ : List Char}
    (h : register (skip cs) = some (r, cs₁)) (hk : comma cs₁ = some cs₂)
    (h' : register (skip cs₂) = some (r', rest)) :
    ∃ b u c v, Blanks b ∧ RegisterText u r ∧ CommaText c ∧ RegisterText v r' ∧
      cs = b ++ u ++ c ++ v ++ rest := by
  obtain ⟨b, u, hb, hu, rfl⟩ := register_skip_sound h
  obtain ⟨c, v, hc, hv, rfl⟩ := comma_register_sound hk h'
  exact ⟨b, u, c, v, hb, hu, hc, hv, by simp⟩

theorem operands_sound (h : operands m cs = some (i, rest)) :
    ∃ v, OperandsText m v i ∧ cs = v ++ rest := by
  cases m with
  | nop =>
    simp only [operands, Option.some.injEq, Prod.mk.injEq] at h
    obtain ⟨rfl, rfl⟩ := h
    exact ⟨[], .nop, rfl⟩
  | ret =>
    simp only [operands, Option.some.injEq, Prod.mk.injEq] at h
    obtain ⟨rfl, rfl⟩ := h
    exact ⟨[], .ret, rfl⟩
  | branch mask =>
    simp only [operands, bind, Option.bind_eq_some_iff, Prod.exists, Option.some.injEq,
      Prod.mk.injEq] at h
    obtain ⟨o, _, ht, rfl, rfl⟩ := h
    obtain ⟨u, hu, hs⟩ := target_sound ht
    obtain ⟨b, hb, rfl⟩ := exists_blanks hs hu.begins
    exact ⟨b ++ u, .branch hb hu, rfl⟩
  | compare =>
    simp only [operands, bind, Option.bind_eq_some_iff, Prod.exists, Option.some.injEq,
      Prod.mk.injEq] at h
    obtain ⟨rs, _, h₁, _, k₁, rt, _, h₂, rfl, rfl⟩ := h
    obtain ⟨b, u, c, v, hb, hu, hc, hv, rfl⟩ := two_registers_sound h₁ k₁ h₂
    exact ⟨_, .compare hb hu hc hv, rfl⟩
  | arith f =>
    simp only [operands, bind, Option.bind_eq_some_iff, Prod.exists, Option.some.injEq,
      Prod.mk.injEq] at h
    obtain ⟨rd, _, h₁, _, k₁, rs, _, h₂, _, k₂, rt, _, h₃, rfl, rfl⟩ := h
    obtain ⟨b, u, c, v, hb, hu, hc, hv, rfl⟩ := two_registers_sound h₁ k₁ h₂
    obtain ⟨c', w, hc', hw, rfl⟩ := comma_register_sound k₂ h₃
    exact ⟨_, .arith hb hu hc hv hc' hw, by simp⟩
  | load =>
    simp only [operands, bind, Option.bind_eq_some_iff, Prod.exists, Option.some.injEq,
      Prod.mk.injEq] at h
    obtain ⟨rd, _, h₁, _, k₁, rs, _, h₂, rfl, rfl⟩ := h
    obtain ⟨b, u, c, v, hb, hu, hc, hv, rfl⟩ := two_registers_sound h₁ k₁ h₂
    exact ⟨_, .load hb hu hc hv, rfl⟩
  | store =>
    simp only [operands, bind, Option.bind_eq_some_iff, Prod.exists, Option.some.injEq,
      Prod.mk.injEq] at h
    obtain ⟨rs, _, h₁, _, k₁, rt, _, h₂, rfl, rfl⟩ := h
    obtain ⟨b, u, c, v, hb, hu, hc, hv, rfl⟩ := two_registers_sound h₁ k₁ h₂
    exact ⟨_, .store hb hu hc hv, rfl⟩
  | const =>
    simp only [operands, bind, Option.bind_eq_some_iff, Prod.exists, Option.some.injEq,
      Prod.mk.injEq] at h
    obtain ⟨rd, _, h₁, _, k₁, t, _, h₂, rfl, rfl⟩ := h
    obtain ⟨b, u, hb, hu, rfl⟩ := register_skip_sound h₁
    obtain ⟨v, hv, hs⟩ := immediate_sound h₂
    obtain ⟨c, hc, rfl⟩ := exists_comma k₁ hs hv.begins
    exact ⟨_, .const hb hu hc hv, by simp⟩

theorem RegisterText.register_skip_append (h : RegisterText u r) (hb : Blanks b)
    (hr : endsWord rest = true) : register (skip (b ++ (u ++ rest))) = some (r, rest) := by
  rw [skip_append_of_begins hb (h.begins.append rest)]
  exact h.register_append hr

theorem RegisterText.comma_append (h : RegisterText u r) (hc : CommaText c)
    (hr : endsWord rest = true) :
    ∃ cs, comma (c ++ (u ++ rest)) = some cs ∧ register (skip cs) = some (r, rest) := by
  obtain ⟨cs, hcs, hs⟩ := hc.comma_append (h.begins.append rest)
  exact ⟨cs, hcs, hs ▸ h.register_append hr⟩

theorem OperandsText.operands_append {v : List Char} (h : OperandsText m v i)
    (ht : Trailing tail) :
    operands m (m.leaves (v ++ tail)) = some (i, m.leaves tail) := by
  have hend := ht.endsWord
  cases h with
  | nop => rfl
  | ret => rfl
  | branch hb hu =>
    have hs := skip_append_of_begins hb (hu.begins.append tail)
    simp [operands, Mnemonic.leaves, hs, hu.target_append hend]
  | compare hb hu hc hv | load hb hu hc hv | store hb hu hc hv =>
    obtain ⟨cs, h₂, h₃⟩ := hv.comma_append hc hend
    have h₁ := fun cs ↦ hu.register_skip_append hb (hc.endsWord_append cs)
    simp [operands, Mnemonic.leaves, h₁, h₂, h₃]
  | @arith f b u c v c' w rd rs rt hb hu hc hv hc' hw =>
    obtain ⟨cs, h₄, h₅⟩ := hw.comma_append hc' hend
    obtain ⟨cs', h₂, h₃⟩ := hv.comma_append hc (hc'.endsWord_append (w ++ tail))
    have h₁ := fun cs ↦ hu.register_skip_append hb (hc.endsWord_append cs)
    simp [operands, Mnemonic.leaves, h₁, h₂, h₃, h₄, h₅]
  | const hb hu hc hv =>
    obtain ⟨cs, h₂, h₃⟩ := hc.comma_append (hv.begins.append tail)
    have h₁ := fun cs ↦ hu.register_skip_append hb (hc.endsWord_append cs)
    simp [operands, Mnemonic.leaves, h₁, h₂, h₃, hv.immediate_append hend]

theorem endsWord_append_of_trailing (h : endsWord cs = true) (ht : Trailing tail) :
    endsWord (cs ++ tail) = true := by
  cases cs with
  | nil => exact ht.endsWord
  | cons c cs => exact h

theorem endsWord_left (h : endsWord (cs ++ tail) = true) : endsWord cs = true := by
  cases cs with
  | nil => rfl
  | cons c cs => exact h

theorem Trailing.skip_leaves (h : Trailing tail) (m : Mnemonic) : skip (m.leaves tail) = [] := by
  have hs := h.skip_eq_nil
  cases m with
  | nop | ret => rw [Mnemonic.leaves, skip_skip, hs]
  | branch | compare | arith | load | store | const => exact hs

theorem InstText.instruction_append (h : InstText w i) (ht : Trailing tail) :
    ∃ rest, instruction (w ++ tail) = some (i, rest) ∧ skip rest = [] := by
  obtain ⟨m, u, v, hu, hv, hend, rfl⟩ := h
  have hm : mnemonic (u ++ (v ++ tail)) = some (m, m.leaves (v ++ tail)) := by
    refine hu.mnemonic_append fun hs ↦ ?_
    have hvt := endsWord_append_of_trailing (hend hs) ht
    cases hv with
    | nop | ret => simp [Mnemonic.leaves, ht.skip_eq_nil, endsWord]
    | branch | arith | compare | load | store | const => exact hvt
  refine ⟨m.leaves tail, ?_, ht.skip_leaves m⟩
  simp [instruction, hm, hv.operands_append ht]

theorem instruction_sound (h : instruction cs = some (i, rest)) (hr : skip rest = []) :
    ∃ w tail, InstText w i ∧ Trailing tail ∧ cs = w ++ tail := by
  simp only [instruction, bind, Option.bind_eq_some_iff, Prod.exists] at h
  obtain ⟨m, _, hm, ho⟩ := h
  obtain ⟨u, tail, hu, rfl, hend, rfl⟩ := mnemonic_sound hm
  obtain ⟨v, hv, hcs⟩ := operands_sound ho
  have hi : ∀ tail', tail = v ++ tail' → InstText (u ++ v) i := by
    rintro tail' rfl
    exact ⟨m, u, v, hu, hv, fun hs ↦ endsWord_left (hend hs), rfl⟩
  -- behind a lone word the reader is already past the blanks, but there is nothing to come
  cases hv with
  | nop | ret =>
    have ht : Trailing tail := by
      rw [← skip_eq_nil_iff, ← skip_skip, show skip tail = rest from hcs, hr]
    exact ⟨_, tail, hi tail rfl, ht, by rw [List.append_nil]⟩
  | branch | compare | arith | load | store | const =>
    exact ⟨_, rest, hi rest hcs, skip_eq_nil_iff.1 hr, by rw [List.append_assoc, ← hcs]; rfl⟩

end SimtMachine.Assembly
