import SimtMachine.Proofs.Assembly.Grammar

/-!
# Lexemes and layouts

A line is a sequence of lexemes with blanks before them and perhaps a comment behind the last one.
Which lexemes make a line is a matter of the eight forms of an instruction. How they are laid out is
free, except that some mnemonics must not run into a word. A text is read if and only if each of its
lines is laid out in some way, and no line is laid out in two ways.
-/

namespace SimtMachine.Assembly

variable {cs u v w b p tail tail' : List Char} {m m' : Mnemonic} {i : WrittenInst}
  {o : Option WrittenInst} {s s' : Statement}

/-! ## Lexemes -/

/-- A part of a line inside which no blanks may stand. -/
inductive Lexeme
  | label (name : List Char)
  | mnemonic (m : Mnemonic) (word : List Char)
  | register (text : List Char)
  | operand (text : List Char)
  | comma

def Lexeme.text : Lexeme → List Char
  | label name => name ++ [':']
  | mnemonic _ word => word
  | register w | operand w => w
  | comma => [',']

/-- Whether a letter, digit or underscore must not directly follow. -/
def Lexeme.standsAlone : Lexeme → Bool
  | mnemonic m _ => m.standsAlone
  | _ => false

/-- The lexemes of the operands of a mnemonic. -/
inductive OperandLexemes : Mnemonic → List Lexeme → WrittenInst → Prop
  | nop : OperandLexemes .nop [] .nop
  | ret : OperandLexemes .ret [] .ret
  | branch {mask : UInt8} {u : List Char} {o : Operand} : OperandText u o →
      OperandLexemes (.branch mask) [.operand u] (.branch mask o)
  | compare {u v : List Char} {rs rt : RegisterName} : RegisterText u rs → RegisterText v rt →
      OperandLexemes .compare [.register u, .comma, .register v] (.compare rs rt)
  | arith {f : Arith} {u v w : List Char} {rd rs rt : RegisterName} : RegisterText u rd →
      RegisterText v rs → RegisterText w rt →
      OperandLexemes (.arith f) [.register u, .comma, .register v, .comma, .register w]
        (.arith f rd rs rt)
  | load {u v : List Char} {rd rs : RegisterName} : RegisterText u rd → RegisterText v rs →
      OperandLexemes .load [.register u, .comma, .register v] (.load rd rs)
  | store {u v : List Char} {rs rt : RegisterName} : RegisterText u rs → RegisterText v rt →
      OperandLexemes .store [.register u, .comma, .register v] (.store rs rt)
  | const {u v t : List Char} {rd : RegisterName} : RegisterText u rd → ImmediateText v t →
      OperandLexemes .const [.register u, .comma, .operand v] (.const rd (.number t))

inductive BodyLexemes : List Lexeme → Option WrittenInst → Prop
  | absent : BodyLexemes [] none
  | present {m : Mnemonic} {word : List Char} {xs : List Lexeme} {i : WrittenInst} :
      MnemonicText word m → OperandLexemes m xs i → BodyLexemes (.mnemonic m word :: xs) (some i)

/-- The lexemes of a line and what they say. -/
inductive LineLexemes : List Lexeme → Statement → Prop
  | bare {xs : List Lexeme} {o : Option WrittenInst} : BodyLexemes xs o → LineLexemes xs ⟨none, o⟩
  | labelled {name : List Char} {xs : List Lexeme} {o : Option WrittenInst} : IdentText name →
      BodyLexemes xs o → LineLexemes (.label name :: xs) ⟨some name, o⟩

/-! ## Layouts -/

/-- A lexeme with what stands between it and the lexeme before. -/
structure Item where
  gap : List Char
  lexeme : Lexeme

def Item.text (x : Item) : List Char := x.gap ++ x.lexeme.text

def spread (items : List Item) : List Char := items.flatMap Item.text

def WellSpaced : List Item → Prop
  | [] => True
  | x :: items => Blanks x.gap ∧ (x.lexeme.standsAlone = true → endsWord (spread items) = true) ∧
      WellSpaced items

/-- A line by its lexemes. -/
structure Layout where
  items : List Item
  tail : List Char

def Layout.text (l : Layout) : List Char := spread l.items ++ l.tail

structure Layout.Says (l : Layout) (s : Statement) : Prop where
  lexemes : LineLexemes (l.items.map Item.lexeme) s
  spaced : WellSpaced l.items
  tail : Trailing l.tail

theorem spread_cons (x : Item) (items : List Item) :
    spread (x :: items) = x.gap ++ (x.lexeme.text ++ spread items) := by
  rw [spread, List.flatMap_cons, Item.text, List.append_assoc, spread]

/-- The lexemes can be laid out as the text. -/
def SpreadAs (xs : List Lexeme) (cs : List Char) : Prop :=
  ∃ items, items.map Item.lexeme = xs ∧ WellSpaced items ∧ spread items = cs

variable {x y : Lexeme} {xs ys : List Lexeme}

theorem spreadAs_nil : SpreadAs [] cs ↔ cs = [] := by
  constructor
  · rintro ⟨items, hx, -, rfl⟩
    rw [List.map_eq_nil_iff.1 hx]
    rfl
  · rintro rfl
    exact ⟨[], rfl, trivial, rfl⟩

theorem spreadAs_cons : SpreadAs (x :: xs) cs ↔ ∃ b v, Blanks b ∧ SpreadAs xs v ∧
    (x.standsAlone = true → endsWord v = true) ∧ cs = b ++ (x.text ++ v) := by
  constructor
  · rintro ⟨_, hx, hs, rfl⟩
    obtain ⟨⟨b, x⟩, items, rfl, rfl, rfl⟩ := List.map_eq_cons_iff.1 hx
    exact ⟨b, spread items, hs.1, ⟨items, rfl, hs.2.2, rfl⟩, hs.2.1, spread_cons _ items⟩
  · rintro ⟨b, v, hb, ⟨items, rfl, hs, rfl⟩, hend, rfl⟩
    exact ⟨⟨b, x⟩ :: items, rfl, ⟨hb, hend, hs⟩, spread_cons _ items⟩

theorem spreadAs_operand (hx : x.standsAlone = false) : SpreadAs (x :: xs) cs ↔
    ∃ b v, Blanks b ∧ SpreadAs xs v ∧ cs = b ++ (x.text ++ v) := by
  simp [spreadAs_cons, hx]

theorem spreadAs_comma (hx : x.standsAlone = false) : SpreadAs (.comma :: x :: xs) cs ↔
    ∃ c v, CommaText c ∧ SpreadAs xs v ∧ cs = c ++ (x.text ++ v) := by
  rw [spreadAs_operand (by rfl)]
  constructor
  · rintro ⟨b, _, hb, h, rfl⟩
    obtain ⟨b', v, hb', hv, rfl⟩ := (spreadAs_operand hx).1 h
    exact ⟨b ++ ',' :: b', v, ⟨b, b', hb, hb', rfl⟩, hv, by simp [Lexeme.text]⟩
  · rintro ⟨_, v, ⟨b, b', hb, hb', rfl⟩, hv, rfl⟩
    exact ⟨b, _, hb, (spreadAs_operand hx).2 ⟨b', v, hb', hv, rfl⟩, by simp [Lexeme.text]⟩

theorem spreadAs_two {x y : Lexeme} (hx : x.standsAlone = false) (hy : y.standsAlone = false) :
    SpreadAs [x, .comma, y] cs ↔
      ∃ b c, Blanks b ∧ CommaText c ∧ cs = b ++ x.text ++ c ++ y.text := by
  simp [spreadAs_operand hx, spreadAs_comma hy, spreadAs_nil]

theorem spreadAs_three {x y z : Lexeme} (hx : x.standsAlone = false) (hy : y.standsAlone = false)
    (hz : z.standsAlone = false) : SpreadAs [x, .comma, y, .comma, z] cs ↔
      ∃ b c c', Blanks b ∧ CommaText c ∧ CommaText c' ∧
        cs = b ++ x.text ++ c ++ y.text ++ c' ++ z.text := by
  simp [spreadAs_operand hx, spreadAs_comma hy, spreadAs_comma hz, spreadAs_nil, and_assoc]

theorem operandsText_iff :
    OperandsText m cs i ↔ ∃ xs, OperandLexemes m xs i ∧ SpreadAs xs cs := by
  constructor
  · intro h
    cases h with
    | nop => exact ⟨[], .nop, spreadAs_nil.2 rfl⟩
    | ret => exact ⟨[], .ret, spreadAs_nil.2 rfl⟩
    | branch hb hu =>
      exact ⟨_, .branch hu, (spreadAs_operand rfl).2 ⟨_, [], hb, spreadAs_nil.2 rfl,
        by simp [Lexeme.text]⟩⟩
    | compare hb hu hc hv => exact ⟨_, .compare hu hv, (spreadAs_two rfl rfl).2 ⟨_, _, hb, hc, rfl⟩⟩
    | load hb hu hc hv => exact ⟨_, .load hu hv, (spreadAs_two rfl rfl).2 ⟨_, _, hb, hc, rfl⟩⟩
    | store hb hu hc hv => exact ⟨_, .store hu hv, (spreadAs_two rfl rfl).2 ⟨_, _, hb, hc, rfl⟩⟩
    | const hb hu hc hv => exact ⟨_, .const hu hv, (spreadAs_two rfl rfl).2 ⟨_, _, hb, hc, rfl⟩⟩
    | arith hb hu hc hv hc' hw =>
      exact ⟨_, .arith hu hv hw, (spreadAs_three rfl rfl rfl).2 ⟨_, _, _, hb, hc, hc', rfl⟩⟩
  · rintro ⟨xs, h, hs⟩
    cases h with
    | nop =>
      obtain rfl := spreadAs_nil.1 hs
      exact .nop
    | ret =>
      obtain rfl := spreadAs_nil.1 hs
      exact .ret
    | branch hu =>
      obtain ⟨b, _, hb, hn, rfl⟩ := (spreadAs_operand rfl).1 hs
      obtain rfl := spreadAs_nil.1 hn
      rw [List.append_nil]
      exact .branch hb hu
    | compare hu hv =>
      obtain ⟨b, c, hb, hc, rfl⟩ := (spreadAs_two rfl rfl).1 hs
      exact .compare hb hu hc hv
    | load hu hv =>
      obtain ⟨b, c, hb, hc, rfl⟩ := (spreadAs_two rfl rfl).1 hs
      exact .load hb hu hc hv
    | store hu hv =>
      obtain ⟨b, c, hb, hc, rfl⟩ := (spreadAs_two rfl rfl).1 hs
      exact .store hb hu hc hv
    | const hu hv =>
      obtain ⟨b, c, hb, hc, rfl⟩ := (spreadAs_two rfl rfl).1 hs
      exact .const hb hu hc hv
    | arith hu hv hw =>
      obtain ⟨b, c, c', hb, hc, hc', rfl⟩ := (spreadAs_three rfl rfl rfl).1 hs
      exact .arith hb hu hc hv hc' hw

theorem Trailing.append_blanks (h : Trailing tail) (hb : Blanks b) : Trailing (b ++ tail) := by
  rw [← skip_eq_nil_iff, skip_append hb, h.skip_eq_nil]

/-- The body of a line with blanks before it, laid out or not written at all. -/
theorem BodyText.exists_lexemes (h : BodyText w o) (hb : Blanks b) (ht : Trailing tail) :
    ∃ xs u tail', BodyLexemes xs o ∧ SpreadAs xs u ∧ Trailing tail' ∧
      u ++ tail' = b ++ (w ++ tail) := by
  cases h with
  | absent => exact ⟨[], [], b ++ tail, .absent, spreadAs_nil.2 rfl, ht.append_blanks hb, rfl⟩
  | present hi =>
    obtain ⟨m, word, v, hm, hv, hend, rfl⟩ := hi
    obtain ⟨xs, hxs, hs⟩ := operandsText_iff.1 hv
    exact ⟨_, b ++ (word ++ v), tail, .present hm hxs,
      spreadAs_cons.2 ⟨b, v, hb, hs, hend, rfl⟩, ht, List.append_assoc ..⟩

theorem BodyLexemes.exists_text (h : BodyLexemes xs o) (hs : SpreadAs xs cs) :
    ∃ b w, Blanks b ∧ BodyText w o ∧ cs = b ++ w := by
  cases h with
  | absent => exact ⟨[], [], blanks_nil, .absent, spreadAs_nil.1 hs⟩
  | present hm hxs =>
    obtain ⟨b, v, hb, hv, hend, rfl⟩ := spreadAs_cons.1 hs
    exact ⟨b, _, hb, .present ⟨_, _, v, hm, operandsText_iff.2 ⟨_, hxs, hv⟩, hend, rfl⟩, rfl⟩

theorem exists_layout_iff_spreadAs : (∃ l : Layout, l.text = p ∧ l.Says s) ↔
    ∃ xs u tail, LineLexemes xs s ∧ SpreadAs xs u ∧ Trailing tail ∧ u ++ tail = p := by
  constructor
  · rintro ⟨⟨items, tail⟩, rfl, hx, hs, ht⟩
    exact ⟨_, _, tail, hx, ⟨items, rfl, hs, rfl⟩, ht, rfl⟩
  · rintro ⟨_, _, tail, hx, ⟨items, rfl, hs, rfl⟩, ht, rfl⟩
    exact ⟨⟨items, tail⟩, rfl, hx, hs, ht⟩

/-- The texts of lines are the texts of layouts. -/
theorem exists_layout_iff : (∃ l : Layout, l.text = p ∧ l.Says s) ↔ LineText p s := by
  rw [exists_layout_iff_spreadAs]
  constructor
  · rintro ⟨xs, u, tail, hx, hs, ht, rfl⟩
    cases hx with
    | bare hx =>
      obtain ⟨b, w, hb, hw, rfl⟩ := hx.exists_text hs
      exact ⟨b, [], w, tail, hb, .absent, hw, ht, by simp⟩
    | labelled hname hx =>
      obtain ⟨b, v, hb, hv, -, rfl⟩ := spreadAs_cons.1 hs
      obtain ⟨b', w, hb', hw, rfl⟩ := hx.exists_text hv
      exact ⟨b, _, w, tail, hb, .present hname hb', hw, ht, by simp [Lexeme.text]⟩
  · rintro ⟨b, l, w, tail, hb, hl, hw, ht, rfl⟩
    obtain ⟨name, inst⟩ := s
    cases hl with
    | absent =>
      obtain ⟨xs, u, tail', hx, hs, ht', hu⟩ := hw.exists_lexemes hb ht
      exact ⟨xs, u, tail', .bare hx, hs, ht', hu⟩
    | @present name b' hname hb' =>
      obtain ⟨xs, u, tail', hx, hs, ht', hu⟩ := hw.exists_lexemes hb' ht
      exact ⟨_, _, tail', .labelled hname hx, (spreadAs_operand rfl).2 ⟨b, u, hb, hs, rfl⟩, ht',
        by simp [Lexeme.text, hu]⟩

/-! ## One layout -/

/-- Where one of two lexemes is laid out, the other is not. -/
structure Lexeme.ToldApart (x y : Lexeme) : Prop where
  begins : Begins x.text ∧ Begins y.text
  eq : ∀ u v, (x.standsAlone = true → endsWord u = true) →
    (y.standsAlone = true → endsWord v = true) → x.text ++ u = y.text ++ v → x = y

theorem append_cancel_blanks {b' : List Char} (hb : Blanks b) (hb' : Blanks b') (hu : Begins u)
    (hv : Begins v) (h : b ++ u = b' ++ v) : b = b' ∧ u = v := by
  obtain rfl : u = v := by rw [← skip_append_of_begins hb hu, h, skip_append_of_begins hb' hv]
  exact ⟨List.append_cancel_right h, rfl⟩

theorem WellSpaced.unique {items items' : List Item} (hs : WellSpaced items)
    (hs' : WellSpaced items')
    (h : List.Forall₂ (fun x y : Item ↦ x.lexeme.ToldApart y.lexeme) items items')
    (ht : Trailing tail) (ht' : Trailing tail')
    (he : spread items ++ tail = spread items' ++ tail') : items = items' ∧ tail = tail' := by
  induction h with
  | nil => exact ⟨rfl, he⟩
  | @cons x y items items' hxy _ ih =>
    obtain ⟨b, x⟩ := x
    obtain ⟨b', y⟩ := y
    obtain ⟨hb, hend, hs⟩ := hs
    obtain ⟨hb', hend', hs'⟩ := hs'
    simp only [spread_cons, List.append_assoc] at he
    -- lexemes do not begin with blanks, so the gaps agree first
    obtain ⟨rfl, he⟩ :=
      append_cancel_blanks hb hb' (hxy.begins.1.append _) (hxy.begins.2.append _) he
    obtain rfl : x = y := hxy.eq _ _ (fun h ↦ endsWord_append_of_trailing (hend h) ht)
      (fun h ↦ endsWord_append_of_trailing (hend' h) ht') he
    obtain ⟨rfl, rfl⟩ := ih hs hs' (List.append_cancel_left he)
    exact ⟨rfl, rfl⟩

theorem RegisterText.text_unique {r : RegisterName} (h : RegisterText u r) (h' : RegisterText v r) :
    u = v := by
  cases h <;> cases h' <;> rfl

theorem ImmediateText.text_unique {t cs cs' : List Char} (h : ImmediateText u t)
    (h' : ImmediateText v t) (he : u ++ cs = v ++ cs') : u = v := by
  cases h with
  | bare hn =>
    cases h' with
    | bare => rfl
    | marked =>
      obtain ⟨c, t, rfl, hc⟩ := hn.exists_cons
      obtain ⟨rfl, -⟩ := List.cons.inj he
      exact absurd hc (by decide)
  | marked hn =>
    cases h' with
    | bare =>
      obtain ⟨c, t, rfl, hc⟩ := hn.exists_cons
      obtain ⟨rfl, -⟩ := List.cons.inj he
      exact absurd hc (by decide)
    | marked => rfl

theorem OperandText.text_unique {o : Operand} {cs cs' : List Char} (h : OperandText u o)
    (h' : OperandText v o) (he : u ++ cs = v ++ cs') : u = v := by
  cases h with
  | number hu =>
    cases h' with
    | number hv => exact hu.text_unique hv he
  | label =>
    cases h' with
    | label => rfl

theorem word_unique (hu : ∀ c ∈ u, isWordChar c = true) (hv : ∀ c ∈ v, isWordChar c = true)
    {cs cs' : List Char} (hcs : endsWord cs = true) (hcs' : endsWord cs' = true)
    (he : u ++ cs = v ++ cs') : u = v :=
  (run_append_inj hu hv (not_of_endsWord (fun _ h ↦ h) hcs) (not_of_endsWord (fun _ h ↦ h) hcs')
    he).1

theorem MnemonicWord.unique (h : MnemonicWord u m) (h' : MnemonicWord v m)
    (hm : m.standsAlone = false) : u = v := by
  cases h with
  | compare | load | store | const =>
    cases h'
    rfl
  | nop | ret | branch | add | sub | mul | div => exact nomatch hm

theorem MnemonicText.length_eq (h : MnemonicText u m) (h' : MnemonicText v m)
    (hm : m.standsAlone = false) : u.length = v.length := by
  obtain ⟨word, hw, hu⟩ := h
  obtain ⟨word', hw', hv⟩ := h'
  have he : u.map Char.toLower = v.map Char.toLower := hu.trans ((hw.unique hw' hm).trans hv.symm)
  simpa using congrArg List.length he

theorem MnemonicText.toldApart (h : MnemonicText u m) (h' : MnemonicText v m) :
    (Lexeme.mnemonic m u).ToldApart (.mnemonic m v) := by
  refine ⟨⟨h.begins, h'.begins⟩, fun cs cs' hcs hcs' he ↦ ?_⟩
  obtain rfl : u = v := by
    cases hm : m.standsAlone with
    | true => exact word_unique h.forall_isWordChar h'.forall_isWordChar (hcs hm) (hcs' hm) he
    | false => exact (List.append_inj he (h.length_eq h' hm)).1
  rfl

theorem RegisterText.toldApart {r : RegisterName} (h : RegisterText u r) (h' : RegisterText v r) :
    (Lexeme.register u).ToldApart (.register v) := by
  obtain rfl := h.text_unique h'
  exact ⟨⟨h.begins, h.begins⟩, fun _ _ _ _ _ ↦ rfl⟩

theorem OperandText.toldApart {o : Operand} (h : OperandText u o) (h' : OperandText v o) :
    (Lexeme.operand u).ToldApart (.operand v) :=
  ⟨⟨h.begins, h'.begins⟩, fun _ _ _ _ he ↦ congrArg _ (h.text_unique h' he)⟩

theorem toldApart_comma : Lexeme.comma.ToldApart .comma := by
  have hb : Begins [','] := ⟨',', [], rfl, by decide, by decide⟩
  exact ⟨⟨hb, hb⟩, fun _ _ _ _ _ ↦ rfl⟩

theorem toldApart_two {u' v' : List Char} {r r' : RegisterName} (hu : RegisterText u r)
    (hu' : RegisterText u' r) (hv : RegisterText v r') (hv' : RegisterText v' r') :
    List.Forall₂ Lexeme.ToldApart [.register u, .comma, .register v]
      [.register u', .comma, .register v'] :=
  .cons (hu.toldApart hu') (.cons toldApart_comma (.cons (hv.toldApart hv') .nil))

/-- Operands that say the same are told apart by their text. -/
theorem OperandLexemes.toldApart (h : OperandLexemes m xs i) (h' : OperandLexemes m' ys i) :
    m = m' ∧ List.Forall₂ Lexeme.ToldApart xs ys := by
  cases h with
  | nop | ret =>
    cases h'
    exact ⟨rfl, .nil⟩
  | branch hu =>
    cases h' with
    | branch hu' => exact ⟨rfl, .cons (hu.toldApart hu') .nil⟩
  | compare hu hv =>
    cases h' with
    | compare hu' hv' => exact ⟨rfl, toldApart_two hu hu' hv hv'⟩
  | load hu hv =>
    cases h' with
    | load hu' hv' => exact ⟨rfl, toldApart_two hu hu' hv hv'⟩
  | store hu hv =>
    cases h' with
    | store hu' hv' => exact ⟨rfl, toldApart_two hu hu' hv hv'⟩
  | const hu hv =>
    cases h' with
    | const hu' hv' =>
      have hv := (OperandText.number hv).toldApart (.number hv')
      exact ⟨rfl, .cons (hu.toldApart hu') (.cons toldApart_comma (.cons hv .nil))⟩
  | arith hu hv hw =>
    cases h' with
    | arith hu' hv' hw' =>
      have hvw := toldApart_two hv hv' hw hw'
      exact ⟨rfl, .cons (hu.toldApart hu') (.cons toldApart_comma hvw)⟩

theorem BodyLexemes.toldApart (h : BodyLexemes xs o) (h' : BodyLexemes ys o) :
    List.Forall₂ Lexeme.ToldApart xs ys := by
  cases h with
  | absent =>
    cases h'
    exact .nil
  | present hm hx =>
    cases h' with
    | present hm' hx' =>
      obtain ⟨rfl, hxs⟩ := hx.toldApart hx'
      exact .cons (hm.toldApart hm') hxs

theorem LineLexemes.toldApart (h : LineLexemes xs s) (h' : LineLexemes ys s) :
    List.Forall₂ Lexeme.ToldApart xs ys := by
  cases h with
  | bare h =>
    cases h' with
    | bare h' => exact h.toldApart h'
  | labelled hname h =>
    cases h' with
    | labelled _ h' =>
      exact .cons ⟨⟨hname.begins.append _, hname.begins.append _⟩, fun _ _ _ _ _ ↦ rfl⟩
        (h.toldApart h')

theorem LineText.unique (h : LineText p s) (h' : LineText p s') : s = s' := by
  obtain ⟨line, hl, rfl⟩ := exists_read?_iff.2 h
  obtain ⟨line', hl', rfl⟩ := exists_read?_iff.2 h'
  rw [Option.some.inj (hl.symm.trans hl')]

/-- A line has one layout, and says one thing. -/
theorem Layout.Says.unique {l l' : Layout} (h : l.Says s) (h' : l'.Says s')
    (he : l.text = l'.text) : l = l' ∧ s = s' := by
  obtain rfl : s = s' :=
    (exists_layout_iff.1 ⟨l, rfl, h⟩).unique (he ▸ exists_layout_iff.1 ⟨l', rfl, h'⟩)
  obtain ⟨items, tail⟩ := l
  obtain ⟨items', tail'⟩ := l'
  have hx := h.lexemes.toldApart h'.lexemes
  rw [List.forall₂_map_left_iff, List.forall₂_map_right_iff] at hx
  obtain ⟨rfl, rfl⟩ := h.spaced.unique h'.spaced hx h.tail h'.tail he
  exact ⟨rfl, rfl⟩

/-! ## Reading -/

/-- A text is cut into lines in one way. It is read if and only if every line is laid out in some
way; each line is then laid out in one way, and is read as what that says. -/
theorem read_iff_laidOut (text : List Char) : ∃ ps, (∀ qs, Cut text qs ↔ qs = ps) ∧
    ((∃ ns, read text = .ok ns) ↔ ∀ p ∈ ps, ∃ l : Layout, l.text = p ∧ ∃ s, l.Says s) ∧
    ∀ ns, read text = .ok ns → List.Forall₂ (fun p n ↦ ∃ l : Layout, l.text = p ∧
      l.Says n.statement ∧ ∀ (l' : Layout) s, l'.text = p → l'.Says s →
        l' = l ∧ s = n.statement) ps ns := by
  have hread ns : read text = .ok ns →
      List.Forall₂ (fun p n ↦ LineText p n.statement) (pieces text) ns := by
    intro hns
    rw [← placedLines_text, List.forall₂_map_left_iff]
    exact (mapM_eq_ok_iff.1 hns).imp fun l n hn ↦ lineText_iff.2 ⟨n, hn, rfl⟩
  refine ⟨pieces text, fun qs ↦ cut_iff, ⟨?_, fun h ↦ ?_⟩, fun ns hns ↦ ?_⟩
  · rintro ⟨ns, hns⟩ p hp
    obtain ⟨n, hn⟩ := exists_forall₂_iff.1 ⟨ns, hread ns hns⟩ p hp
    obtain ⟨l, hl, hs⟩ := exists_layout_iff.2 hn
    exact ⟨l, hl, _, hs⟩
  · obtain ⟨lines, hlines⟩ : ∃ lines, List.Forall₂ LineText (pieces text) lines := by
      refine exists_forall₂_iff.2 fun p hp ↦ ?_
      obtain ⟨l, hl, s, hs⟩ := h p hp
      exact ⟨s, exists_layout_iff.1 ⟨l, hl, hs⟩⟩
    obtain ⟨ns, hns, -⟩ := written_iff.1 ⟨_, cut_pieces text, hlines⟩
    exact ⟨ns, hns⟩
  · refine (hread ns hns).imp fun p n hn ↦ ?_
    obtain ⟨l, hl, hs⟩ := exists_layout_iff.2 hn
    exact ⟨l, hl, hs, fun l' s hl' hs' ↦ hs'.unique hs (hl'.trans hl.symm)⟩

end SimtMachine.Assembly
