import Mathlib.Logic.Relation
import SimtMachine.Proofs.Assembly.Lexemes
import SimtMachine.Proofs.Assembly.Spoken

/-!
# Edits of layout and case

Blanks between lexemes, comments, lines without lexemes, line ends, and the case of mnemonics and of
the letter of a register may be changed in a source text without changing its words and its symbols.
An edit changes one thing at one place of one line; a text may be edited any number of times.
-/

namespace SimtMachine.Assembly

variable {p p' u u' v v' w b : List Char} {s s' : Statement} {sts : List Statement}
  {x x' : Lexeme} {xs ys : List Lexeme} {m : Mnemonic} {i : WrittenInst} {o : Option WrittenInst}

/-! ## Edits of a line -/

/-- The lexeme, perhaps with letters in the other case. -/
inductive Lexeme.Recased : Lexeme → Lexeme → Prop
  | refl (x : Lexeme) : Recased x x
  | mnemonic (m : Mnemonic) {w w' : List Char} : w.map Char.toLower = w'.map Char.toLower →
      Recased (.mnemonic m w) (.mnemonic m w')
  | register {c c' : Char} (ds : List Char) : c.toLower = 'r' → c'.toLower = 'r' →
      Recased (.register (c :: ds)) (.register (c' :: ds))

/-- An edit of one of some lexemes, or of the blanks before it. -/
inductive ItemsEdit : List Item → List Item → Prop
  /-- blanks are put before a lexeme, so at the start of the line, behind the label or between two
  lexemes of the instruction -/
  | blanks (b₁ b₂ : List Char) {b : List Char} (x : Lexeme) (items : List Item) : Blanks b →
      ItemsEdit (⟨b₁ ++ b₂, x⟩ :: items) (⟨b₁ ++ (b ++ b₂), x⟩ :: items)
  /-- a mnemonic or the letter of a register is written in another case -/
  | recase (b : List Char) {x x' : Lexeme} (items : List Item) : x.Recased x' →
      ItemsEdit (⟨b, x⟩ :: items) (⟨b, x'⟩ :: items)
  | cons (x : Item) {items items' : List Item} : ItemsEdit items items' →
      ItemsEdit (x :: items) (x :: items')

inductive Layout.Edit : Layout → Layout → Prop
  | items {items items' : List Item} (tail : List Char) : ItemsEdit items items' →
      Edit ⟨items, tail⟩ ⟨items', tail⟩
  /-- blanks or a comment are put behind the last lexeme, or other ones than before -/
  | finish (items : List Item) (tail : List Char) {tail' : List Char} : Trailing tail' →
      OneLine tail' → Edit ⟨items, tail⟩ ⟨items, tail'⟩

/-- An edit of the text of a line. -/
def LineEdit (p p' : List Char) : Prop :=
  ∃ (l l' : Layout) (s : Statement), l.Says s ∧ l.text = p ∧ l.Edit l' ∧ l'.text = p'

/-! ## Edits of a text -/

/-- An edit of one of some lines, or a line more. -/
inductive LinesEdit : List (List Char) → List (List Char) → Prop
  | refl (ps : List (List Char)) : LinesEdit ps ps
  | line {p p' : List Char} (ps : List (List Char)) : LineEdit p p' →
      LinesEdit (p :: ps) (p' :: ps)
  /-- a line that holds no lexeme is put in -/
  | insert {p : List Char} (ps : List (List Char)) : Trailing p → OneLine p →
      LinesEdit ps (p :: ps)
  | cons (p : List Char) {ps ps' : List (List Char)} : LinesEdit ps ps' →
      LinesEdit (p :: ps) (p :: ps')

def LineEnd.text : LineEnd → List Char
  | feed => ['\n']
  | returnFeed => ['\r', '\n']
  | .return => ['\r']

/-- A line, and more lines with the line ends before them. -/
structure Sheet where
  first : List Char
  rest : List (LineEnd × List Char)

namespace Sheet

def text (t : Sheet) : List Char := t.first ++ t.rest.flatMap fun x ↦ x.1.text ++ x.2

def lines (t : Sheet) : List (List Char) := t.first :: t.rest.map Prod.snd

def ofText (text : List Char) : Sheet := ⟨(splitLines text).1, (splitLines text).2⟩

end Sheet

/-- An edit of a source text. The line ends of the new text may be others. -/
def Edit (text text' : String) : Prop :=
  ∃ t : Sheet, LinesEdit (Sheet.ofText text.toList).lines t.lines ∧
    text' = String.ofList t.text

/-- No text gets lost by cutting it into lines. -/
theorem Sheet.text_ofText (text : List Char) : (ofText text).text = text := by
  induction text using splitLines.induct with
  | case1 => rfl
  | case2 cs l ls hs ih => simp_all [ofText, Sheet.text, splitLines, LineEnd.text]
  | case3 cs l ls hs ih => simp_all [ofText, Sheet.text, splitLines, LineEnd.text]
  | case4 cs hn l ls hs ih =>
    have hn : cs.head? ≠ some '\n' := fun h ↦ hn _ (List.eq_cons_of_mem_head? h)
    simp_all [ofText, Sheet.text, splitLines_return hn, LineEnd.text]
  | case5 c cs _ hn hr l ls hs ih =>
    simp_all [ofText, Sheet.text, splitLines_cons hn hr]

/-! ## What an edited line says -/

theorem Lexeme.Recased.standsAlone_eq (h : x.Recased x') : x.standsAlone = x'.standsAlone := by
  cases h <;> rfl

theorem Lexeme.Recased.map_toLower (h : x.Recased x') :
    x.text.map Char.toLower = x'.text.map Char.toLower := by
  cases h with
  | refl => rfl
  | mnemonic m hw => exact hw
  | register ds hc hc' => simp [Lexeme.text, hc, hc']

/-- A register keeps its number. -/
theorem Lexeme.Recased.register_cases {r : RegisterName} (h : (Lexeme.register u).Recased x)
    (hu : RegisterText u r) : ∃ v r', x = .register v ∧ RegisterText v r' ∧ r.Synonym r' := by
  cases h with
  | refl => exact ⟨u, r, rfl, hu, fun _ ↦ Iff.rfl⟩
  | @register c c' ds hc hc' =>
    cases hu with
    | blockIdx | blockDim | threadIdx => exact absurd hc (by decide)
    | general _ hne hds => exact ⟨_, _, rfl, .general hc' hne hds, fun _ ↦ Iff.rfl⟩

theorem recased_two {r r' : RegisterName} (hu : RegisterText u r) (hv : RegisterText v r')
    (hx : List.Forall₂ Lexeme.Recased [.register u, .comma, .register v] ys) :
    ∃ u' v' q q', ys = [.register u', .comma, .register v'] ∧ RegisterText u' q ∧
      RegisterText v' q' ∧ r.Synonym q ∧ r'.Synonym q' := by
  obtain _ | ⟨hx₁, _ | ⟨⟨⟩, _ | ⟨hx₂, ⟨⟩⟩⟩⟩ := hx
  obtain ⟨u', q, rfl, hu', hr⟩ := hx₁.register_cases hu
  obtain ⟨v', q', rfl, hv', hr'⟩ := hx₂.register_cases hv
  exact ⟨u', v', q, q', rfl, hu', hv', hr, hr'⟩

theorem OperandLexemes.recased (h : OperandLexemes m xs i)
    (hx : List.Forall₂ Lexeme.Recased xs ys) :
    ∃ i', OperandLexemes m ys i' ∧ Inst.Rel RegisterName.Synonym (· = ·) i i' := by
  cases h with
  | nop =>
    cases hx
    exact ⟨_, .nop, .nop⟩
  | ret =>
    cases hx
    exact ⟨_, .ret, .ret⟩
  | branch hu =>
    obtain _ | ⟨⟨⟩, ⟨⟩⟩ := hx
    exact ⟨_, .branch hu, .branch rfl⟩
  | compare hu hv =>
    obtain ⟨_, _, _, _, rfl, hu', hv', hr, hr'⟩ := recased_two hu hv hx
    exact ⟨_, .compare hu' hv', .compare hr hr'⟩
  | load hu hv =>
    obtain ⟨_, _, _, _, rfl, hu', hv', hr, hr'⟩ := recased_two hu hv hx
    exact ⟨_, .load hu' hv', .load hr hr'⟩
  | store hu hv =>
    obtain ⟨_, _, _, _, rfl, hu', hv', hr, hr'⟩ := recased_two hu hv hx
    exact ⟨_, .store hu' hv', .store hr hr'⟩
  | const hu hv =>
    obtain _ | ⟨hx₁, _ | ⟨⟨⟩, _ | ⟨⟨⟩, ⟨⟩⟩⟩⟩ := hx
    obtain ⟨_, _, rfl, hu', hr⟩ := hx₁.register_cases hu
    exact ⟨_, .const hu' hv, .const hr rfl⟩
  | arith hu hv hw =>
    obtain _ | ⟨hx₁, _ | ⟨⟨⟩, hx⟩⟩ := hx
    obtain ⟨_, _, rfl, hu', hr⟩ := hx₁.register_cases hu
    obtain ⟨_, _, _, _, rfl, hv', hw', hr', hr''⟩ := recased_two hv hw hx
    exact ⟨_, .arith hu' hv' hw', .arith hr hr' hr''⟩

theorem MnemonicText.recased (h : MnemonicText w m) (hx : (Lexeme.mnemonic m w).Recased x) :
    ∃ w', x = .mnemonic m w' ∧ MnemonicText w' m := by
  cases hx with
  | refl => exact ⟨w, rfl, h⟩
  | @mnemonic _ _ w' hw =>
    obtain ⟨word, hm, hs⟩ := h
    exact ⟨w', rfl, word, hm, hw.symm.trans hs⟩

theorem BodyLexemes.recased (h : BodyLexemes xs o) (hx : List.Forall₂ Lexeme.Recased xs ys) :
    ∃ o', BodyLexemes ys o' ∧ Option.Rel (Inst.Rel RegisterName.Synonym (· = ·)) o o' := by
  cases h with
  | absent =>
    cases hx
    exact ⟨none, .absent, .none⟩
  | present hm h =>
    obtain _ | ⟨hx₁, hx⟩ := hx
    obtain ⟨w', rfl, hw'⟩ := hm.recased hx₁
    obtain ⟨i', h', hi⟩ := h.recased hx
    exact ⟨some i', .present hw' h', .some hi⟩

/-- The case of mnemonics and registers does not change what a line says. -/
theorem LineLexemes.recased (h : LineLexemes xs s) (hx : List.Forall₂ Lexeme.Recased xs ys) :
    ∃ s', LineLexemes ys s' ∧ s.Alike s' := by
  cases h with
  | bare h =>
    obtain ⟨o', h', ho⟩ := h.recased hx
    exact ⟨_, .bare h', rfl, ho⟩
  | labelled hname h =>
    obtain _ | ⟨⟨⟩, hx⟩ := hx
    obtain ⟨o', h', ho⟩ := h.recased hx
    exact ⟨_, .labelled hname h', rfl, ho⟩

/-- The lexeme perhaps in another case, and perhaps with more blanks before it. -/
structure Item.Varies (x x' : Item) : Prop where
  gap : Blanks x.gap → Blanks x'.gap
  gap_eq_nil : x'.gap = [] → x.gap = []
  lexeme : x.lexeme.Recased x'.lexeme

theorem endsWord_append_congr (hu : u.map Char.toLower = u'.map Char.toLower)
    (hv : endsWord v = true → endsWord v' = true) (h : endsWord (u ++ v) = true) :
    endsWord (u' ++ v') = true := by
  cases u with
  | nil =>
    obtain rfl : u' = [] := List.map_eq_nil_iff.1 hu.symm
    exact hv h
  | cons c u =>
    cases u' with
    | nil => simp at hu
    | cons c' u' =>
      have hc : isWordChar c = isWordChar c' := by
        rw [← isWordChar_toLower c, (List.cons.inj hu).1, isWordChar_toLower]
      simpa [endsWord, hc] using h

theorem endsWord_append_of_ne_nil (hb : Blanks b) (hne : b ≠ []) : endsWord (b ++ u) = true := by
  obtain ⟨c, b, rfl⟩ := List.exists_cons_of_ne_nil hne
  simp [endsWord, not_isWordChar_of_isBlank (hb c (by simp))]

theorem oneLine_append : OneLine (u ++ v) ↔ OneLine u ∧ OneLine v := List.forall_mem_append

theorem Blanks.oneLine (hb : Blanks b) : OneLine b :=
  fun c hc ↦ ⟨hb.instChars.ne (by decide) c hc, hb.instChars.ne (by decide) c hc⟩

theorem oneLine_of_map_toLower (h : u.map Char.toLower = u'.map Char.toLower) (hu : OneLine u) :
    OneLine u' := by
  have hl (c : Char) : (c.toLower ≠ '\n' ∧ c.toLower ≠ '\r') = (c ≠ '\n' ∧ c ≠ '\r') :=
    apply_toLower (f := fun c ↦ c ≠ '\n' ∧ c ≠ '\r') (by decide +kernel) c
  intro c' hc'
  obtain ⟨c, hc, he⟩ : ∃ c ∈ u, c.toLower = c'.toLower := by
    rw [← List.mem_map, h]
    exact List.mem_map_of_mem hc'
  rw [← hl c', ← he, hl c]
  exact hu c hc

section Varies

variable {items items' : List Item} (h : List.Forall₂ Item.Varies items items')

include h

theorem WellSpaced.varies (hs : WellSpaced items) :
    WellSpaced items' ∧ (endsWord (spread items) = true → endsWord (spread items') = true) := by
  induction h with
  | nil => exact ⟨trivial, id⟩
  | @cons x x' items items' hx _ ih =>
    obtain ⟨hb, hend, hs⟩ := hs
    obtain ⟨hs', hspread⟩ := ih hs
    refine ⟨⟨hx.gap hb, fun ha ↦ hspread (hend (hx.lexeme.standsAlone_eq ▸ ha)), hs'⟩, ?_⟩
    rw [spread_cons, spread_cons]
    -- without a gap it is the lexeme that must not continue the word before
    by_cases hg : x'.gap = []
    · rw [hg, hx.gap_eq_nil hg, List.nil_append, List.nil_append]
      exact endsWord_append_congr hx.lexeme.map_toLower hspread
    · exact fun _ ↦ endsWord_append_of_ne_nil (hx.gap hb) hg

theorem oneLine_spread_varies (hs : WellSpaced items) (ho : OneLine (spread items)) :
    OneLine (spread items') := by
  induction h with
  | nil => exact ho
  | cons hx _ ih =>
    simp only [spread_cons, oneLine_append] at ho ⊢
    exact ⟨(hx.gap hs.1).oneLine, oneLine_of_map_toLower hx.lexeme.map_toLower ho.2.1,
      ih hs.2.2 ho.2.2⟩

end Varies

/-- What an edit does to a layout. -/
structure Layout.Varies (l l' : Layout) : Prop where
  items : List.Forall₂ Item.Varies l.items l'.items
  trailing : Trailing l.tail → Trailing l'.tail
  oneLine : OneLine l.tail → OneLine l'.tail

theorem Item.Varies.refl (x : Item) : x.Varies x := ⟨id, id, .refl _⟩

theorem forall₂_varies_refl (items : List Item) : List.Forall₂ Item.Varies items items :=
  List.forall₂_same.2 fun x _ ↦ .refl x

theorem ItemsEdit.varies {items items' : List Item} (h : ItemsEdit items items') :
    List.Forall₂ Item.Varies items items' := by
  induction h with
  | @blanks b₁ b₂ b x items hb =>
    refine .cons ⟨fun hg ↦ ?_, fun hg ↦ ?_, .refl x⟩ (forall₂_varies_refl items)
    · simp only [Blanks, List.forall_mem_append] at hg hb ⊢
      exact ⟨hg.1, hb, hg.2⟩
    · simp_all
  | recase b items hx => exact .cons ⟨id, id, hx⟩ (forall₂_varies_refl items)
  | cons x _ ih => exact .cons (.refl x) ih

theorem Layout.Edit.varies {l l' : Layout} (h : l.Edit l') : l.Varies l' := by
  cases h with
  | items tail hi => exact ⟨hi.varies, id, id⟩
  | finish items tail ht ho => exact ⟨forall₂_varies_refl items, fun _ ↦ ht, fun _ ↦ ho⟩

theorem Layout.Varies.says {l l' : Layout} (h : l.Varies l') (hs : l.Says s) :
    ∃ s', l'.Says s' ∧ s.Alike s' := by
  have hx : List.Forall₂ Lexeme.Recased (l.items.map Item.lexeme) (l'.items.map Item.lexeme) := by
    rw [List.forall₂_map_left_iff, List.forall₂_map_right_iff]
    exact h.items.imp fun _ _ ↦ Item.Varies.lexeme
  obtain ⟨s', hs', ha⟩ := hs.lexemes.recased hx
  exact ⟨s', ⟨hs', (hs.spaced.varies h.items).1, h.trailing hs.tail⟩, ha⟩

theorem LineEdit.lineText (h : LineEdit p p') (ho : OneLine p) (hs : LineText p s) :
    OneLine p' ∧ ∃ s', LineText p' s' ∧ s.Alike s' := by
  obtain ⟨l, l', s, hl, rfl, he, rfl⟩ := h
  obtain rfl := hs.unique (exists_layout_iff.1 ⟨l, rfl, hl⟩)
  have hv := he.varies
  obtain ⟨hspread, htail⟩ := oneLine_append.1 ho
  refine ⟨oneLine_append.2 ⟨oneLine_spread_varies hv.items hl.spaced hspread, hv.oneLine htail⟩, ?_⟩
  obtain ⟨s', hs', ha⟩ := hv.says hl
  exact ⟨s', exists_layout_iff.1 ⟨l', rfl, hs'⟩, ha⟩

/-! ## What an edited text says -/

theorem Trailing.lineText (h : Trailing p) : LineText p ⟨none, none⟩ :=
  ⟨[], [], [], p, blanks_nil, .absent, .absent, h, rfl⟩

theorem forall₂_spoken {sts sts' : List Statement} (h : List.Forall₂ Statement.Alike sts sts') :
    List.Forall₂ Statement.Alike (spoken sts) (spoken sts') :=
  List.rel_filter (fun _ _ hs ↦ iff_of_eq (congrArg (· = true) hs.speaks_eq)) h

theorem forall₂_alike_refl (sts : List Statement) : List.Forall₂ Statement.Alike sts sts :=
  List.forall₂_same.2 fun s _ ↦ .refl s

theorem spoken_cons (s : Statement) (sts : List Statement) :
    spoken (s :: sts) = spoken [s] ++ spoken sts := by
  rw [spoken, spoken, spoken, ← List.filter_append, List.singleton_append]

abbrev LinesText : List (List Char) → List Statement → Prop :=
  List.Forall₂ fun p s ↦ OneLine p ∧ LineText p s

/-- One edit leaves what the lines say alone, but for the case of registers. -/
theorem LinesEdit.linesText {ps ps' : List (List Char)} (h : LinesEdit ps ps')
    (hs : LinesText ps sts) : ∃ sts', LinesText ps' sts' ∧
      List.Forall₂ Statement.Alike (spoken sts) (spoken sts') := by
  induction h generalizing sts with
  | refl => exact ⟨sts, hs, forall₂_alike_refl _⟩
  | line ps he =>
    obtain ⟨s, sts, ⟨ho, hp⟩, hsts, rfl⟩ := List.forall₂_cons_left_iff.1 hs
    obtain ⟨ho', s', hp', ha⟩ := he.lineText ho hp
    exact ⟨s' :: sts, .cons ⟨ho', hp'⟩ hsts, forall₂_spoken (.cons ha (forall₂_alike_refl sts))⟩
  | insert ps ht ho => exact ⟨_, .cons ⟨ho, ht.lineText⟩ hs, forall₂_alike_refl _⟩
  | cons p _ ih =>
    obtain ⟨s, sts, hp, hsts, rfl⟩ := List.forall₂_cons_left_iff.1 hs
    obtain ⟨sts', hs', ha⟩ := ih hsts
    refine ⟨s :: sts', .cons hp hs', ?_⟩
    rw [spoken_cons s sts, spoken_cons s sts']
    exact List.rel_append (forall₂_alike_refl _) ha

/-- A line put before a text. If it ends in a carriage return and the text begins with a line feed,
an empty line of the text gets lost. -/
theorem Written.exists_prepend {text : List Char} (hp : OneLine p) (hs : LineText p s)
    (h : Written text sts) (e : LineEnd) :
    ∃ sts', Written (p ++ (e.text ++ text)) sts' ∧ spoken sts' = spoken (s :: sts) := by
  obtain ⟨ps, hc, hl⟩ := h
  cases e with
  | feed => exact ⟨s :: sts, ⟨p :: ps, .feed hp hc, .cons hs hl⟩, rfl⟩
  | returnFeed => exact ⟨s :: sts, ⟨p :: ps, .returnFeed hp hc, .cons hs hl⟩, rfl⟩
  | «return» =>
    -- before a line feed the carriage return is no line end of its own
    by_cases hf : text.head? = some '\n'
    · obtain ⟨text, rfl⟩ : ∃ text', text = '\n' :: text' := ⟨_, List.eq_cons_of_mem_head? hf⟩
      obtain rfl : ps = [] :: pieces text := hc.eq_pieces
      obtain ⟨s₀, sts, hs₀, hsts, rfl⟩ := List.forall₂_cons_left_iff.1 hl
      obtain rfl := hs₀.unique (Trailing.blanks blanks_nil).lineText
      exact ⟨s :: sts, ⟨p :: pieces text, .returnFeed hp (cut_pieces text), .cons hs hsts⟩, rfl⟩
    · exact ⟨s :: sts, ⟨p :: ps, .return hp hf hc, .cons hs hl⟩, rfl⟩

/-- Whatever the line ends, a text says what its lines say. -/
theorem Sheet.exists_written (t : Sheet) (h : LinesText t.lines sts) :
    ∃ sts', Written t.text sts' ∧ spoken sts' = spoken sts := by
  obtain ⟨p, ls⟩ := t
  induction ls generalizing p sts with
  | nil =>
    obtain ⟨s, sts, ⟨hp, hs⟩, hn, rfl⟩ := List.forall₂_cons_left_iff.1 h
    obtain rfl := List.forall₂_nil_left_iff.1 hn
    refine ⟨[s], ⟨[p], ?_, .cons hs .nil⟩, rfl⟩
    rw [Sheet.text, List.flatMap_nil, List.append_nil]
    exact .last hp
  | cons x ls ih =>
    obtain ⟨e, p'⟩ := x
    obtain ⟨s, sts, ⟨hp, hs⟩, hsts, rfl⟩ := List.forall₂_cons_left_iff.1 h
    obtain ⟨sts₁, hw, hsts₁⟩ := ih p' hsts
    obtain ⟨sts₂, hw', hsts₂⟩ := hw.exists_prepend hp hs e
    refine ⟨sts₂, ?_, ?_⟩
    · simpa [Sheet.text] using hw'
    · rw [hsts₂, spoken_cons, hsts₁, ← spoken_cons]

theorem Cut.forall_oneLine {cs : List Char} {ps : List (List Char)} (h : Cut cs ps) :
    ∀ p ∈ ps, OneLine p := by
  induction h with
  | last hp => simpa using hp
  | feed hp _ ih | returnFeed hp _ ih | «return» hp _ _ ih => exact List.forall_mem_cons.2 ⟨hp, ih⟩

/-- One edit does not change the words and symbols. -/
theorem Edit.exists_assemble {text text' : String} {prog : Program} (h : Edit text text')
    (ha : assemble text = .ok prog) : ∃ prog', assemble text' = .ok prog' ∧
      prog'.words = prog.words ∧ prog'.symbols = prog.symbols := by
  obtain ⟨t, ht, rfl⟩ := h
  obtain ⟨ns, hr, -⟩ := assemble_eq_ok_iff.1 ha
  have hw : Written text.toList (ns.map NumberedLine.statement) := written_iff.2 ⟨ns, hr, rfl⟩
  have hlines : LinesText (pieces text.toList) (ns.map NumberedLine.statement) := by
    obtain ⟨ps, hc, hl⟩ := hw
    obtain rfl := hc.eq_pieces
    exact forall₂_imp_mem hl fun p hp s hs ↦ ⟨hc.forall_oneLine p hp, hs⟩
  obtain ⟨sts, hsts, halike⟩ := ht.linesText hlines
  obtain ⟨sts', hw', hspoken⟩ := t.exists_written hsts
  rw [← hspoken] at halike
  exact exists_assemble_of_alike hw (by rwa [String.toList_ofList]) halike ha

/-- Layout and case do not matter: any number of edits gives a text that is assembled to the same
words and the same symbols. -/
theorem assemble_edited {text text' : String} {prog : Program}
    (h : Relation.ReflTransGen Edit text text') (ha : assemble text = .ok prog) :
    ∃ prog', assemble text' = .ok prog' ∧ prog'.words = prog.words ∧
      prog'.symbols = prog.symbols := by
  induction h with
  | refl => exact ⟨prog, ha, rfl, rfl⟩
  | tail _ he ih =>
    obtain ⟨prog₁, ha₁, hw₁, hs₁⟩ := ih
    obtain ⟨prog₂, ha₂, hw₂, hs₂⟩ := he.exists_assemble ha₁
    exact ⟨prog₂, ha₂, hw₂.trans hw₁, hs₂.trans hs₁⟩

/-- A line with a label, laid out in several ways. -/
def constLayout (word : List Char) (letter : Char) (b tail : List Char) : Layout where
  items := [⟨[], .label ['a']⟩, ⟨[' '], .mnemonic .const word⟩, ⟨[' '], .register [letter, '1']⟩,
    ⟨[], .comma⟩, ⟨b, .operand ['5']⟩]
  tail

theorem says_constLayout {word b tail : List Char} {letter : Char}
    (hw : word.map Char.toLower = "const".toList) (hl : letter.toLower = 'r') (hb : Blanks b)
    (ht : Trailing tail) : (constLayout word letter b tail).Says
      ⟨some ['a'], some (.const (.general letter ['1']) (.number ['5']))⟩ := by
  have hr : RegisterText [letter, '1'] (.general letter ['1']) :=
    .general hl nofun (List.all_eq_true.1 rfl)
  have hn : ImmediateText ['5'] ['5'] := .bare (.decimal nofun (List.all_eq_true.1 rfl))
  refine ⟨.labelled ⟨'a', [], rfl, rfl, nofun⟩ (.present ⟨_, .const, hw⟩ (.const hr hn)), ?_, ht⟩
  simp [constLayout, WellSpaced, Lexeme.standsAlone, Mnemonic.standsAlone, hb, blanks_nil,
    blanks_space]

def constSheet (word : List Char) (letter : Char) (b tail : List Char) : Sheet :=
  ⟨[';'], [(.returnFeed, (constLayout word letter b tail).text)]⟩

theorem edit_constSheet {word word' b b' tail tail' : List Char} {letter letter' : Char}
    {text text' : String} (hw : word.map Char.toLower = "const".toList)
    (hl : letter.toLower = 'r') (hb : Blanks b) (ht : Trailing tail)
    (h : (constLayout word letter b tail).Edit (constLayout word' letter' b' tail'))
    (ho : Sheet.ofText text.toList = constSheet word letter b tail)
    (ho' : text' = String.ofList (constSheet word' letter' b' tail').text) : Edit text text' := by
  refine ⟨_, ?_, ho'⟩
  rw [ho]
  exact .cons _ (.line _ ⟨_, _, _, says_constLayout hw hl hb ht, rfl, h, rfl⟩)

theorem edits_const : Relation.ReflTransGen Edit "a: CONST R1,5"
    ";\r\na: const r1,\t5 ; 5" := by
  have htab : Blanks ['\t'] := by simp [Blanks, isBlank]
  have h₁ : Edit "a: CONST R1,5" ";\r\na: CONST R1,5" :=
    ⟨constSheet "CONST".toList 'R' [] [], .insert _ (.comment [] blanks_nil)
      (by simp [OneLine, constSheet]), rfl⟩
  have e₂ : (constLayout "CONST".toList 'R' [] []).Edit (constLayout "const".toList 'R' [] []) :=
    .items _ (.cons _ (.recase _ _ (.mnemonic .const rfl)))
  have e₃ : (constLayout "const".toList 'R' [] []).Edit (constLayout "const".toList 'r' [] []) :=
    .items _ (.cons _ (.cons _ (.recase _ _ (.register ['1'] rfl rfl))))
  have e₄ : (constLayout "const".toList 'r' [] []).Edit
      (constLayout "const".toList 'r' ['\t'] []) :=
    .items _ (.cons _ (.cons _ (.cons _ (.cons _ (.blanks [] [] _ _ htab)))))
  have e₅ : (constLayout "const".toList 'r' ['\t'] []).Edit
      (constLayout "const".toList 'r' ['\t'] " ; 5".toList) :=
    .finish _ _ (.comment " 5".toList blanks_space) (by simp [OneLine])
  have h₂ : Edit ";\r\na: CONST R1,5" ";\r\na: const R1,5" :=
    edit_constSheet rfl rfl blanks_nil (.blanks blanks_nil) e₂ rfl rfl
  have h₃ : Edit ";\r\na: const R1,5" ";\r\na: const r1,5" :=
    edit_constSheet rfl rfl blanks_nil (.blanks blanks_nil) e₃ rfl rfl
  have h₄ : Edit ";\r\na: const r1,5" ";\r\na: const r1,\t5" :=
    edit_constSheet rfl rfl blanks_nil (.blanks blanks_nil) e₄ rfl rfl
  have h₅ : Edit ";\r\na: const r1,\t5" ";\r\na: const r1,\t5 ; 5" :=
    edit_constSheet rfl rfl htab (.blanks blanks_nil) e₅ rfl rfl
  exact .tail (.tail (.tail (.tail (.single h₁) h₂) h₃) h₄) h₅

theorem assemble_edited_const :
    Relation.ReflTransGen Edit "a: CONST R1,5" ";\r\na: const r1,\t5 ; 5" ∧
      ∃ prog prog', assemble "a: CONST R1,5" = .ok prog ∧
        assemble ";\r\na: const r1,\t5 ; 5" = .ok prog' ∧ prog'.words = prog.words ∧
        prog'.symbols = prog.symbols ∧ prog.words = #[0x9105] ∧ prog.symbols = [("a", 0)] := by
  obtain ⟨prog, ha, hw, hs⟩ : ∃ prog, assemble "a: CONST R1,5" = .ok prog ∧
      prog.words = #[0x9105] ∧ prog.symbols = [("a", 0)] := ⟨_, rfl, rfl, rfl⟩
  obtain ⟨prog', ha', hw', hs'⟩ := assemble_edited edits_const ha
  exact ⟨edits_const, prog, prog', ha, ha', hw', hs', hw, hs⟩

end SimtMachine.Assembly
