import SimtMachine.Assembly.Assembler
import SimtMachine.Proofs.Assembly.Encoding
import SimtMachine.Proofs.Assembly.Instructions

/-!
# Source texts

A source text is cut at its line ends. Each piece is a line: a label, an instruction and a comment,
all of them optional. Reading a text succeeds if and only if it has this form, and finds the labels
and instructions of its lines in order.
-/

namespace SimtMachine.Assembly

variable {cs rest b l w p name tail : List Char} {ps : List (List Char)}

/-! ## Lines -/

/-- What a line says. -/
structure Statement where
  label : Option (List Char)
  inst : Option WrittenInst

def Line.statement (l : Line) : Statement := ⟨l.label, l.inst⟩

/-- A label with its colon and the blanks after it, if the line has one. -/
inductive LabelText : List Char → Option (List Char) → Prop
  | absent : LabelText [] none
  | present {name b : List Char} : IdentText name → Blanks b →
      LabelText (name ++ ':' :: b) (some name)

inductive BodyText : List Char → Option WrittenInst → Prop
  | absent : BodyText [] none
  | present {w : List Char} {i : WrittenInst} : InstText w i → BodyText w (some i)

/-- The texts of lines. -/
def LineText (cs : List Char) (s : Statement) : Prop :=
  ∃ b l w tail, Blanks b ∧ LabelText l s.label ∧ BodyText w s.inst ∧ Trailing tail ∧
    cs = b ++ (l ++ (w ++ tail))

variable {s : Statement} {i : WrittenInst} {o : Option WrittenInst} {m : Mnemonic}

theorem MnemonicText.forall_isWordChar (h : MnemonicText w m) :
    ∀ c ∈ w, isWordChar c = true := by
  obtain ⟨word, hm, hw⟩ := h
  have hword : ∀ c ∈ word, isWordChar c = true := by
    rw [← List.all_eq_true]
    cases hm with
    | branch less equal greater => cases less <;> cases equal <;> cases greater <;> rfl
    | _ => rfl
  intro c hc
  rw [← isWordChar_toLower]
  refine hword _ ?_
  rw [← hw]
  exact List.mem_map_of_mem hc

theorem MnemonicText.begins (h : MnemonicText w m) : Begins w := by
  have hw := h.forall_isWordChar
  cases w with
  | nil =>
    obtain ⟨word, hm, hs⟩ := h
    obtain rfl : [] = word := hs
    cases hm
  | cons c w => exact begins_of_isWordChar (hw c (by simp)) w

theorem CommaText.instChars (h : CommaText cs) : InstChars cs := by
  obtain ⟨b, b', hb, hb', rfl⟩ := h
  exact instChars_append hb.instChars (List.forall_mem_cons.2 ⟨by decide, hb'.instChars⟩)

theorem OperandsText.instChars (h : OperandsText m w i) : InstChars w := by
  cases h with
  | nop | ret => exact nofun
  | branch hb hu => exact instChars_append hb.instChars hu.instChars
  | compare hb hu hc hv | load hb hu hc hv | store hb hu hc hv =>
    apply instChars_append _ hv.instChars
    apply instChars_append _ hc.instChars
    exact instChars_append hb.instChars hu.instChars
  | const hb hu hc hv =>
    apply instChars_append _ hv.instChars
    apply instChars_append _ hc.instChars
    exact instChars_append hb.instChars hu.instChars
  | arith hb hu hc hv hc' hw =>
    apply instChars_append _ hw.instChars
    apply instChars_append _ hc'.instChars
    apply instChars_append _ hv.instChars
    apply instChars_append _ hc.instChars
    exact instChars_append hb.instChars hu.instChars

theorem InstText.begins (h : InstText w i) : Begins w := by
  obtain ⟨m, u, v, hu, -, -, rfl⟩ := h
  exact hu.begins.append v

theorem InstText.instChars (h : InstText w i) : InstChars w := by
  obtain ⟨m, u, v, hu, hv, -, rfl⟩ := h
  exact instChars_append (instChars_of_isWordChar hu.forall_isWordChar) hv.instChars

theorem Trailing.not_append_colon (h : Trailing (w ++ ':' :: rest))
    (hw : ∀ c ∈ w, isWordChar c = true) : False := by
  have hs : Begins (w ++ ':' :: rest) := by
    cases w with
    | nil => exact ⟨':', rest, rfl, by decide, by decide⟩
    | cons c w => exact begins_of_isWordChar (hw c (by simp)) _
  have hn := h.skip_eq_nil
  rw [skip_of_begins hs] at hn
  simp at hn

theorem label_eq_none (hw : ∀ c ∈ w, c ≠ ':') (ht : Trailing tail) : label (w ++ tail) = none := by
  cases hl : label (w ++ tail) with
  | none => rfl
  | some p =>
    obtain ⟨name, rest⟩ := p
    obtain ⟨hname, hcs⟩ := label_eq_some_iff.1 hl
    rcases List.append_eq_append_iff.1 hcs with ⟨v, rfl, hv⟩ | ⟨v, rfl, hv⟩
    · exact (Trailing.not_append_colon (hv ▸ ht) fun c hc ↦
        hname.isWordChar c (List.mem_append_right _ hc)).elim
    · cases v with
      | nil =>
        rw [List.nil_append] at hv
        exact (Trailing.not_append_colon (w := []) (hv ▸ ht) nofun).elim
      | cons c v =>
        obtain ⟨rfl, -⟩ := List.cons.inj hv
        exact absurd rfl (hw ':' (by simp))

def body (cs : List Char) : Option WrittenInst × List Char :=
  match instruction cs with
  | some (i, rest) => (some i, rest)
  | none => (none, cs)

theorem lineBody_of_label (h : label (skip cs) = some (name, rest)) :
    (lineBody cs).1.statement = ⟨some name, (body (skip rest)).1⟩ ∧
      (lineBody cs).2 = (body (skip rest)).2 := by
  cases hi : instruction (skip rest) <;> simp [lineBody, h, hi, body, Line.statement]

theorem lineBody_of_label_eq_none (h : label (skip cs) = none) :
    (lineBody cs).1.statement = ⟨none, (body (skip cs)).1⟩ ∧
      (lineBody cs).2 = (body (skip cs)).2 := by
  cases hi : instruction (skip cs) <;> simp [lineBody, h, hi, body, Line.statement]

theorem read?_iff : (∃ line, Line.read? cs = some line ∧ line.statement = s) ↔
    (lineBody cs).1.statement = s ∧ skip (lineBody cs).2 = [] := by
  simp only [Line.read?, List.isEmpty_iff, Option.ite_none_right_eq_some, Option.some.injEq]
  constructor
  · rintro ⟨_, ⟨hs, rfl⟩, h⟩
    exact ⟨h, hs⟩
  · rintro ⟨h, hs⟩
    exact ⟨_, ⟨hs, rfl⟩, h⟩

theorem BodyText.body_skip (h : BodyText w o) (hb : Blanks b) (ht : Trailing tail) :
    label (skip (b ++ (w ++ tail))) = none ∧ (body (skip (b ++ (w ++ tail)))).1 = o ∧
      skip (body (skip (b ++ (w ++ tail)))).2 = [] := by
  cases h with
  | absent =>
    rw [skip_append hb, List.nil_append, ht.skip_eq_nil]
    exact ⟨rfl, rfl, rfl⟩
  | present hi =>
    rw [skip_append_of_begins hb (hi.begins.append tail)]
    obtain ⟨rest, hrest, hs⟩ := hi.instruction_append ht
    refine ⟨label_eq_none (hi.instChars.ne (by decide)) ht, ?_⟩
    simp [body, hrest, hs]

theorem body_sound (h : skip (body (skip cs)).2 = []) :
    ∃ b w tail, Blanks b ∧ BodyText w (body (skip cs)).1 ∧ Trailing tail ∧
      cs = b ++ (w ++ tail) := by
  unfold body at h ⊢
  split at h
  · next i rest hi =>
    obtain ⟨w, tail, hw, ht, hcs⟩ := instruction_sound hi h
    obtain ⟨b, hb, rfl⟩ := exists_blanks hcs hw.begins
    exact ⟨b, w, tail, hb, .present hw, ht, List.append_assoc ..⟩
  · have ht : Trailing cs := by rwa [← skip_eq_nil_iff, ← skip_skip]
    exact ⟨[], [], cs, blanks_nil, .absent, ht, rfl⟩

/-- A line is read if and only if it has the form of a line, and then as what it says. -/
theorem exists_read?_iff :
    (∃ line, Line.read? cs = some line ∧ line.statement = s) ↔ LineText cs s := by
  rw [read?_iff]
  constructor
  · rintro ⟨rfl, hs⟩
    cases hl : label (skip cs) with
    | some p =>
      obtain ⟨name, rest⟩ := p
      obtain ⟨h₁, h₂⟩ := lineBody_of_label hl
      obtain ⟨hname, hcs⟩ := label_eq_some_iff.1 hl
      obtain ⟨b, hb, rfl⟩ := exists_blanks hcs hname.begins
      obtain ⟨b', w, tail, hb', hw, ht, rfl⟩ := body_sound (h₂ ▸ hs)
      rw [h₁]
      exact ⟨b, _, w, tail, hb, .present hname hb', hw, ht, by simp⟩
    | none =>
      obtain ⟨h₁, h₂⟩ := lineBody_of_label_eq_none hl
      obtain ⟨b, w, tail, hb, hw, ht, hcs⟩ := body_sound (h₂ ▸ hs)
      rw [h₁]
      exact ⟨b, [], w, tail, hb, .absent, hw, ht, hcs⟩
  · rintro ⟨b, l, w, tail, hb, hl, hw, ht, rfl⟩
    obtain ⟨name, inst⟩ := s
    cases hl with
    | absent =>
      obtain ⟨hn, hi, hr⟩ := hw.body_skip hb ht
      obtain ⟨h₁, h₂⟩ := lineBody_of_label_eq_none hn
      rw [List.nil_append, h₁, h₂, hi]
      exact ⟨rfl, hr⟩
    | @present name b' hname hb' =>
      obtain ⟨-, hi, hr⟩ := hw.body_skip hb' ht
      have hs : skip (b ++ (name ++ ':' :: (b' ++ (w ++ tail)))) =
          name ++ ':' :: (b' ++ (w ++ tail)) :=
        skip_append_of_begins hb (hname.begins.append _)
      have hl : label (skip (b ++ ((name ++ ':' :: b') ++ (w ++ tail)))) =
          some (name, b' ++ (w ++ tail)) := by
        rw [List.append_assoc, List.cons_append, hs]
        exact label_eq_some_iff.2 ⟨hname, rfl⟩
      obtain ⟨h₁, h₂⟩ := lineBody_of_label hl
      rw [h₁, h₂, hi]
      exact ⟨rfl, hr⟩

/-! ## Texts -/

def OneLine (p : List Char) : Prop := ∀ c ∈ p, c ≠ '\n' ∧ c ≠ '\r'

/-- The pieces of a text between its line ends. A line feed right after a carriage return belongs to
the same line end. -/
inductive Cut : List Char → List (List Char) → Prop
  | last {p : List Char} : OneLine p → Cut p [p]
  | feed {p cs : List Char} {ps : List (List Char)} : OneLine p → Cut cs ps →
      Cut (p ++ '\n' :: cs) (p :: ps)
  | returnFeed {p cs : List Char} {ps : List (List Char)} : OneLine p → Cut cs ps →
      Cut (p ++ '\r' :: '\n' :: cs) (p :: ps)
  | return {p cs : List Char} {ps : List (List Char)} : OneLine p → cs.head? ≠ some '\n' →
      Cut cs ps → Cut (p ++ '\r' :: cs) (p :: ps)

/-- The source texts and what their lines say. -/
def Written (text : List Char) (lines : List Statement) : Prop :=
  ∃ ps, Cut text ps ∧ List.Forall₂ LineText ps lines

def pieces (text : List Char) : List (List Char) :=
  (splitLines text).1 :: (splitLines text).2.map Prod.snd

theorem placeLines_text (line : PlacedLine) (ls : List (LineEnd × List Char)) :
    (placeLines line ls).map PlacedLine.text = line.text :: ls.map Prod.snd := by
  induction ls generalizing line with
  | nil => rfl
  | cons e ls ih =>
    obtain ⟨e, text⟩ := e
    cases e <;> simp [placeLines, ih]

theorem placedLines_text (text : List Char) :
    (placedLines text).map PlacedLine.text = pieces text :=
  placeLines_text _ _

theorem splitLines_cons {c : Char} (hn : c ≠ '\n') (hr : c ≠ '\r') (cs : List Char) :
    splitLines (c :: cs) = (c :: (splitLines cs).1, (splitLines cs).2) := by
  rw [splitLines]
  · simp_all
  · simp_all
  · simp_all

theorem pieces_append (hp : OneLine p) (cs : List Char) :
    pieces (p ++ cs) = (p ++ (splitLines cs).1) :: (splitLines cs).2.map Prod.snd := by
  induction p with
  | nil => rfl
  | cons c p ih =>
    obtain ⟨⟨hn, hr⟩, hp⟩ := List.forall_mem_cons.1 hp
    have ih := List.cons.inj (ih hp)
    rw [pieces, List.cons_append, splitLines_cons hn hr]
    simp only [ih.1, ih.2, List.cons_append]

theorem splitLines_return (h : cs.head? ≠ some '\n') :
    splitLines ('\r' :: cs) = ([], (.return, (splitLines cs).1) :: (splitLines cs).2) := by
  rw [splitLines]
  rintro rest rfl
  exact h rfl

theorem Cut.eq_pieces (h : Cut cs ps) : ps = pieces cs := by
  induction h with
  | last hp =>
    have hs := pieces_append hp []
    rw [List.append_nil] at hs
    simp [hs, splitLines]
  | feed hp _ ih | returnFeed hp _ ih =>
    rw [pieces_append hp]
    simp [splitLines, ih, pieces]
  | «return» hp hn _ ih =>
    rw [pieces_append hp, splitLines_return hn]
    simp [ih, pieces]

theorem Cut.cons {c : Char} (h : Cut cs (p :: ps)) (hc : c ≠ '\n' ∧ c ≠ '\r') :
    Cut (c :: cs) ((c :: p) :: ps) := by
  have hp {q : List Char} (hq : OneLine q) : OneLine (c :: q) := List.forall_mem_cons.2 ⟨hc, hq⟩
  cases h with
  | last hq => exact .last (hp hq)
  | feed hq h => exact .feed (hp hq) h
  | returnFeed hq h => exact .returnFeed (hp hq) h
  | «return» hq hn h => exact .return (hp hq) hn h

theorem cut_pieces (cs : List Char) : Cut cs (pieces cs) := by
  have hnil : OneLine [] := nofun
  induction cs using splitLines.induct with
  | case1 => exact .last hnil
  | case2 cs l ls hs ih => exact .returnFeed hnil ih
  | case3 cs l ls hs ih => exact .feed hnil ih
  | case4 cs hn l ls hs ih =>
    have hn : cs.head? ≠ some '\n' := fun h ↦ hn _ (List.eq_cons_of_mem_head? h)
    have hp : pieces ('\r' :: cs) = [] :: pieces cs := by
      rw [pieces, splitLines_return hn]
      rfl
    exact hp ▸ .return hnil hn ih
  | case5 c cs _ hn hr l ls hs ih =>
    have hp : pieces (c :: cs) = (c :: l) :: ls.map Prod.snd := by
      rw [pieces, splitLines_cons hn hr, hs]
    rw [pieces, hs] at ih
    exact hp ▸ ih.cons ⟨hn, hr⟩

/-- Every text is cut in exactly one way. -/
theorem cut_iff : Cut cs ps ↔ ps = pieces cs := by
  refine ⟨Cut.eq_pieces, ?_⟩
  rintro rfl
  exact cut_pieces cs

def NumberedLine.statement (l : NumberedLine) : Statement := l.line.statement

theorem readLine_eq_ok_iff {l : PlacedLine} {n : NumberedLine} :
    readLine l = .ok n ↔ Line.read? l.text = some n.line ∧ n.row = l.row := by
  obtain ⟨row, line⟩ := n
  unfold readLine
  split
  · next line' h => simp [h, eq_comm, and_comm]
  · next h => simp [h]

/-- A line of a source text can be read if and only if it has the form of a line. -/
theorem lineText_iff {l : PlacedLine} :
    LineText l.text s ↔ ∃ n, readLine l = .ok n ∧ n.statement = s := by
  rw [← exists_read?_iff]
  constructor
  · rintro ⟨line, hl, hs⟩
    exact ⟨⟨l.row, line⟩, readLine_eq_ok_iff.2 ⟨hl, rfl⟩, hs⟩
  · rintro ⟨n, hn, hs⟩
    exact ⟨n.line, (readLine_eq_ok_iff.1 hn).1, hs⟩

theorem forall₂_exists_iff {α β γ : Type} {R : α → β → Prop} {f : β → γ} {l : List α}
    {l' : List γ} :
    List.Forall₂ (fun a c ↦ ∃ b, R a b ∧ f b = c) l l' ↔
      ∃ bs, List.Forall₂ R l bs ∧ bs.map f = l' := by
  constructor
  · intro h
    induction h with
    | nil => exact ⟨[], .nil, rfl⟩
    | cons h _ ih =>
      obtain ⟨b, hb, rfl⟩ := h
      obtain ⟨bs, hbs, rfl⟩ := ih
      exact ⟨b :: bs, .cons hb hbs, rfl⟩
  · rintro ⟨bs, h, rfl⟩
    rw [List.forall₂_map_right_iff]
    exact h.imp fun a b hab ↦ ⟨b, hab, rfl⟩

theorem exists_forall₂_iff {α β : Type} {R : α → β → Prop} {l : List α} :
    (∃ l', List.Forall₂ R l l') ↔ ∀ a ∈ l, ∃ b, R a b := by
  induction l with
  | nil => simp
  | cons a l ih =>
    simp only [List.forall₂_cons_left_iff, List.forall_mem_cons, ← ih]
    constructor
    · rintro ⟨_, b, l', hb, hl, rfl⟩
      exact ⟨⟨b, hb⟩, l', hl⟩
    · rintro ⟨⟨b, hb⟩, l', hl⟩
      exact ⟨_, b, l', hb, hl, rfl⟩

/-- A text is read if and only if it is a source text, and then as what its lines say. -/
theorem written_iff {text : List Char} {lines : List Statement} :
    Written text lines ↔
      ∃ ns, read text = .ok ns ∧ ns.map NumberedLine.statement = lines := by
  simp only [Written, cut_iff, exists_eq_left, ← placedLines_text, List.forall₂_map_left_iff,
    lineText_iff, forall₂_exists_iff, read, mapM_eq_ok_iff]

end SimtMachine.Assembly
