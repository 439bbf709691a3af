import SimtMachine.DataText
import SimtMachine.Proofs.Assembly.Tokens

/-!
# Layouts of data files

The text of a data file is tokens with gaps before them and an ending behind the last one. Gaps are
made of separators and comments, and only the first of them may be empty. Every text is laid out in
this way, and in one way only.
-/

namespace SimtMachine.DataText

open Assembly (run_append_inj)

variable {c : Char} {cs g g' r r' t t' u u' w w' : List Char}

/-! ## Gaps, tokens and endings -/

/-- Whether a character may stand in a token. -/
def isPlain (c : Char) : Bool := !isSeparator c && c != ';'

def IsToken (w : List Char) : Prop := w ≠ [] ∧ ∀ c ∈ w, isPlain c = true

/-- Text between tokens: separators, and comments with the ends of their lines. -/
inductive Gap : List Char → Prop
  | nil : Gap []
  | separator {c : Char} {g : List Char} : isSeparator c = true → Gap g → Gap (c :: g)
  | comment {t g : List Char} : '\n' ∉ t → Gap g → Gap (';' :: (t ++ '\n' :: g))

/-- Text behind the last token. A comment may run to the end of it. -/
inductive Ending : List Char → Prop
  | nil : Ending []
  | separator {c : Char} {r : List Char} : isSeparator c = true → Ending r → Ending (c :: r)
  | comment {t r : List Char} : '\n' ∉ t → Ending r → Ending (';' :: (t ++ '\n' :: r))
  | unended {t : List Char} : '\n' ∉ t → Ending (';' :: t)

/-- A text that does not go on with a character of a token. -/
def EndsToken (cs : List Char) : Prop := ∀ c ∈ cs.head?, isPlain c = false

theorem isSeparator_newline : isSeparator '\n' = true := by decide

theorem isSeparator_semicolon : isSeparator ';' = false := by decide

theorem isPlain_semicolon : isPlain ';' = false := by decide

theorem isPlain_of_isSeparator (h : isSeparator c = true) : isPlain c = false := by
  simp [isPlain, h]

theorem isSeparator_of_isPlain (h : isPlain c = true) : isSeparator c = false := by
  cases hc : isSeparator c with
  | false => rfl
  | true => simp [isPlain_of_isSeparator hc] at h

theorem ne_of_isPlain {d : Char} (h : isPlain c = true) (hd : isPlain d = false) : c ≠ d := by
  rintro rfl
  simp [hd] at h

theorem ne_semicolon_of_isSeparator (h : isSeparator c = true) : c ≠ ';' := by
  rintro rfl
  simp [isSeparator_semicolon] at h

theorem isPlain_newline : isPlain '\n' = false := isPlain_of_isSeparator isSeparator_newline

theorem IsToken.newline_notMem (h : IsToken w) : '\n' ∉ w := fun hn ↦
  absurd (h.2 _ hn) (by simp [isPlain_newline])

theorem IsToken.exists_cons (h : IsToken w) : ∃ c cs, w = c :: cs ∧ isPlain c = true := by
  obtain ⟨c, cs, rfl⟩ := List.exists_cons_of_ne_nil h.1
  exact ⟨c, cs, rfl, h.2 c (by simp)⟩

theorem Gap.isPlain_eq_false (h : Gap (c :: g)) : isPlain c = false := by
  cases h with
  | separator hc => exact isPlain_of_isSeparator hc
  | comment => exact isPlain_semicolon

theorem Ending.endsToken (h : Ending r) : EndsToken r := by
  rintro c hc
  cases h with
  | nil => simp at hc
  | separator hd =>
    obtain rfl := Option.some.inj hc
    exact isPlain_of_isSeparator hd
  | comment | unended =>
    obtain rfl := Option.some.inj hc
    exact isPlain_semicolon

theorem Gap.endsToken_append (h : Gap g) (hg : g ≠ []) (cs : List Char) : EndsToken (g ++ cs) := by
  obtain ⟨c, g, rfl⟩ := List.exists_cons_of_ne_nil hg
  rintro d hd
  obtain rfl := Option.some.inj hd
  exact h.isPlain_eq_false

/-- A comment ends with the first line end. -/
theorem comment_append_inj (ht : '\n' ∉ t) (ht' : '\n' ∉ t')
    (h : t ++ '\n' :: u = t' ++ '\n' :: u') : t = t' ∧ u = u' := by
  have hline {t : List Char} (ht : '\n' ∉ t) : ∀ c ∈ t, (c != '\n') = true := by
    intro c hc
    rw [bne_iff_ne]
    rintro rfl
    exact ht hc
  have hend (u : List Char) : ∀ c ∈ ('\n' :: u).head?, (c != '\n') = false := by simp
  obtain ⟨rfl, hu⟩ := run_append_inj (hline ht) (hline ht') (hend u) (hend u') h
  exact ⟨rfl, (List.cons.inj hu).2⟩

/-- A gap in front of a token is as long as the token allows. -/
theorem Gap.append_inj (hg : Gap g) (hg' : Gap g') (hw : IsToken w) (hw' : IsToken w')
    (h : g ++ (w ++ u) = g' ++ (w' ++ u')) : g = g' ∧ w ++ u = w' ++ u' := by
  induction hg generalizing g' with
  | nil =>
    obtain ⟨c, w, rfl, hc⟩ := hw.exists_cons
    cases hg' with
    | nil => exact ⟨rfl, h⟩
    | separator hd =>
      exact absurd (List.cons.inj h).1 (ne_of_isPlain hc (isPlain_of_isSeparator hd))
    | comment => exact absurd (List.cons.inj h).1 (ne_of_isPlain hc isPlain_semicolon)
  | separator hc _ ih =>
    cases hg' with
    | nil =>
      obtain ⟨d, w', rfl, hd⟩ := hw'.exists_cons
      exact absurd (List.cons.inj h).1.symm (ne_of_isPlain hd (isPlain_of_isSeparator hc))
    | separator _ hg' =>
      obtain ⟨rfl, hcs⟩ := List.cons.inj h
      obtain ⟨rfl, hu⟩ := ih hg' hcs
      exact ⟨rfl, hu⟩
    | comment => exact absurd (List.cons.inj h).1 (ne_semicolon_of_isSeparator hc)
  | comment ht _ ih =>
    cases hg' with
    | nil =>
      obtain ⟨d, w', rfl, hd⟩ := hw'.exists_cons
      exact absurd (List.cons.inj h).1.symm (ne_of_isPlain hd isPlain_semicolon)
    | separator hc => exact absurd (List.cons.inj h).1.symm (ne_semicolon_of_isSeparator hc)
    | comment ht' hg' =>
      simp only [List.cons_append, List.append_assoc, List.cons.injEq, true_and] at h
      obtain ⟨rfl, hcs⟩ := comment_append_inj ht ht' h
      obtain ⟨rfl, hu⟩ := ih hg' hcs
      exact ⟨rfl, hu⟩

theorem Gap.not_ending_append (hg : Gap g) (hw : IsToken w) : ¬Ending (g ++ (w ++ u)) := by
  induction hg with
  | nil =>
    obtain ⟨c, w, rfl, hc⟩ := hw.exists_cons
    intro h
    have hn := h.endsToken c rfl
    simp [hc] at hn
  | @separator c g hc _ ih =>
    rw [List.cons_append]
    generalize hcs : g ++ (w ++ u) = cs at ih
    intro h
    cases h with
    | separator _ h => exact ih h
    | comment | unended => exact absurd rfl (ne_semicolon_of_isSeparator hc)
  | @comment t g ht _ ih =>
    rw [List.cons_append, List.append_assoc, List.cons_append]
    generalize hcs : t ++ '\n' :: (g ++ (w ++ u)) = cs
    intro h
    cases h with
    | separator hc => exact absurd rfl (ne_semicolon_of_isSeparator hc)
    | comment ht' h =>
      obtain ⟨-, rfl⟩ := comment_append_inj ht ht' hcs
      exact ih h
    | unended ht' => exact ht' (hcs ▸ by simp)

/-! ## Layouts -/

/-- A token with the gap before it. -/
structure Entry where
  gap : List Char
  token : List Char
  isGap : Gap gap
  isToken : IsToken token

def Entry.text (e : Entry) : List Char := e.gap ++ e.token

def spread (es : List Entry) : List Char := es.flatMap Entry.text

/-- The text of a data file by its tokens. Only the first gap may be empty. -/
structure Layout where
  entries : List Entry
  ending : List Char
  apart : [] ∉ (entries.map Entry.gap).tail
  isEnding : Ending ending

def Layout.text (l : Layout) : List Char := spread l.entries ++ l.ending

variable {e e' : Entry} {es es' : List Entry}

theorem spread_cons_append (e : Entry) (es : List Entry) (cs : List Char) :
    spread (e :: es) ++ cs = e.gap ++ (e.token ++ (spread es ++ cs)) := by
  simp [spread, Entry.text]

theorem apart_of_notMem (h : [] ∉ es.map Entry.gap) : [] ∉ (es.map Entry.gap).tail :=
  fun hn ↦ h (List.mem_of_mem_tail hn)

/-- What follows a token, another gap or the ending, does not continue it. -/
theorem endsToken_spread (ha : [] ∉ es.map Entry.gap) (hr : Ending r) :
    EndsToken (spread es ++ r) := by
  cases es with
  | nil => exact hr.endsToken
  | cons e es =>
    rw [spread_cons_append]
    refine e.isGap.endsToken_append (fun h ↦ ha ?_) _
    simp [h]

/-! ## One layout -/

theorem spread_inj (ha : [] ∉ (es.map Entry.gap).tail) (ha' : [] ∉ (es'.map Entry.gap).tail)
    (hr : Ending r) (hr' : Ending r') (h : spread es ++ r = spread es' ++ r') :
    es = es' ∧ r = r' := by
  induction es generalizing es' with
  | nil =>
    cases es' with
    | nil => exact ⟨rfl, h⟩
    | cons e' es' =>
      rw [spread_cons_append] at h
      obtain rfl : r = _ := h
      exact absurd hr (e'.isGap.not_ending_append e'.isToken)
  | cons e es ih =>
    cases es' with
    | nil =>
      rw [spread_cons_append] at h
      obtain rfl : _ = r' := h
      exact absurd hr' (e.isGap.not_ending_append e.isToken)
    | cons e' es' =>
      obtain ⟨g, w, hg, hw⟩ := e
      obtain ⟨g', w', hg', hw'⟩ := e'
      simp only [List.map_cons, List.tail_cons] at ha ha'
      simp only [spread_cons_append] at h
      obtain ⟨rfl, htoken⟩ := hg.append_inj hg' hw hw' h
      obtain ⟨rfl, hrest⟩ :=
        run_append_inj hw.2 hw'.2 (endsToken_spread ha hr) (endsToken_spread ha' hr') htoken
      obtain ⟨rfl, rfl⟩ := ih (apart_of_notMem ha) (apart_of_notMem ha') hrest
      exact ⟨rfl, rfl⟩

theorem Layout.text_injective : Function.Injective Layout.text := by
  rintro ⟨es, r, ha, hr⟩ ⟨es', r', ha', hr'⟩ h
  obtain ⟨rfl, rfl⟩ := spread_inj ha ha' hr hr' h
  rfl

/-! ## Some layout -/

/-- A layout with more text before its first token. -/
theorem Layout.exists_lead (l : Layout) (hg : ∀ g', Gap g' → Gap (g ++ g'))
    (hr : ∀ r, Ending r → Ending (g ++ r)) : ∃ l' : Layout, l'.text = g ++ l.text := by
  obtain ⟨es, r, ha, hl⟩ := l
  cases es with
  | nil => exact ⟨⟨[], g ++ r, ha, hr r hl⟩, rfl⟩
  | cons e es =>
    refine ⟨⟨⟨g ++ e.gap, e.token, hg _ e.isGap, e.isToken⟩ :: es, r, ha, hl⟩, ?_⟩
    simp [Layout.text, spread_cons_append]

/-- A layout with one more character at the start of its first token, or with a token more. -/
theorem Layout.exists_plain (l : Layout) (hc : isPlain c = true) :
    ∃ l' : Layout, l'.text = c :: l.text := by
  obtain ⟨es, r, ha, hr⟩ := l
  have htoken : IsToken [c] := ⟨by simp, by simpa using hc⟩
  by_cases hes : [] ∈ es.map Entry.gap
  · cases es with
    | nil => simp at hes
    | cons e es =>
      have he : e.gap = [] := by
        rcases List.mem_cons.1 hes with h | h
        · exact h.symm
        · exact absurd h ha
      have ht : IsToken (c :: e.token) := ⟨by simp, List.forall_mem_cons.2 ⟨hc, e.isToken.2⟩⟩
      refine ⟨⟨⟨[], c :: e.token, .nil, ht⟩ :: es, r, ha, hr⟩, ?_⟩
      simp [Layout.text, spread_cons_append, he]
  · exact ⟨⟨⟨[], [c], .nil, htoken⟩ :: es, r, hes, hr⟩, by simp [Layout.text, spread_cons_append]⟩

theorem exists_layout (cs : List Char) : ∃ l : Layout, l.text = cs := by
  induction hn : cs.length using Nat.strong_induction_on generalizing cs with
  | _ n ih =>
    subst hn
    cases cs with
    | nil => exact ⟨⟨[], [], by simp, .nil⟩, rfl⟩
    | cons c cs =>
      by_cases hs : c = ';'
      · subst hs
        by_cases hcs : '\n' ∈ cs
        · obtain ⟨t, cs, rfl, ht⟩ := List.eq_append_cons_of_mem hcs
          obtain ⟨l, rfl⟩ := ih cs.length (by simp; omega) cs rfl
          obtain ⟨l', hl'⟩ := l.exists_lead (g := ';' :: (t ++ ['\n']))
            (fun _ hg ↦ by simpa using Gap.comment ht hg)
            (fun _ hr ↦ by simpa using Ending.comment ht hr)
          exact ⟨l', by simpa using hl'⟩
        · exact ⟨⟨[], ';' :: cs, by simp, .unended hcs⟩, rfl⟩
      · obtain ⟨l, rfl⟩ := ih cs.length (by simp) cs rfl
        by_cases hc : isSeparator c = true
        · exact l.exists_lead (g := [c]) (fun _ ↦ .separator hc) fun _ ↦ .separator hc
        · exact l.exists_plain (by simp [isPlain, hc, hs])

end SimtMachine.DataText
